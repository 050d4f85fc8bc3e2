import TraceGloss.Proofs.Source.Cuts
import TraceGloss.Source.Materials

/-
  Snippets of any materials.
  The range of a program counter may start and stop at any lines and columns, in order or not, and need
  not fit the lines of its file. There is a snippet exactly if the range starts in a line of the file that
  is not behind its last one (`selected?_isSome_iff`). Each line of the snippet is then cut at two columns,
  wherever they are (`Highlight.markLines_eq`), and the three parts of a cut line are the line
  (`Cut.line_between`), so marking loses no text (`resolve_conserves`).
-/
namespace TraceGloss

/-! ## Cutting at any columns -/

namespace Cut

/-- A line cut at two columns; nothing is inside if the second one is not behind the first. -/
def between (start stop : Nat) (line : String) : Cut where
  front := String.ofList (line.toList.take start)
  inside := String.ofList ((line.toList.drop start).take (stop - start))
  behind := String.ofList (line.toList.drop (max start stop))

theorem line_between (start stop : Nat) (line : String) : (between start stop line).line = line := by
  have hmax : max start stop = start + (stop - start) := by omega
  have hbehind : line.toList.drop (max start stop) =
      (line.toList.drop start).drop (stop - start) := by
    rw [List.drop_drop, hmax]
  rw [Cut.line, between, hbehind, ← String.ofList_append, ← String.ofList_append,
    List.append_assoc, List.take_append_drop, List.take_append_drop, String.ofList_toList]

/-- Each cut of a line stands between two of its characters, or at one of its ends. -/
theorem isValid_cuts (c : Cut) :
    String.Pos.Raw.IsValid c.line ⟨c.front.utf8ByteSize⟩ ∧
      String.Pos.Raw.IsValid c.line ⟨(c.front ++ c.inside).utf8ByteSize⟩ := by
  constructor
  · exact String.Pos.Raw.isValid_iff_exists_append.mpr
      ⟨c.front, c.inside ++ c.behind, String.append_assoc, rfl⟩
  · exact String.Pos.Raw.isValid_iff_exists_append.mpr ⟨c.front ++ c.inside, c.behind, rfl, rfl⟩

/-- Lines cut around a span that starts in the first of them and stops in the last; the lines between are
inside it whole. -/
def across (first stop : Nat) (lines : List String) : List Cut :=
  lines.mapIdx fun i line =>
    between (if i = 0 then first else 0) (if i + 1 = lines.length then stop else line.length) line

theorem across_cons {rest : List String} (h : rest ≠ []) (first stop : Nat) (line : String) :
    across first stop (line :: rest) = between first line.length line :: across 0 stop rest := by
  have hlast : ¬ 0 + 1 = (line :: rest).length := by
    have := List.length_pos_iff.mpr h
    rw [List.length_cons]
    omega
  rw [across, List.mapIdx_cons, if_pos rfl, if_neg hlast]
  simp only [across, List.length_cons, Nat.add_right_cancel_iff, Nat.add_one_ne_zero, if_false,
    ite_self]

theorem map_line_across (first stop : Nat) (lines : List String) :
    (across first stop lines).map line = lines := by
  apply List.ext_getElem?
  intro i
  rw [List.getElem?_map, across, List.getElem?_mapIdx, Option.map_map]
  cases lines[i]? with
  | none => rfl
  | some l => exact congrArg some (line_between _ _ l)

end Cut

namespace Highlight

theorem markLine_between (mark : String → String) (start stop : Nat) (line : String) :
    markLine mark start (some (stop - start)) line = (Cut.between start stop line).marked mark := by
  have hmax : start + (stop - start) = max start stop := by omega
  unfold markLine
  dsimp only
  rw [List.drop_drop, hmax]
  rfl

/-- Marking to the end of a line is marking up to its length. -/
theorem markLine_none_eq (mark : String → String) (start : Nat) (line : String) :
    markLine mark start none line = (Cut.between start line.length line).marked mark := by
  have hinside : (line.toList.drop start).take (line.length - start) = line.toList.drop start := by
    rw [← String.length_toList, ← List.length_drop, List.take_length]
  have hbehind : line.toList.drop (max start line.length) = [] := by
    rw [← String.length_toList]
    exact List.drop_eq_nil_of_le (Nat.le_max_right _ _)
  rw [Cut.marked, Cut.between, hinside, hbehind]
  rfl

theorem markRest_eq (mark : String → String) (stop : Nat) (rest : List String) :
    markRest mark stop rest = (Cut.across 0 stop rest).map (Cut.marked mark) := by
  induction rest with
  | nil => rfl
  | cons line rest ih =>
    by_cases h : rest = []
    · rw [h]
      exact congrArg (fun c => [c]) (markLine_between mark 0 stop line)
    · rw [markRest_cons h, Cut.across_cons h, List.map_cons, ih, markLine_none_eq]

/-- Whatever the columns, marking a span marks in each line the part inside it, and nothing else. -/
theorem markLines_eq (mark : String → String) (first stop : Nat) (lines : List String) :
    markLines mark first stop lines = (Cut.across first stop lines).map (Cut.marked mark) := by
  cases lines with
  | nil => rfl
  | cons line rest =>
    by_cases h : rest = []
    · rw [h]
      exact congrArg (fun c => [c]) (markLine_between mark first stop line)
    · rw [markLines_cons h, Cut.across_cons h, List.map_cons, markRest_eq, markLine_none_eq]

end Highlight

/-! ## The lines of a range -/

namespace Materials

theorem selected?_isSome_iff {lines : List String} {range : SourceRange} :
    (selected? lines range).isSome ↔
      1 ≤ range.start.line ∧ range.start.line ≤ min range.stop.line lines.length := by
  unfold selected?
  dsimp only
  split
  · rename_i h
    exact iff_of_true rfl h
  · rename_i h
    exact iff_of_false Bool.false_ne_true h

/-- What is selected are the lines from the first one of the range to its last one, or to the end of the
file if that comes before. -/
theorem of_selected? {lines shown : List String} {range : SourceRange}
    (h : selected? lines range = some shown) :
    ∃ above below, lines = above ++ shown ++ below ∧ above.length + 1 = range.start.line ∧
      above.length + shown.length = min range.stop.line lines.length := by
  have hinside := selected?_isSome_iff.mp (Option.isSome_of_eq_some h)
  unfold selected? at h
  dsimp only at h
  rw [if_pos hinside, Option.some.injEq] at h
  refine ⟨lines.take (range.start.line - 1), (lines.drop (range.start.line - 1)).drop
    (min range.stop.line lines.length + 1 - range.start.line), ?_, ?_, ?_⟩
  · rw [← h, List.append_assoc, List.take_append_drop, List.take_append_drop]
  · rw [List.length_take]
    omega
  · rw [← h, List.length_take, List.length_take, List.length_drop]
    omega

/-- The steps of `resolve`, each of which may find nothing. -/
theorem resolve_eq_some_iff {m : Materials} {pc : Nat} {mark : String → String}
    {context : SourceContext} :
    m.resolve pc mark = some context ↔
      ∃ range lines shown, m.range? pc = some range ∧ m.lines? range.file = some lines ∧
        selected? lines range = some shown ∧
        context = ⟨"\n".intercalate
          ((Cut.across range.start.column range.stop.column shown).map (Cut.marked mark)),
            range.label⟩ := by
  simp only [resolve, Option.bind_eq_bind, Option.bind_eq_some_iff, Option.pure_def,
    Option.some.injEq, Highlight.markLines_eq]
  constructor
  · rintro ⟨range, hrange, lines, hlines, shown, hshown, hcontext⟩
    exact ⟨range, lines, shown, hrange, hlines, hshown, hcontext.symm⟩
  · rintro ⟨range, lines, shown, hrange, hlines, hshown, hcontext⟩
    exact ⟨range, hrange, lines, hlines, shown, hshown, hcontext.symm⟩

/-- A program counter has a snippet exactly if it is mapped, the lines of its file are known, and its range
starts in one of them, not behind the line it stops in. The snippet has the lines from the first of the
range to its last, or to the end of the file, each cut at the columns of the range, between characters,
into three parts that are the line together, and with the middle one highlighted: shown plain it is these
lines, and with delimiters each of them holds one pair more. -/
theorem resolve_conserves (m : Materials) (pc : Nat) (colour : Bool) (highlight : Highlight) :
    let mark := highlight.apply colour
    ((m.resolve pc mark).isSome ↔ ∃ range lines, m.range? pc = some range ∧
      m.lines? range.file = some lines ∧ 1 ≤ range.start.line ∧
      range.start.line ≤ min range.stop.line lines.length) ∧
    ∀ context, m.resolve pc mark = some context →
      ∃ range lines above shown below, m.range? pc = some range ∧
        m.lines? range.file = some lines ∧ lines = above ++ shown ++ below ∧
        above.length + 1 = range.start.line ∧
        above.length + shown.length = min range.stop.line lines.length ∧
        let cuts := Cut.across range.start.column range.stop.column shown
        cuts.map Cut.line = shown ∧
          (∀ c ∈ cuts, String.Pos.Raw.IsValid c.line ⟨c.front.utf8ByteSize⟩ ∧
            String.Pos.Raw.IsValid c.line ⟨(c.front ++ c.inside).utf8ByteSize⟩) ∧
          context.snippet = "\n".intercalate
            (cuts.map fun c => c.front ++ mark c.inside ++ c.behind) ∧
          (highlight = .plain → context.snippet = "\n".intercalate shown) ∧
          ∀ opening closing, highlight = .delimited opening closing →
            context.snippet = "\n".intercalate
              (cuts.map fun c => c.front ++ (opening ++ c.inside ++ closing) ++ c.behind) := by
  intro mark
  constructor
  · rw [Option.isSome_iff_exists]
    constructor
    · rintro ⟨context, h⟩
      obtain ⟨range, lines, shown, hrange, hlines, hshown, -⟩ := resolve_eq_some_iff.mp h
      exact ⟨range, lines, hrange, hlines, selected?_isSome_iff.mp (Option.isSome_of_eq_some hshown)⟩
    · rintro ⟨range, lines, hrange, hlines, hinside⟩
      obtain ⟨shown, hshown⟩ := Option.isSome_iff_exists.mp (selected?_isSome_iff.mpr hinside)
      exact ⟨_, resolve_eq_some_iff.mpr ⟨range, lines, shown, hrange, hlines, hshown, rfl⟩⟩
  · intro context h
    obtain ⟨range, lines, shown, hrange, hlines, hshown, rfl⟩ := resolve_eq_some_iff.mp h
    obtain ⟨above, below, hsplit, hfirst, hlast⟩ := of_selected? hshown
    have hcuts := Cut.map_line_across range.start.column range.stop.column shown
    refine ⟨range, lines, above, shown, below, hrange, hlines, hsplit, hfirst, hlast, hcuts,
      fun c _ => c.isValid_cuts, rfl, ?_, ?_⟩
    · rintro rfl
      exact congrArg "\n".intercalate hcuts
    · rintro opening closing rfl
      rfl

end Materials

end TraceGloss
