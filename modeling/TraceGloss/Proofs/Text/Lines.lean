import Mathlib.Data.String.Basic
import TraceGloss.Source.Position

/-
  Lines of a text.
  The lines of a text are its pieces between line feeds (`lines_eq_splitOn`), so they hold no line feed
  and give the text back. Where two texts meet, the last line of the first goes on in the first line of
  the second (`lines_append`).
-/
namespace TraceGloss.Text

theorem lines_newline (text : List Char) : lines ('\n' :: text) = [] :: lines text := rfl

theorem lines_cons {c : Char} (hc : c ≠ '\n') {text line : List Char} {others : List (List Char)}
    (h : lines text = line :: others) : lines (c :: text) = (c :: line) :: others := by
  show prependToLines c (lines text) = (c :: line) :: others
  rw [h]
  exact if_neg hc

theorem lines_eq_splitOn (text : List Char) : lines text = text.splitOn '\n' := by
  induction text with
  | nil => rfl
  | cons c text ih =>
    rw [List.splitOn_cons_eq_if_modifyHead, ← ih]
    obtain ⟨line, others, hlines⟩ := List.exists_cons_of_ne_nil (ih ▸ List.splitOn_ne_nil '\n' text)
    by_cases hc : c = '\n'
    · rw [hc, lines_newline, if_pos (beq_self_eq_true _)]
    · rw [lines_cons hc hlines, if_neg (by simpa using hc), hlines, List.modifyHead_cons]

theorem lines_ne_nil (text : List Char) : lines text ≠ [] := by
  rw [lines_eq_splitOn]
  exact List.splitOn_ne_nil _ _

theorem exists_lines_eq_concat (text : List Char) : ∃ init last, lines text = init ++ [last] :=
  ⟨_, _, (List.dropLast_concat_getLast (lines_ne_nil text)).symm⟩

theorem intercalate_lines (text : List Char) : ['\n'].intercalate (lines text) = text := by
  rw [lines_eq_splitOn, List.intercalate_splitOn]

theorem not_mem_of_mem_lines {text line : List Char} (h : line ∈ lines text) : '\n' ∉ line := by
  induction text generalizing line with
  | nil =>
    rw [List.mem_singleton.mp h]
    exact List.not_mem_nil
  | cons c text ih =>
    obtain ⟨first, others, hlines⟩ := List.exists_cons_of_ne_nil (lines_ne_nil text)
    by_cases hc : c = '\n'
    · rw [hc, lines_newline] at h
      rcases List.mem_cons.mp h with rfl | h
      · exact List.not_mem_nil
      · exact ih h
    · rw [lines_cons hc hlines] at h
      rw [hlines] at ih
      rcases List.mem_cons.mp h with rfl | h
      · rw [List.mem_cons, not_or]
        exact ⟨Ne.symm hc, ih (List.mem_cons_self ..)⟩
      · exact ih (List.mem_cons_of_mem _ h)

theorem lines_intercalate {found : List (List Char)} (h : ∀ line ∈ found, '\n' ∉ line)
    (hsome : found ≠ []) : lines (['\n'].intercalate found) = found := by
  rw [lines_eq_splitOn, List.splitOn_intercalate '\n' h hsome]

theorem intercalate_append_cons (init : List (List Char)) (last first : List Char)
    (rest : List (List Char)) :
    ['\n'].intercalate (init ++ [last]) ++ ['\n'].intercalate (first :: rest) =
      ['\n'].intercalate (init ++ (last ++ first) :: rest) := by
  induction init with
  | nil =>
    cases rest with
    | nil => simp
    | cons line rest => simp [List.append_assoc]
  | cons line init ih =>
    rw [List.cons_append, List.cons_append,
      List.intercalate_cons_of_ne_nil (List.append_ne_nil_of_right_ne_nil init (List.cons_ne_nil _ _)),
      List.intercalate_cons_of_ne_nil (List.append_ne_nil_of_right_ne_nil init (List.cons_ne_nil _ _)),
      ← ih]
    simp [List.append_assoc]

/-- Where two texts meet, the last line of the first goes on in the first line of the second. -/
theorem lines_append {xs ys : List Char} {init rest : List (List Char)} {last first : List Char}
    (hxs : lines xs = init ++ [last]) (hys : lines ys = first :: rest) :
    lines (xs ++ ys) = init ++ (last ++ first) :: rest := by
  have htext : xs ++ ys = ['\n'].intercalate (init ++ (last ++ first) :: rest) := by
    rw [← intercalate_append_cons, ← hxs, ← hys, intercalate_lines, intercalate_lines]
  rw [htext]
  refine lines_intercalate ?_ (List.append_ne_nil_of_right_ne_nil init (List.cons_ne_nil _ _))
  have hleft : ∀ line ∈ init ++ [last], '\n' ∉ line := by
    rw [← hxs]
    exact fun line => not_mem_of_mem_lines
  have hright : ∀ line ∈ first :: rest, '\n' ∉ line := by
    rw [← hys]
    exact fun line => not_mem_of_mem_lines
  intro line hline
  rcases List.mem_append.mp hline with hline | hline
  · exact hleft line (List.mem_append_left _ hline)
  · rcases List.mem_cons.mp hline with rfl | hline
    · rw [List.mem_append, not_or]
      exact ⟨hleft last (by simp), hright first (List.mem_cons_self ..)⟩
    · exact hright line (List.mem_cons_of_mem _ hline)

/-- The lines of a string, as `Materials` hold them. -/
def splitLines (content : String) : List String := (lines content.toList).map String.ofList

theorem lines_toList (content : String) :
    lines content.toList = (splitLines content).map String.toList := by
  have hround : String.toList ∘ String.ofList = id := funext fun _ => String.toList_ofList
  rw [splitLines, List.map_map, hround, List.map_id]

theorem splitLines_of_lines {content : String} {found : List String}
    (h : lines content.toList = found.map String.toList) : splitLines content = found := by
  have hround : String.ofList ∘ String.toList = id := funext fun _ => String.ofList_toList
  rw [splitLines, h, List.map_map, hround, List.map_id]

theorem intercalate_splitLines (content : String) :
    "\n".intercalate (splitLines content) = content := by
  rw [← String.toList_inj, String.toList_intercalate, ← lines_toList]
  exact intercalate_lines content.toList

theorem exists_splitLines_eq_concat (content : String) :
    ∃ init last, splitLines content = init ++ [last] := by
  obtain ⟨init, last, h⟩ := exists_lines_eq_concat content.toList
  exact ⟨init.map String.ofList, String.ofList last, by rw [splitLines, h, List.map_append]; rfl⟩

theorem exists_splitLines_eq_cons (content : String) :
    ∃ first rest, splitLines content = first :: rest :=
  List.exists_cons_of_ne_nil fun h => lines_ne_nil content.toList (List.map_eq_nil_iff.mp h)

theorem not_mem_of_mem_splitLines {content line : String} (h : line ∈ splitLines content) :
    '\n' ∉ line.toList := by
  have hline : line.toList ∈ lines content.toList := by
    rw [lines_toList]
    exact List.mem_map_of_mem h
  exact not_mem_of_mem_lines hline

theorem splitLines_of_not_mem {line : String} (h : '\n' ∉ line.toList) : splitLines line = [line] := by
  apply splitLines_of_lines
  have := lines_intercalate (List.forall_mem_singleton.mpr h) (List.cons_ne_nil _ _)
  rwa [List.intercalate_singleton] at this

theorem splitLines_append {a b : String} {init rest : List String} {last first : String}
    (ha : splitLines a = init ++ [last]) (hb : splitLines b = first :: rest) :
    splitLines (a ++ b) = init ++ (last ++ first) :: rest := by
  apply splitLines_of_lines
  have ha' := lines_toList a
  have hb' := lines_toList b
  rw [ha, List.map_append] at ha'
  rw [hb, List.map_cons] at hb'
  rw [String.toList_append, lines_append ha' hb', List.map_append, List.map_cons,
    String.toList_append]

theorem splitLines_append_newline (content : String) :
    splitLines (content ++ "\n") = splitLines content ++ [""] := by
  obtain ⟨init, last, h⟩ := exists_splitLines_eq_concat content
  have hnewline : splitLines "\n" = "" :: [""] := rfl
  rw [splitLines_append h hnewline, h, String.append_empty, List.append_assoc]
  rfl

theorem splitLines_newline_append (content : String) :
    splitLines ("\n" ++ content) = "" :: splitLines content := by
  obtain ⟨first, rest, h⟩ := exists_splitLines_eq_cons content
  have hnewline : splitLines "\n" = [""] ++ [""] := rfl
  rw [splitLines_append hnewline h, h, String.empty_append]
  rfl

end TraceGloss.Text
