import TraceGloss.Proofs.Source.Cuts
import TraceGloss.Proofs.Source.Positions
import TraceGloss.Proofs.Source.Table

/-
  The source behind a program counter.
  An excerpt of a file is a span with the rest of the first and of the last line it touches. Any span
  of a file is that of an excerpt (`exists_excerpt`). From the positions of its ends `resolve` finds
  its lines and marks in each the part inside the span (`resolve_eq`). The ends that an entry of a
  source map gives are its byte offsets, rounded up (`resolve_compile`).
-/
namespace TraceGloss

/-- A span of a file between the rest of the first line it touches, `head`, and of the last, `tail`;
around these stand the whole lines `above` and `below`. -/
structure Excerpt (content : String) where
  above : String
  head : String
  span : String
  tail : String
  below : String
  content_eq : content = above ++ head ++ span ++ (tail ++ below)
  above_ends : above = "" ∨ ∃ text, above = text ++ "\n"
  head_one : '\n' ∉ head.toList
  tail_one : '\n' ∉ tail.toList
  below_starts : below = "" ∨ ∃ text, below = "\n" ++ text

open Text

theorem exists_eq_append_last_line (text : String) :
    ∃ above head, text = above ++ head ∧ (above = "" ∨ ∃ text, above = text ++ "\n") ∧
      '\n' ∉ head.toList := by
  obtain ⟨init, last, h⟩ := exists_splitLines_eq_concat text
  have hlast : '\n' ∉ last.toList := by
    apply not_mem_of_mem_splitLines
    rw [h]
    exact List.mem_append_right init (List.mem_singleton_self last)
  have htext := intercalate_splitLines text
  rw [h] at htext
  by_cases hinit : init = []
  · rw [hinit, List.nil_append, String.intercalate_singleton] at htext
    exact ⟨"", last, by rw [htext, String.empty_append], .inl rfl, hlast⟩
  · rw [String.intercalate_append_of_ne_nil hinit (List.cons_ne_nil _ _),
      String.intercalate_singleton] at htext
    exact ⟨"\n".intercalate init ++ "\n", last, htext.symm, .inr ⟨_, rfl⟩, hlast⟩

theorem exists_eq_first_line_append (text : String) :
    ∃ tail below, text = tail ++ below ∧ '\n' ∉ tail.toList ∧
      (below = "" ∨ ∃ text, below = "\n" ++ text) := by
  obtain ⟨first, rest, h⟩ := exists_splitLines_eq_cons text
  have hfirst : '\n' ∉ first.toList := by
    apply not_mem_of_mem_splitLines
    rw [h]
    exact List.mem_cons_self
  have htext := intercalate_splitLines text
  rw [h] at htext
  by_cases hrest : rest = []
  · rw [hrest, String.intercalate_singleton] at htext
    exact ⟨first, "", by rw [htext, String.append_empty], hfirst, .inl rfl⟩
  · rw [String.intercalate_cons_of_ne_nil hrest, String.append_assoc] at htext
    exact ⟨first, "\n" ++ "\n".intercalate rest, htext.symm, hfirst, .inr ⟨_, rfl⟩⟩

/-- Any span of a file is that of an excerpt. -/
theorem exists_excerpt {content front span back : String} (h : content = front ++ span ++ back) :
    ∃ x : Excerpt content, x.above ++ x.head = front ∧ x.span = span := by
  obtain ⟨above, head, rfl, habove, hhead⟩ := exists_eq_append_last_line front
  obtain ⟨tail, below, rfl, htail, hbelow⟩ := exists_eq_first_line_append back
  exact ⟨⟨above, head, span, tail, below, h, habove, hhead, htail, hbelow⟩, rfl, rfl⟩

/-- The lines of a file in which a span follows on `front` and is followed by `back`. -/
theorem splitLines_around {front span back : String} {init parts rest : List String}
    {head last tail : String} (hfront : splitLines front = init ++ [head])
    (hspan : splitLines span = parts ++ [last]) (hback : splitLines back = tail :: rest) :
    splitLines (front ++ (span ++ back)) =
      init ++ (Cut.around head tail (parts ++ [last])).map Cut.line ++ rest := by
  have hinside := splitLines_append hspan hback
  cases parts with
  | nil =>
    rw [splitLines_append hfront hinside, List.append_assoc, ← String.append_assoc]
    rfl
  | cons part parts =>
    rw [splitLines_append hfront hinside, List.cons_append,
      Cut.around_cons (List.concat_ne_nil last parts), List.map_cons, Cut.map_line_around, Cut.line,
      String.append_empty]
    show init ++ (head ++ part) :: (parts ++ (last ++ tail) :: rest) = _
    simp only [List.append_assoc, List.cons_append, List.nil_append]

/-- The position behind a span that follows on `front`. -/
theorem behind_append {front span : String} {init parts : List String} {head last : String}
    (hfront : splitLines front = init ++ [head]) (hspan : splitLines span = parts ++ [last]) :
    Position.behind (front ++ span) =
      ⟨init.length + parts.length + 1, Highlight.stopColumn head parts last⟩ := by
  cases parts with
  | nil =>
    rw [behind_eq (splitLines_append hfront hspan), String.length_append]
    rfl
  | cons part parts =>
    have hlines : splitLines (front ++ span) = (init ++ (head ++ part) :: parts) ++ [last] := by
      rw [splitLines_append hfront hspan, List.append_assoc]
      rfl
    rw [behind_eq hlines, List.length_append]
    rfl

namespace Excerpt

variable {content : String} (x : Excerpt content)

/-- The lines the span touches, each cut around the span. -/
def cuts : List Cut := Cut.around x.head x.tail (splitLines x.span)

/-- What stands in front of the span. -/
def front : String := x.above ++ x.head

theorem exists_splitLines_front : ∃ init, splitLines x.front = init ++ [x.head] := by
  have hhead := splitLines_of_not_mem x.head_one
  rcases x.above_ends with h | ⟨text, h⟩
  · exact ⟨[], by rw [front, h, String.empty_append, hhead]; rfl⟩
  · refine ⟨splitLines text, ?_⟩
    rw [front, h, splitLines_append (splitLines_append_newline text) hhead, String.empty_append]

theorem exists_splitLines_back : ∃ rest, splitLines (x.tail ++ x.below) = x.tail :: rest := by
  have htail := splitLines_of_not_mem x.tail_one
  rcases x.below_starts with h | ⟨text, h⟩
  · exact ⟨[], by rw [h, String.append_empty, htail]⟩
  · refine ⟨splitLines text, ?_⟩
    have htail' : splitLines x.tail = [] ++ [x.tail] := htail
    rw [h, splitLines_append htail' (splitLines_newline_append text), String.append_empty]
    rfl

/-- The lines of the file, those that the span touches among them, and the positions of the ends of
the span. -/
theorem lines_and_ends :
    ∃ (init rest parts : List String) (last : String),
      splitLines x.span = parts ++ [last] ∧
      splitLines content = init ++ x.cuts.map Cut.line ++ rest ∧
      Position.behind x.front = ⟨init.length + 1, x.head.length⟩ ∧
      Position.behind (x.front ++ x.span) =
        ⟨init.length + parts.length + 1, Highlight.stopColumn x.head parts last⟩ := by
  obtain ⟨init, hfront⟩ := x.exists_splitLines_front
  obtain ⟨rest, hback⟩ := x.exists_splitLines_back
  obtain ⟨parts, last, hspan⟩ := exists_splitLines_eq_concat x.span
  refine ⟨init, rest, parts, last, hspan, ?_, behind_eq hfront, behind_append hfront hspan⟩
  have hcontent : x.front ++ (x.span ++ (x.tail ++ x.below)) = content := by
    rw [front, ← String.append_assoc]
    exact x.content_eq.symm
  have hlines := splitLines_around hfront hspan hback
  rwa [hcontent, ← hspan] at hlines

/-- The lines that the span touches, whole. -/
def text : String := x.head ++ x.span ++ x.tail

theorem splitLines_text : splitLines x.text = x.cuts.map Cut.line := by
  obtain ⟨parts, last, hspan⟩ := exists_splitLines_eq_concat x.span
  have hhead : splitLines x.head = [] ++ [x.head] := splitLines_of_not_mem x.head_one
  have hlines := splitLines_around hhead hspan (splitLines_of_not_mem x.tail_one)
  rwa [← String.append_assoc, ← hspan, List.nil_append, List.append_nil] at hlines

/-- The parts inside the span are the span. -/
theorem intercalate_inside : "\n".intercalate (x.cuts.map Cut.inside) = x.span := by
  rw [cuts, Cut.map_inside_around, intercalate_splitLines]

end Excerpt

/-- An entry spans an excerpt if its byte offsets, rounded up, are the ends of the span. -/
structure SourceEntry.Spans (entry : SourceEntry) {content : String} (x : Excerpt content) : Prop where
  start : RoundsUp content entry.offset x.front.utf8ByteSize
  stop : RoundsUp content (entry.offset + entry.length) (x.front ++ x.span).utf8ByteSize

/-- In every file an entry spans an excerpt, between the positions of its byte offsets. -/
theorem SourceEntry.exists_spans (entry : SourceEntry) (content : String) :
    ∃ x : Excerpt content, entry.Spans x ∧
      locate content.toList entry.offset = Position.behind x.front ∧
      locate content.toList (entry.offset + entry.length) = Position.behind (x.front ++ x.span) := by
  obtain ⟨span, hspan⟩ := exists_front_eq_append (Nat.le_add_right entry.offset entry.length) content
  obtain ⟨back, hback⟩ := exists_eq_front_append (entry.offset + entry.length) content
  rw [hspan] at hback
  obtain ⟨x, hfront, rfl⟩ := exists_excerpt hback
  refine ⟨x, ⟨?_, ?_⟩, ?_, ?_⟩
  · rw [Excerpt.front, hfront]
    exact roundsUp_front _ _
  · rw [Excerpt.front, hfront, ← hspan]
    exact roundsUp_front _ _
  · rw [locate_eq, Excerpt.front, hfront]
  · rw [locate_eq, Excerpt.front, hfront, hspan]

namespace Materials

theorem selected?_eq {init middle rest : List String} {range : SourceRange} (hmiddle : middle ≠ [])
    (hstart : range.start.line = init.length + 1)
    (hstop : range.stop.line = init.length + middle.length) :
    selected? (init ++ middle ++ rest) range = some middle := by
  have hpos := List.length_pos_of_ne_nil hmiddle
  have hlength : (init ++ middle ++ rest).length = init.length + middle.length + rest.length := by
    rw [List.length_append, List.length_append]
  unfold selected?
  dsimp only
  rw [hstart, hstop, hlength, Nat.min_eq_left (Nat.le_add_right _ _), if_pos (by omega),
    Nat.add_sub_cancel, List.append_assoc, List.drop_left,
    show init.length + middle.length + 1 - (init.length + 1) = middle.length by omega,
    List.take_left]

/-- From the positions of the ends of a span, the lines it touches, with the parts of them inside the
span marked. -/
theorem resolve_eq {m : Materials} {pc : Nat} {range : SourceRange} {content : String}
    (hrange : m.range? pc = some range) (hlines : m.lines? range.file = some (splitLines content))
    (x : Excerpt content) (hstart : range.start = Position.behind x.front)
    (hstop : range.stop = Position.behind (x.front ++ x.span)) (mark : String → String) :
    m.resolve pc mark =
      some ⟨"\n".intercalate (x.cuts.map (Cut.marked mark)), range.label⟩ := by
  obtain ⟨init, rest, parts, last, hspan, hcontent, hfirst, hlast⟩ := x.lines_and_ends
  have hcuts : x.cuts = Cut.around x.head x.tail (parts ++ [last]) := by rw [Excerpt.cuts, hspan]
  have hlength : (x.cuts.map Cut.line).length = parts.length + 1 := by
    rw [hcuts, List.length_map, ← List.length_map Cut.inside, Cut.map_inside_around,
      List.length_append]
    rfl
  have hselected : selected? (splitLines content) range = some (x.cuts.map Cut.line) := by
    rw [hcontent]
    refine selected?_eq (List.ne_nil_of_length_pos (by omega)) ?_ ?_
    · rw [hstart, hfirst]
    · rw [hstop, hlast, hlength]
      rfl
  have hmarked := Highlight.markLines_around mark x.head x.tail parts last
  rw [← hcuts] at hmarked
  rw [resolve, hrange]
  show (m.lines? range.file).bind _ = _
  rw [hlines]
  show (selected? (splitLines content) range).bind _ = _
  rw [hselected]
  show some (SourceContext.mk _ _) = _
  rw [hstart, hstop, hfirst, hlast, hmarked]

/-- Behind every program counter that a source map maps stands the excerpt that the entry of its
instruction spans: shown plain it is the lines of the file that the span touches, and with delimiters
each of these lines holds one pair of them, around its part of the span. -/
theorem resolve_compile {sourceMap : String} {entries : List SourceEntry} {files : List SourceFile}
    (hparse : SourceMap.parse sourceMap = .ok entries) (hpaths : (files.map (·.path)).Nodup)
    (code : List UInt8) :
    ∃ m, compile code sourceMap files = .ok m ∧
      ∀ pc range, m.range? pc = some range →
        ∃ (i : Nat) (entry : SourceEntry) (k : Nat) (file : SourceFile),
          entries[i]? = some entry ∧ instructionStart code i = pc ∧
          entry.file = k ∧ files[k]? = some file ∧
          ∃ x : Excerpt file.content, entry.Spans x ∧
            (∀ colour opening closing,
              (m.resolve pc (Highlight.apply colour (.delimited opening closing))).map (·.snippet) =
                some ("\n".intercalate (x.cuts.map fun c =>
                  c.front ++ (opening ++ c.inside ++ closing) ++ c.behind))) ∧
            (∀ colour,
              (m.resolve pc (Highlight.apply colour .plain)).map (·.snippet) = some x.text) ∧
            splitLines x.text = x.cuts.map Cut.line ∧
            "\n".intercalate (x.cuts.map Cut.inside) = x.span := by
  obtain ⟨m, hm⟩ := compile_of_parse hparse code files
  refine ⟨m, hm, fun pc range hrange => ?_⟩
  obtain ⟨i, entry, hentry, hpc, -, hsome⟩ := (range?_compile hparse hm).mp hrange
  obtain ⟨k, file, hk, hfile, -, rfl⟩ := rangeOf?_eq_some_iff.mp hsome
  obtain ⟨x, hspans, hstart, hstop⟩ := entry.exists_spans file.content
  have hlines := lines?_compile hm hpaths (List.mem_of_getElem? hfile)
  have hresolve := resolve_eq hrange hlines x hstart hstop
  refine ⟨i, entry, k, file, hentry, hpc, hk, hfile, x, hspans, ?_, ?_, x.splitLines_text,
    x.intercalate_inside⟩
  · intro colour opening closing
    rw [hresolve]
    rfl
  · intro colour
    rw [hresolve, ← intercalate_splitLines x.text, x.splitLines_text]
    rfl

/-- A file whose first character takes two bytes. -/
def accented : List SourceFile := [⟨"a.sol", "é\nab"⟩]

/-- One instruction, with a span that starts in the middle of a character and goes on in the next
line. -/
theorem resolve_compile_accented :
    SourceMap.parse "1:3:0" = .ok [⟨1, 3, 0, .regular, 0⟩] ∧ (accented.map (·.path)).Nodup ∧
      ∃ m, compile [0x01] "1:3:0" accented = .ok m ∧
        m.range? 0 = some ⟨"a.sol", ⟨1, 1⟩, ⟨2, 1⟩⟩ ∧
        ∃ file ∈ accented, ∃ x : Excerpt file.content, ∀ colour opening closing,
          (m.resolve 0 (Highlight.apply colour (.delimited opening closing))).map (·.snippet) =
            some ("\n".intercalate (x.cuts.map fun c =>
              c.front ++ (opening ++ c.inside ++ closing) ++ c.behind)) := by
  have hparse : SourceMap.parse "1:3:0" = .ok [⟨1, 3, 0, .regular, 0⟩] := by decide +kernel
  have hpaths : (accented.map (·.path)).Nodup := by decide
  obtain ⟨m, hm, hresolve⟩ := resolve_compile hparse hpaths [0x01]
  have hrange : m.range? 0 = some ⟨"a.sol", ⟨1, 1⟩, ⟨2, 1⟩⟩ :=
    (range?_compile hparse hm).mpr ⟨0, ⟨1, 3, 0, .regular, 0⟩, rfl, rfl, by decide, by decide +kernel⟩
  obtain ⟨_, _, _, file, -, -, -, hfile, x, -, hdelimited, -⟩ := hresolve 0 _ hrange
  exact ⟨hparse, hpaths, m, hm, hrange, file, List.mem_of_getElem? hfile, x, hdelimited⟩

end Materials

end TraceGloss
