import Mathlib.Data.Prod.Lex
import Mathlib.Order.Bounds.Basic
import TraceGloss.Proofs.Decoder.Memory
import TraceGloss.Proofs.Text.Lenient

/-
  Positions found by an index of lines.
  A `LineIndex` holds where the lines of a text start, and an offset is located by the starts up to it
  and the bytes from the last of them on, read leniently. All bounds are checked there, and none is
  ever outside (`locate?_ofText`): the index finds the position behind the characters that begin
  before the offset. Its line counts the line feeds among them and its column the characters of the
  last line (`LastLine.foldl_advance`). Each character moves the position on (`lt_advance`), so
  positions keep the order of offsets and tell offsets between characters apart (`locates_offsets`).
-/
namespace TraceGloss

/-- The order of positions: by line, then by column. -/
def Position.rank (p : Position) : ℕ ×ₗ ℕ := toLex (p.line, p.column)

namespace Text

/-! ## Indexing lines -/

/-- The characters of a text that starts at a byte offset, each with the offset where it begins. -/
def marksFrom (start : Nat) : List Char → List (Nat × Char)
  | [] => []
  | c :: rest => (start, c) :: marksFrom (start + c.utf8Size) rest

def marks (content : String) : List (Nat × Char) := marksFrom 0 content.toList

/-- Where lines start behind the line feeds among characters. -/
def startsBehind (marked : List (Nat × Char)) : List Nat :=
  (marked.filter (·.2 = '\n')).map (·.1 + 1)

/-- The byte offset at which a line of a text starts: the first one, or one behind a line feed. -/
def StartsLine (content : String) (start : Nat) : Prop :=
  start = 0 ∨ ∃ m ∈ marks content, m.2 = '\n' ∧ start = m.1 + 1

/-- The byte offsets at which the lines of a text start. -/
structure LineIndex where
  starts : List Nat

namespace LineIndex

def ofText (content : String) : LineIndex := ⟨0 :: startsBehind (marks content)⟩

/-- The position of a byte offset: the line is the number of starts up to it, and the column the number
of characters from the last of them on. None if a bound is outside on the way. -/
def locate? (index : LineIndex) (content : String) (offset : Nat) : Option Position :=
  let stop := min offset content.utf8ByteSize
  match (index.starts.takeWhile (· ≤ stop)).length with
  | 0 => none
  | line + 1 => do
    let start ← index.starts[line]?
    let part ← slice? (bytes content) start stop
    return ⟨line + 1, lenientLength part⟩

end LineIndex

/-! ## Characters and their offsets -/

theorem marksFrom_append (start : Nat) (text more : List Char) :
    marksFrom start (text ++ more) =
      marksFrom start text ++ marksFrom (start + String.utf8Len text) more := by
  induction text generalizing start with
  | nil => rfl
  | cons c text ih =>
    rw [List.cons_append, marksFrom, marksFrom, ih, String.utf8Len_cons, List.cons_append]
    congr 3
    omega

/-- A character begins inside the text. -/
theorem bounds_of_mem_marksFrom {start : Nat} {text : List Char} {m : Nat × Char}
    (h : m ∈ marksFrom start text) : start ≤ m.1 ∧ m.1 < start + String.utf8Len text := by
  induction text generalizing start with
  | nil => cases h
  | cons c text ih =>
    have hsize := c.utf8Size_pos
    rw [String.utf8Len_cons]
    rcases List.mem_cons.mp h with rfl | h
    · dsimp only
      omega
    · have := ih h
      omega

theorem length_marksFrom (start : Nat) (text : List Char) :
    (marksFrom start text).length = text.length := by
  induction text generalizing start with
  | nil => rfl
  | cons c text ih => rw [marksFrom, List.length_cons, ih, List.length_cons]

theorem mem_of_mem_marksFrom {start : Nat} {text : List Char} {m : Nat × Char}
    (h : m ∈ marksFrom start text) : m.2 ∈ text := by
  induction text generalizing start with
  | nil => cases h
  | cons c text ih =>
    rcases List.mem_cons.mp h with rfl | h
    · exact List.mem_cons_self ..
    · exact List.mem_cons_of_mem c (ih h)

theorem pairwise_marksFrom (start : Nat) (text : List Char) :
    (marksFrom start text).Pairwise fun a b => a.1 < b.1 := by
  induction text generalizing start with
  | nil => exact .nil
  | cons c text ih =>
    refine List.pairwise_cons.mpr ⟨fun m hm => ?_, ih _⟩
    have hbegin := (bounds_of_mem_marksFrom hm).1
    have hsize := c.utf8Size_pos
    dsimp only
    omega

theorem startsBehind_append (marked more : List (Nat × Char)) :
    startsBehind (marked ++ more) = startsBehind marked ++ startsBehind more := by
  rw [startsBehind, List.filter_append, List.map_append, startsBehind, startsBehind]

theorem mem_startsBehind_iff {marked : List (Nat × Char)} {start : Nat} :
    start ∈ startsBehind marked ↔ ∃ m ∈ marked, m.2 = '\n' ∧ start = m.1 + 1 := by
  simp only [startsBehind, List.mem_map, List.mem_filter, decide_eq_true_eq]
  constructor
  · rintro ⟨m, ⟨hm, hc⟩, rfl⟩
    exact ⟨m, hm, hc, rfl⟩
  · rintro ⟨m, hm, hc, rfl⟩
    exact ⟨m, ⟨hm, hc⟩, rfl⟩

theorem pairwise_starts (content : String) :
    (LineIndex.ofText content).starts.Pairwise (· < ·) := by
  refine List.pairwise_cons.mpr ⟨fun start hstart => ?_, ?_⟩
  · obtain ⟨m, -, -, rfl⟩ := mem_startsBehind_iff.mp hstart
    exact Nat.succ_pos _
  · refine List.pairwise_map.mpr (((pairwise_marksFrom 0 content.toList).filter _).imp ?_)
    exact Nat.add_lt_add_right (k := 1)

theorem length_startsBehind (start : Nat) (text : List Char) :
    (startsBehind (marksFrom start text)).length = text.count '\n' := by
  rw [startsBehind, List.length_map]
  induction text generalizing start with
  | nil => rfl
  | cons c text ih =>
    rw [marksFrom, List.filter_cons, List.count_cons]
    by_cases hc : c = '\n' <;> simp [hc, ih]

/-! ## The last line -/

/-- A text with its last line and what stands in front of it. -/
structure LastLine (text front last : List Char) : Prop where
  split : text = front ++ last
  notMem : '\n' ∉ last
  ends : front = [] ∨ ∃ lines, front = lines ++ ['\n']

theorem exists_lastLine (text : List Char) : ∃ front last, LastLine text front last := by
  induction text using List.reverseRecOn with
  | nil => exact ⟨[], [], rfl, List.not_mem_nil, .inl rfl⟩
  | append_singleton text c ih =>
    obtain ⟨front, last, h⟩ := ih
    by_cases hc : c = '\n'
    · refine ⟨text ++ [c], [], (List.append_nil _).symm, List.not_mem_nil, .inr ⟨text, ?_⟩⟩
      rw [hc]
    · refine ⟨front, last ++ [c], ?_, ?_, h.ends⟩
      · rw [h.split, List.append_assoc]
      · rw [List.mem_append, List.mem_singleton]
        rintro (hmem | hmem)
        · exact h.notMem hmem
        · exact hc hmem.symm

theorem foldl_advance_of_notMem {text : List Char} (h : '\n' ∉ text) (p : Position) :
    text.foldl Position.advance p = ⟨p.line, p.column + text.length⟩ := by
  induction text generalizing p with
  | nil => rfl
  | cons c text ih =>
    have hc : ¬ c = '\n' := fun hc => h (hc ▸ List.mem_cons_self ..)
    rw [List.foldl_cons, ih (fun hmem => h (List.mem_cons_of_mem c hmem)), Position.advance,
      if_neg hc, List.length_cons]
    congr 1
    dsimp only
    omega

theorem line_foldl_advance (text : List Char) (p : Position) :
    (text.foldl Position.advance p).line = p.line + text.count '\n' := by
  induction text generalizing p with
  | nil => rfl
  | cons c text ih =>
    rw [List.foldl_cons, ih, Position.advance, List.count_cons]
    by_cases hc : c = '\n'
    · simp [hc]
      omega
    · simp [hc]

variable {text front last : List Char}

/-- The position behind a text: its line feeds, and the characters of its last line. -/
theorem LastLine.foldl_advance (h : LastLine text front last) :
    text.foldl Position.advance .start = ⟨1 + text.count '\n', last.length⟩ := by
  have hcount : text.count '\n' = front.count '\n' := by
    rw [h.split, List.count_append, List.count_eq_zero.mpr h.notMem, Nat.add_zero]
  have hcolumn : (front.foldl Position.advance .start).column = 0 := by
    rcases h.ends with rfl | ⟨lines, rfl⟩
    · rfl
    · rw [List.foldl_concat, Position.advance, if_pos rfl]
  rw [h.split, List.foldl_append, foldl_advance_of_notMem h.notMem, ← h.split, hcount, hcolumn,
    line_foldl_advance, Nat.zero_add]
  rfl

/-- The last line starts behind what stands in front of it. -/
theorem LastLine.getLast?_starts (h : LastLine text front last) :
    (0 :: startsBehind (marksFrom 0 text)).getLast? = some (String.utf8Len front) := by
  have hlast (start : Nat) : startsBehind (marksFrom start last) = [] := by
    rw [← List.length_eq_zero_iff, length_startsBehind, List.count_eq_zero]
    exact h.notMem
  rw [h.split, marksFrom_append, startsBehind_append, hlast, List.append_nil]
  rcases h.ends with rfl | ⟨lines, rfl⟩
  · rfl
  · have hend : startsBehind (marksFrom (0 + String.utf8Len lines) ['\n']) =
        [0 + String.utf8Len lines + 1] := rfl
    rw [marksFrom_append, startsBehind_append, hend, ← List.cons_append, List.getLast?_concat,
      String.utf8Len_append, Nat.zero_add]
    rfl

/-! ## Cutting at an offset -/

theorem utf8Len_toList (content : String) :
    String.utf8Len content.toList = content.utf8ByteSize := by
  rw [← String.utf8ByteSize_ofList, String.ofList_toList]

theorem before_append {front : List Char} {offset : Nat} (h : String.utf8Len front ≤ offset)
    (rest : List Char) :
    before offset (front ++ rest) = front ++ before (offset - String.utf8Len front) rest := by
  induction front generalizing offset with
  | nil => rfl
  | cons c front ih =>
    have hsize := c.utf8Size_pos
    rw [String.utf8Len_cons] at h
    obtain ⟨offset, rfl⟩ := Nat.exists_eq_add_one_of_ne_zero (show offset ≠ 0 by omega)
    have hleft : offset + 1 - c.utf8Size - String.utf8Len front =
        offset + 1 - String.utf8Len (c :: front) := by rw [String.utf8Len_cons]; omega
    rw [List.cons_append, before, ih (by omega), hleft, List.cons_append]

/-- An offset behind the text is its end. -/
theorem before_min (offset : Nat) (text : List Char) :
    before (min offset (String.utf8Len text)) text = before offset text := by
  have hprefix := prefix_before_before (Nat.min_le_left offset (String.utf8Len text)) text
  refine hprefix.eq_of_length_le
    (List.IsPrefix.length_le (prefix_of_min_le (prefix_before _ text) ?_))
  have := min_le_utf8Len_before (min offset (String.utf8Len text)) text
  omega

theorem lt_of_mem_marks_before {start offset : Nat} {text : List Char} {m : Nat × Char}
    (h : m ∈ marksFrom start (before offset text)) : m.1 < start + offset := by
  induction text generalizing start offset with
  | nil => cases offset <;> cases h
  | cons c text ih =>
    cases offset with
    | zero => cases h
    | succ offset =>
      rw [before] at h
      rcases List.mem_cons.mp h with rfl | h
      · dsimp only
        omega
      · have := ih h
        have := bounds_of_mem_marksFrom h
        omega

/-- Of the characters of a text, those cut off begin before the offset and the others do not. -/
theorem exists_marks_eq {content : String} {stop : Nat} (hstop : stop ≤ content.utf8ByteSize) :
    ∃ rest later, content.toList = before stop content.toList ++ rest ∧
      marks content = marksFrom 0 (before stop content.toList) ++ later ∧
      (∀ m ∈ marksFrom 0 (before stop content.toList), m.1 < stop) ∧ ∀ m ∈ later, stop ≤ m.1 := by
  obtain ⟨rest, hrest⟩ := prefix_before stop content.toList
  refine ⟨rest, marksFrom (0 + String.utf8Len (before stop content.toList)) rest, hrest.symm, ?_,
    ?_, ?_⟩
  · rw [← marksFrom_append, hrest, marks]
  · intro m hm
    have := lt_of_mem_marks_before hm
    omega
  · intro m hm
    have hbegin := (bounds_of_mem_marksFrom hm).1
    have hreach := min_le_utf8Len_before stop content.toList
    rw [utf8Len_toList] at hreach
    omega

theorem takeWhile_append_eq {α : Type} {p : α → Bool} {xs ys : List α} (hxs : ∀ x ∈ xs, p x = true)
    (hys : ∀ y ∈ ys, ¬ p y = true) : (xs ++ ys).takeWhile p = xs := by
  have hnone : ys.takeWhile p = [] := by
    cases ys with
    | nil => rfl
    | cons y ys => exact List.takeWhile_cons_of_neg (hys y (List.mem_cons_self ..))
  rw [List.takeWhile_append_of_pos hxs, hnone, List.append_nil]

/-! ## Locating by the index -/

section Locating

variable {content : String} {stop : Nat} {front last : List Char}
  (hstop : stop ≤ content.utf8ByteSize)
include hstop

/-- The starts up to an offset are those of the part that it cuts off. -/
theorem takeWhile_starts : (LineIndex.ofText content).starts.takeWhile (· ≤ stop) =
    0 :: startsBehind (marksFrom 0 (before stop content.toList)) := by
  obtain ⟨-, later, -, hmarks, hbefore, hlater⟩ := exists_marks_eq hstop
  rw [LineIndex.ofText, hmarks, startsBehind_append, ← List.cons_append]
  refine takeWhile_append_eq (fun start hstart => decide_eq_true ?_) fun start hstart hle => ?_
  · rcases List.mem_cons.mp hstart with rfl | hstart
    · exact Nat.zero_le _
    · obtain ⟨m, hm, -, rfl⟩ := mem_startsBehind_iff.mp hstart
      exact hbefore m hm
  · obtain ⟨m, hm, -, rfl⟩ := mem_startsBehind_iff.mp hstart
    have hbegin := hlater m hm
    have hend : m.1 + 1 ≤ stop := of_decide_eq_true hle
    omega

variable (h : LastLine (before stop content.toList) front last)
include h

theorem LastLine.le_stop : String.utf8Len front ≤ stop := by
  have hmem := List.mem_of_getLast? h.getLast?_starts
  rw [← takeWhile_starts hstop] at hmem
  have hall := List.all_eq_true.mp (List.all_takeWhile (p := (· ≤ stop))) _ hmem
  exact of_decide_eq_true hall

/-- The last start up to the offset is the start of the last line that it cuts off. -/
theorem LastLine.getElem?_starts :
    (LineIndex.ofText content).starts[(before stop content.toList).count '\n']? =
      some (String.utf8Len front) := by
  obtain ⟨behind, hbehind⟩ :=
    List.takeWhile_prefix (· ≤ stop) (l := (LineIndex.ofText content).starts)
  have hlength : (0 :: startsBehind (marksFrom 0 (before stop content.toList))).length - 1 =
      (before stop content.toList).count '\n' := by
    rw [List.length_cons, length_startsBehind, Nat.add_sub_cancel]
  have hlast := h.getLast?_starts
  rw [List.getLast?_eq_getElem?, hlength] at hlast
  rw [← hbehind, takeWhile_starts hstop,
    List.getElem?_append_left (List.getElem?_eq_some_iff.mp hlast).1,
    hlast]

/-- The bytes from there to the offset are inside the text, and are read as the last line. -/
theorem LastLine.exists_slice? :
    ∃ part, slice? (bytes content) (String.utf8Len front) stop = some part ∧
      lenientLength part = last.length := by
  obtain ⟨rest, -, hcontent, -⟩ := exists_marks_eq hstop
  have hfront := h.le_stop hstop
  have hlength : stop ≤ (bytes content).length := hstop
  have hwhole : content.toList = front ++ (last ++ rest) := by
    rw [← List.append_assoc, ← h.split]
    exact hcontent
  have hlast : before (stop - String.utf8Len front) (last ++ rest) = last := by
    have hcut := h.split
    rw [hwhole, before_append hfront] at hcut
    exact List.append_cancel_left hcut
  have hdrop : (bytes content).drop (String.utf8Len front) =
      (last ++ rest).flatMap String.utf8EncodeChar := by
    have hsize : (bytes (String.ofList front)).length = (String.ofList front).utf8ByteSize := rfl
    rw [bytes_eq, String.toList_ofList, String.utf8ByteSize_ofList] at hsize
    rw [bytes_eq, hwhole, List.flatMap_append, ← hsize, List.drop_left]
  refine ⟨_, if_pos ⟨hfront, hlength⟩, ?_⟩
  rw [hdrop, lenientLength_take, hlast]

end Locating

/-- The position of an offset is the one behind the characters that begin before it, or before the end
of the text. -/
theorem locate_eq_foldl (content : String) (offset : Nat) :
    locate content.toList offset =
      (before (min offset content.utf8ByteSize) content.toList).foldl Position.advance .start := by
  rw [locate, locateFrom_eq_foldl, ← before_min, utf8Len_toList]

/-- No bound is outside, and what is found is the position behind the characters that begin before the
offset. -/
theorem locate?_ofText (content : String) (offset : Nat) :
    (LineIndex.ofText content).locate? content offset = some (locate content.toList offset) := by
  have hstop : min offset content.utf8ByteSize ≤ content.utf8ByteSize := Nat.min_le_right ..
  rw [locate_eq_foldl, LineIndex.locate?]
  generalize min offset content.utf8ByteSize = stop at hstop
  obtain ⟨front, last, h⟩ := exists_lastLine (before stop content.toList)
  obtain ⟨part, hslice, hcolumn⟩ := h.exists_slice? hstop
  rw [takeWhile_starts hstop, List.length_cons, length_startsBehind]
  dsimp only
  rw [h.getElem?_starts hstop, Option.bind_eq_bind, Option.bind_some, hslice, Option.bind_eq_bind,
    Option.bind_some, hcolumn, h.foldl_advance, Nat.add_comm]
  rfl

/-! ## What a position counts -/

section Counting

variable {content : String} {stop : Nat} {front last : List Char}
  (hstop : stop ≤ content.utf8ByteSize) (h : LastLine (before stop content.toList) front last)
include hstop

/-- The characters of a kind before an offset are those that it cuts off. -/
theorem countP_marks (kind : Nat × Char → Prop) [DecidablePred kind] :
    (marks content).countP (fun m => kind m ∧ m.1 < stop) =
      (marksFrom 0 (before stop content.toList)).countP (fun m => kind m) := by
  obtain ⟨-, later, -, hmarks, hbefore, hlater⟩ := exists_marks_eq hstop
  have hnone : later.countP (fun m => kind m ∧ m.1 < stop) = 0 := by
    refine List.countP_eq_zero.mpr fun m hm hboth => ?_
    have hbegin := hlater m hm
    have hend := (of_decide_eq_true hboth).2
    omega
  rw [hmarks, List.countP_append, hnone, Nat.add_zero]
  refine List.countP_congr fun m hm => ?_
  simp only [hbefore m hm, and_true]

theorem countP_newline :
    (marks content).countP (fun m => m.2 = '\n' ∧ m.1 < stop) =
      (before stop content.toList).count '\n' := by
  rw [countP_marks hstop, List.countP_eq_length_filter, ← length_startsBehind 0, startsBehind,
    List.length_map]

include h

/-- The last line that an offset cuts off is the last one that starts up to it. -/
theorem LastLine.isGreatest :
    IsGreatest {start | StartsLine content start ∧ start ≤ stop} (String.utf8Len front) := by
  obtain ⟨-, later, -, hmarks, -, hlater⟩ := exists_marks_eq hstop
  refine ⟨⟨?_, h.le_stop hstop⟩, ?_⟩
  · rcases List.mem_cons.mp (List.mem_of_getLast? h.getLast?_starts) with hzero | hstart
    · exact .inl hzero
    · obtain ⟨m, hm, hnewline, heq⟩ := mem_startsBehind_iff.mp hstart
      exact .inr ⟨m, hmarks ▸ List.mem_append_left later hm, hnewline, heq⟩
  · rintro start ⟨rfl | ⟨m, hm, hnewline, rfl⟩, hle⟩
    · exact Nat.zero_le _
    · rw [hmarks, h.split, marksFrom_append] at hm
      rcases List.mem_append.mp hm with hm | hm
      · rcases List.mem_append.mp hm with hm | hm
        · have := bounds_of_mem_marksFrom hm
          omega
        · exact absurd (hnewline ▸ mem_of_mem_marksFrom hm) h.notMem
      · have := hlater m hm
        omega

/-- Its characters are those that begin between its start and the offset. -/
theorem LastLine.countP_eq :
    (marks content).countP (fun m => String.utf8Len front ≤ m.1 ∧ m.1 < stop) = last.length := by
  have hnone : (marksFrom 0 front).countP (fun m => String.utf8Len front ≤ m.1) = 0 := by
    refine List.countP_eq_zero.mpr fun m hm hle => ?_
    have hend := (bounds_of_mem_marksFrom hm).2
    have hbegin := of_decide_eq_true hle
    omega
  have hall : ∀ m ∈ marksFrom (0 + String.utf8Len front) last,
      decide (String.utf8Len front ≤ m.1) = true := by
    intro m hm
    have hbegin := (bounds_of_mem_marksFrom hm).1
    exact decide_eq_true (by omega)
  rw [countP_marks hstop, h.split, marksFrom_append, List.countP_append, hnone,
    List.countP_eq_length.mpr hall, length_marksFrom, Nat.zero_add]

end Counting

/-! ## The order of positions -/

theorem lt_advance (p : Position) (c : Char) : p.rank < (p.advance c).rank := by
  rw [Position.rank, Position.rank, Prod.Lex.toLex_lt_toLex, Position.advance]
  split
  · exact .inl (Nat.lt_succ_self _)
  · exact .inr ⟨rfl, Nat.lt_succ_self _⟩

theorem le_foldl_advance (p : Position) (text : List Char) :
    p.rank ≤ (text.foldl Position.advance p).rank := by
  induction text generalizing p with
  | nil => exact le_refl _
  | cons c text ih => exact (lt_advance p c).le.trans (ih _)

theorem eq_nil_of_foldl_advance {p : Position} {text : List Char}
    (h : text.foldl Position.advance p = p) : text = [] := by
  cases text with
  | nil => rfl
  | cons c text =>
    have hle := le_foldl_advance (p.advance c) text
    rw [← List.foldl_cons, h] at hle
    exact absurd hle (lt_advance p c).not_ge

theorem foldl_before_of_le {m n : Nat} (h : m ≤ n) (text : List Char) :
    ∃ more, before n text = before m text ++ more ∧
      locate text n = more.foldl Position.advance (locate text m) := by
  obtain ⟨more, hmore⟩ := prefix_before_before h text
  refine ⟨more, hmore.symm, ?_⟩
  rw [locate, locate, locateFrom_eq_foldl, locateFrom_eq_foldl, ← hmore, List.foldl_append]

/-- An offset between two characters is the length of what it cuts off. -/
theorem utf8Len_before_of_isValid {content : String} {offset : Nat}
    (h : String.Pos.Raw.IsValid content ⟨offset⟩) :
    String.utf8Len (before offset content.toList) = offset := by
  obtain ⟨⟨-, hreach⟩, hleast⟩ := roundsUp_front offset content
  have hinside : offset ≤ content.utf8ByteSize := h.le_rawEndPos
  have hupper := hleast ⟨h, Nat.min_le_left ..⟩
  rw [front, String.utf8ByteSize_ofList] at hreach hupper
  omega

/-- Byte offsets and positions. The index of a text, whose starts are in order, finds a position for
every offset, with no bound outside, and it is the position that ranges are made of. For the offset,
or the end of the text if it is behind that, the line counts the line feeds before it and the column
the characters that begin before it and not before the last start of a line up to it. So positions are
in the order of offsets, and no two offsets between characters have one position. -/
theorem locates_offsets (content : String) :
    (LineIndex.ofText content).starts.Pairwise (· < ·) ∧
    (∀ offset,
      let stop := min offset content.utf8ByteSize
      ∃ p start, (LineIndex.ofText content).locate? content offset = some p ∧
        locate content.toList offset = p ∧
        p.line = 1 + (marks content).countP (fun m => m.2 = '\n' ∧ m.1 < stop) ∧
        IsGreatest {start | StartsLine content start ∧ start ≤ stop} start ∧
        p.column = (marks content).countP (fun m => start ≤ m.1 ∧ m.1 < stop)) ∧
    Monotone (fun offset => (locate content.toList offset).rank) ∧
    Set.InjOn (locate content.toList) {offset | String.Pos.Raw.IsValid content ⟨offset⟩} := by
  refine ⟨pairwise_starts content, ?_, ?_, ?_⟩
  · intro offset stop
    have hstop : stop ≤ content.utf8ByteSize := Nat.min_le_right ..
    obtain ⟨front, last, h⟩ := exists_lastLine (before stop content.toList)
    refine ⟨_, String.utf8Len front, locate?_ofText content offset, rfl, ?_, h.isGreatest hstop, ?_⟩
    · rw [locate_eq_foldl, h.foldl_advance, countP_newline hstop]
    · rw [locate_eq_foldl, h.foldl_advance, h.countP_eq hstop]
  · intro m n hmn
    obtain ⟨more, -, heq⟩ := foldl_before_of_le hmn content.toList
    dsimp only
    rw [heq]
    exact le_foldl_advance _ more
  · intro m hm n hn heq
    wlog hmn : m ≤ n generalizing m n
    · exact (this hn hm heq.symm (Nat.le_of_not_le hmn)).symm
    obtain ⟨more, hbefore, hmore⟩ := foldl_before_of_le hmn content.toList
    have hnil := eq_nil_of_foldl_advance (hmore.symm.trans heq.symm)
    rw [hnil, List.append_nil] at hbefore
    rw [← utf8Len_before_of_isValid hm, ← utf8Len_before_of_isValid hn, hbefore]

-- The offset is inside the second character of its line, of which a part counts as one.
example : (LineIndex.ofText "é\nx€").locate? "é\nx€" 5 = some ⟨2, 2⟩ := by cbv

end Text

end TraceGloss
