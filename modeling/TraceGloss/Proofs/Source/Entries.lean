import Mathlib.Algebra.Group.Int.Defs
import Mathlib.Algebra.Group.Nat.Defs
import TraceGloss.Proofs.Source.Grammar

/-
  The entries of a source map.
  `outOfRange?` is the first number of a map that is too large for its column, and `entryOf` the entry
  that holds the last value given in each column. Reading the fields of a map gives the first, or the
  second for every piece (`readEntries_eq`), so a map is read as it is split (`parse_eq_split`).
-/
namespace TraceGloss.SourceMap

/-- The integer that digits with an optional minus sign denote. -/
def denoted : List Char → Int
  | '-' :: digits => -(Digits.value digits : Int)
  | digits => Digits.value digits

/-- Whether the number in a field is one of the column's. -/
def Column.InRange : Column → List Char → Prop
  | .offset, field | .length, field | .modifierDepth, field => Digits.value field < 2 ^ 32
  | .file, field => -2 ^ 31 ≤ denoted field ∧ denoted field < 2 ^ 31
  | .jump, _ => True

instance : (column : Column) → (field : List Char) → Decidable (column.InRange field)
  | .offset, _ | .length, _ | .modifierDepth, _ => inferInstanceAs (Decidable (_ < _))
  | .file, _ => inferInstanceAs (Decidable (_ ∧ _))
  | .jump, _ => inferInstanceAs (Decidable True)

/-- The first number out of range in reading order, with the piece it stands in; `index` numbers the
first piece. -/
def outOfRange? (index : Nat) (pieces : List (List (Column × List Char))) :
    Option (Nat × List Char) :=
  (((pieces.zipIdx index).flatMap fun e => e.1.map fun field => (e.2, field)).find?
    fun e => ¬ e.2.1.InRange e.2.2).map fun e => (e.1, e.2.2)

/-- The last non-empty text given for a column. -/
def last? (column : Column) (fields : List (Column × List Char)) : Option (List Char) :=
  ((fields.filter fun e => e.1 = column ∧ e.2 ≠ []).map (·.2)).getLast?

/-- The jump that a field names. -/
def jumpOf (field : List Char) : Jump :=
  if field = ['i'] then .into else if field = ['o'] then .out else .regular

/-- The entry with the last value given in each column, or the default where none is given. -/
def entryOf (fields : List (Column × List Char)) : SourceEntry where
  offset := ((last? .offset fields).map Digits.value).getD 0
  length := ((last? .length fields).map Digits.value).getD 0
  file := ((last? .file fields).map denoted).getD (-1)
  jump := ((last? .jump fields).map jumpOf).getD .regular
  modifierDepth := ((last? .modifierDepth fields).map Digits.value).getD 0

theorem last?_append (column : Column) (fields : List (Column × List Char))
    (e : Column × List Char) :
    last? column (fields ++ [e]) =
      if e.1 = column ∧ e.2 ≠ [] then some e.2 else last? column fields := by
  rw [last?, List.filter_append, List.map_append]
  by_cases h : e.1 = column ∧ e.2 ≠ []
  · have hkept : [e].filter (fun e => e.1 = column ∧ e.2 ≠ []) = [e] := by simp [h]
    rw [if_pos h, hkept, List.map_singleton, List.getLast?_concat]
  · have hdropped : [e].filter (fun e => e.1 = column ∧ e.2 ≠ []) = [] := by simp [h]
    rw [if_neg h, hdropped, List.map_nil, List.append_nil, last?]

/-! ## One field -/

theorem entryOf_append_nil (fields : List (Column × List Char)) (column : Column) :
    entryOf (fields ++ [(column, [])]) = entryOf fields := by
  simp [entryOf, last?_append]

theorem number?_size (digits : List Char) :
    number? UInt32.size digits =
      if Digits.value digits < 2 ^ 32 then some (Digits.value digits) else none := rfl

theorem integer?_eq (field : List Char) :
    integer? field =
      if -2 ^ 31 ≤ denoted field ∧ denoted field < 2 ^ 31 then some (denoted field) else none := by
  unfold integer? denoted
  split
  · rename_i digits
    have hrange : Digits.value digits < halfRange + 1 ↔
        -2 ^ 31 ≤ -(Digits.value digits : Int) ∧ -(Digits.value digits : Int) < 2 ^ 31 := by
      unfold halfRange
      omega
    simp only [number?, hrange]
    split
    · rw [Option.map_some, Int.negOfNat_eq, Int.ofNat_eq_natCast]
    · rfl
  · have hrange : Digits.value field < halfRange ↔
        -2 ^ 31 ≤ (Digits.value field : Int) ∧ (Digits.value field : Int) < 2 ^ 31 := by
      unfold halfRange
      omega
    simp only [number?, hrange]
    split
    · rw [Option.map_some, Int.ofNat_eq_natCast]
    · rfl

/-- The entry with a column set to what a field says. -/
def setTo (entry : SourceEntry) : Column → List Char → SourceEntry
  | .offset, field => { entry with offset := Digits.value field }
  | .length, field => { entry with length := Digits.value field }
  | .file, field => { entry with file := denoted field }
  | .jump, field => { entry with jump := jumpOf field }
  | .modifierDepth, field => { entry with modifierDepth := Digits.value field }

theorem entryOf_append_cons (fields : List (Column × List Char)) (column : Column) (c : Char)
    (field : List Char) :
    entryOf (fields ++ [(column, c :: field)]) = setTo (entryOf fields) column (c :: field) := by
  cases column <;> simp [entryOf, last?_append, setTo]

theorem setField?_cons (entry : SourceEntry) {column : Column} {c : Char} {field : List Char}
    (h : column.Fits (c :: field)) :
    setField? entry (column, c :: field) =
      if column.InRange (c :: field) then some (setTo entry column (c :: field)) else none := by
  cases column with
  | offset | length | modifierDepth =>
    simp only [setField?, number?_size]
    by_cases hrange : Digits.value (c :: field) < 2 ^ 32
    · rw [if_pos hrange, if_pos (by exact hrange)]
      rfl
    · rw [if_neg hrange, if_neg (by exact hrange)]
      rfl
  | file =>
    simp only [setField?, integer?_eq]
    by_cases hrange : Column.InRange .file (c :: field)
    · rw [if_pos hrange, if_pos (by exact hrange)]
      rfl
    · rw [if_neg hrange, if_neg (by exact hrange)]
      rfl
  | jump =>
    have hjump : jumpOf (c :: field) =
        if c = 'i' then .into else if c = 'o' then .out else .regular := by
      rcases h with h | h | h | h <;> cases h <;> rfl
    rw [setField?, setTo, hjump]
    rfl

/-- A field that is in range sets its column, unless it is empty; another is refused. -/
theorem setField?_entryOf (fields : List (Column × List Char)) {e : Column × List Char}
    (h : e.1.Fits e.2) :
    setField? (entryOf fields) e =
      if e.1.InRange e.2 then some (entryOf (fields ++ [e])) else none := by
  obtain ⟨column, field⟩ := e
  cases field with
  | nil =>
    have hrange : column.InRange [] := by cases column <;> decide
    rw [if_pos hrange, entryOf_append_nil, setField?]
  | cons c field => rw [setField?_cons _ h, entryOf_append_cons]

/-! ## Whole maps -/

theorem setFields_entryOf (before : List (Column × List Char)) {fields : List (Column × List Char)}
    (h : ∀ e ∈ fields, e.1.Fits e.2) :
    setFields (entryOf before) fields =
      match fields.find? fun e => ¬ e.1.InRange e.2 with
      | some e => .error e.2
      | none => .ok (entryOf (before ++ fields)) := by
  induction fields generalizing before with
  | nil => rw [List.append_nil]; rfl
  | cons e fields ih =>
    obtain ⟨hfirst, hrest⟩ := List.forall_mem_cons.mp h
    rw [setFields, setField?_entryOf before hfirst, List.find?_cons]
    by_cases hrange : e.1.InRange e.2
    · have hsplit : before ++ e :: fields = before ++ [e] ++ fields := by simp
      simp only [hrange, if_true, not_true_eq_false, decide_false, hsplit]
      exact ih (before ++ [e]) hrest
    · simp only [hrange, if_false, not_false_eq_true, decide_true]

theorem outOfRange?_cons (index : Nat) (fields : List (Column × List Char))
    (pieces : List (List (Column × List Char))) :
    outOfRange? index (fields :: pieces) =
      match fields.find? fun e => ¬ e.1.InRange e.2 with
      | some e => some (index, e.2)
      | none => outOfRange? (index + 1) pieces := by
  rw [outOfRange?, List.zipIdx_cons, List.flatMap_cons, List.find?_append, List.find?_map]
  have hnumbered : ((fun e : Nat × Column × List Char => decide ¬ e.2.1.InRange e.2.2) ∘
      fun field => (index, field)) = fun e => decide ¬ e.1.InRange e.2 := rfl
  rw [hnumbered]
  cases fields.find? fun e => ¬ e.1.InRange e.2 <;> rfl

/-- Pieces whose fields fit are read as far as their numbers are in range. -/
theorem readEntries_eq (index : Nat) (before : List (Column × List Char))
    {pieces : List (List (Column × List Char))} (h : ∀ fields ∈ pieces, ∀ e ∈ fields, e.1.Fits e.2) :
    readEntries index (entryOf before) pieces =
      match outOfRange? index pieces with
      | some (k, value) => .error (.badNumber k (String.ofList value))
      | none => .ok ((List.range pieces.length).map fun k =>
          entryOf (before ++ (pieces.take (k + 1)).flatten)) := by
  induction pieces generalizing index before with
  | nil => rfl
  | cons fields pieces ih =>
    obtain ⟨hfirst, hrest⟩ := List.forall_mem_cons.mp h
    rw [readEntries, setFields_entryOf before hfirst, outOfRange?_cons]
    cases hfind : fields.find? fun e => ¬ e.1.InRange e.2 with
    | some e => rfl
    | none =>
      simp only []
      rw [ih (index + 1) (before ++ fields) hrest]
      cases outOfRange? (index + 1) pieces with
      | some found => rfl
      | none =>
        rw [List.length_cons, List.range_succ_eq_map, List.map_cons, List.map_map]
        simp [Except.map, Function.comp_def, List.append_assoc]

theorem fits_of_mem_table {text : List Char} (h : WellFormed text)
    {fields : List (Column × List Char)} (hfields : fields ∈ table text) :
    ∀ e ∈ fields, e.1.Fits e.2 := by
  obtain ⟨piece, hpiece, rfl⟩ := List.mem_map.mp hfields
  exact (h piece hpiece).2

theorem parse_of_wellFormed {text : String} (h : WellFormed (Text.trimmed text.toList)) :
    parse text = readEntries 0 (entryOf []) (table (Text.trimmed text.toList)) := by
  rw [parse, spanEntries_eq_ok_iff.mpr ⟨h, rfl⟩]
  rfl

/-- A source map is read as it is split: what does not fit its column is refused, then the first
number out of range, and else every piece gives the entry with the last values up to it. -/
theorem parse_eq_split (text : String) :
    let t := Text.trimmed text.toList
    ((∃ column, parse text = .error (.malformed column)) ↔ ¬ WellFormed t) ∧
      (WellFormed t → parse text =
        match outOfRange? 0 (table t) with
        | some (k, value) => .error (.badNumber k (String.ofList value))
        | none => .ok ((List.range (table t).length).map fun k =>
            entryOf ((table t).take (k + 1)).flatten)) := by
  intro t
  have hreads : WellFormed t → parse text =
      match outOfRange? 0 (table t) with
      | some (k, value) => .error (.badNumber k (String.ofList value))
      | none => .ok ((List.range (table t).length).map fun k =>
          entryOf ((table t).take (k + 1)).flatten) := by
    intro h
    have hentries := readEntries_eq 0 [] fun fields => fits_of_mem_table h
    simp only [List.nil_append] at hentries
    rw [parse_of_wellFormed h, hentries]
  refine ⟨⟨?_, ?_⟩, hreads⟩
  · rintro ⟨column, hmalformed⟩ h
    rw [hreads h] at hmalformed
    split at hmalformed <;> cases hmalformed
  · intro h
    rw [parse]
    cases hspan : spanEntries (Text.trimmed text.toList) with
    | error rest => exact ⟨_, rfl⟩
    | ok entries => exact absurd (spanEntries_eq_ok_iff.mp hspan).1 h

/-- What is left out is inherited, and a minus sign before a digit belongs to the file. -/
example : parse "4:2;:7;::-1:o" =
    .ok [{ offset := 4, length := 2 }, { offset := 4, length := 7 },
      { offset := 4, length := 7, file := -1, jump := .out }] := by
  cbv

end TraceGloss.SourceMap
