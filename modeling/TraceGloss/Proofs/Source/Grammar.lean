import TraceGloss.Source.Map

/-
  The language of source maps.
  Splitting a text at semicolons gives its pieces, and splitting a piece at colons its fields. A text is
  `WellFormed` when no piece has more fields than there are columns and every field fits its column.
  The reader, which takes the longest value of each column, accepts just these texts and finds just
  these fields (`spanEntries_eq_ok_iff`).
-/
namespace TraceGloss.SourceMap

/-- Whether a text can stand in a column. -/
def Column.Fits : Column → List Char → Prop
  | .offset, field | .length, field | .modifierDepth, field => ∀ c ∈ field, c.isDigit
  | .file, field => field = [] ∨ ∃ digits, digits ≠ [] ∧ (∀ c ∈ digits, c.isDigit) ∧
      (field = digits ∨ field = '-' :: digits)
  | .jump, field => field = [] ∨ field = ['i'] ∨ field = ['o'] ∨ field = ['-']

/-- The fields of a piece, each with its column. -/
def fieldsOf (piece : List Char) : List (Column × List Char) := columns.zip (piece.splitOn ':')

/-- The fields of every piece of a text. -/
def table (text : List Char) : List (List (Column × List Char)) :=
  (text.splitOn ';').map fieldsOf

/-- Every piece of the text has at most five fields, and each fits its column. -/
def WellFormed (text : List Char) : Prop :=
  ∀ piece ∈ text.splitOn ';', (piece.splitOn ':').length ≤ columns.length ∧
    ∀ e ∈ fieldsOf piece, e.1.Fits e.2

/-! ## Single values -/

/-- A value ends where the text does, or at a separator. -/
def Ends (rest : List Char) : Prop := ∀ c ∈ rest.head?, c = ':' ∨ c = ';'

theorem Ends.cases {rest : List Char} (h : Ends rest) :
    rest = [] ∨ (∃ others, rest = ':' :: others) ∨ ∃ others, rest = ';' :: others := by
  cases rest with
  | nil => exact Or.inl rfl
  | cons c others =>
    rcases h c rfl with rfl | rfl
    · exact Or.inr (Or.inl ⟨others, rfl⟩)
    · exact Or.inr (Or.inr ⟨others, rfl⟩)

theorem digits_span_sound (text : List Char) :
    text = (Digits.span text).1 ++ (Digits.span text).2 ∧ ∀ c ∈ (Digits.span text).1, c.isDigit := by
  refine ⟨List.takeWhile_append_dropWhile.symm, ?_⟩
  have hall : (text.takeWhile Char.isDigit).all Char.isDigit = true := List.all_takeWhile
  exact List.all_eq_true.mp hall

theorem digits_span_append {digits rest : List Char} (h : ∀ c ∈ digits, c.isDigit)
    (hrest : Ends rest) : Digits.span (digits ++ rest) = (digits, rest) := by
  have hstop : rest.takeWhile Char.isDigit = [] ∧ rest.dropWhile Char.isDigit = rest := by
    rcases hrest.cases with rfl | ⟨others, rfl⟩ | ⟨others, rfl⟩ <;> exact ⟨rfl, rfl⟩
  rw [Digits.span, List.takeWhile_append_of_pos h, List.dropWhile_append_of_pos h, hstop.1, hstop.2,
    List.append_nil]

theorem span_sound (column : Column) (text : List Char) :
    text = (column.span text).1 ++ (column.span text).2 ∧ column.Fits (column.span text).1 := by
  have hfile : ∀ rest : List Char, Column.Fits .file (Digits.span rest).1 := by
    intro rest
    by_cases hnone : (Digits.span rest).1 = []
    · exact Or.inl hnone
    · exact Or.inr ⟨_, hnone, (digits_span_sound rest).2, Or.inl rfl⟩
  unfold Column.span
  split
  · exact digits_span_sound text
  · exact digits_span_sound text
  · exact digits_span_sound text
  · rename_i rest
    obtain ⟨hsplit, hdigits⟩ := digits_span_sound rest
    split
    · exact ⟨rfl, Or.inl rfl⟩
    · rename_i digits others hnone heq
      rw [heq] at hsplit hdigits
      exact ⟨congrArg ('-' :: ·) hsplit, Or.inr ⟨digits, hnone, hdigits, Or.inr rfl⟩⟩
  · exact ⟨(digits_span_sound text).1, hfile text⟩
  · exact ⟨rfl, Or.inr (Or.inl rfl)⟩
  · exact ⟨rfl, Or.inr (Or.inr (Or.inl rfl))⟩
  · exact ⟨rfl, Or.inr (Or.inr (Or.inr rfl))⟩
  · exact ⟨rfl, Or.inl rfl⟩

/-- A value that fits and ends is taken whole. -/
theorem span_append {column : Column} {value rest : List Char} (h : column.Fits value)
    (hrest : Ends rest) : column.span (value ++ rest) = (value, rest) := by
  cases column with
  | offset | length | modifierDepth => exact digits_span_append h hrest
  | file =>
    rcases h with rfl | ⟨digits, hsome, hdigits, rfl | rfl⟩
    · rcases hrest.cases with rfl | ⟨others, rfl⟩ | ⟨others, rfl⟩ <;> rfl
    · obtain ⟨d, ds, rfl⟩ := List.exists_cons_of_ne_nil hsome
      have hd : d ≠ '-' := by
        rintro rfl
        exact absurd (hdigits '-' (List.mem_cons_self ..)) (by decide)
      have hspan := digits_span_append hdigits hrest
      rw [List.cons_append] at hspan ⊢
      rw [Column.span]
      · exact hspan
      · intro others heq
        exact hd (List.cons.inj heq).1
    · obtain ⟨d, ds, rfl⟩ := List.exists_cons_of_ne_nil hsome
      rw [List.cons_append, Column.span, digits_span_append hdigits hrest]
  | jump =>
    rcases h with rfl | rfl | rfl | rfl
    · rcases hrest.cases with rfl | ⟨others, rfl⟩ | ⟨others, rfl⟩ <;> rfl
    · rfl
    · rfl
    · rfl

/-- A value that fits holds no separator. -/
theorem Column.Fits.not_mem {column : Column} {value : List Char} (h : column.Fits value) :
    ':' ∉ value ∧ ';' ∉ value := by
  have hdigits : ∀ digits : List Char, (∀ c ∈ digits, c.isDigit) → ':' ∉ digits ∧ ';' ∉ digits := by
    intro digits hall
    exact ⟨fun hmem => absurd (hall ':' hmem) (by decide), fun hmem => absurd (hall ';' hmem) (by decide)⟩
  cases column with
  | offset | length | modifierDepth => exact hdigits value h
  | file =>
    rcases h with rfl | ⟨digits, -, hall, rfl | rfl⟩
    · simp
    · exact hdigits _ hall
    · simpa using hdigits digits hall
  | jump => rcases h with rfl | rfl | rfl | rfl <;> decide

/-! ## Pieces -/

theorem spanFields_colon {column : Column} {text value rest : List Char}
    (h : column.span text = (value, ':' :: rest)) (next : Column) (columns : List Column) :
    spanFields (column :: next :: columns) text =
      ((column, value) :: (spanFields (next :: columns) rest).1,
        (spanFields (next :: columns) rest).2) :=
  spanFields.eq_2 text column next columns value rest h

theorem spanFields_stop {column : Column} {columns : List Column} {text value rest : List Char}
    (h : column.span text = (value, rest)) (hrest : columns = [] ∨ rest.head? ≠ some ':') :
    spanFields (column :: columns) text = ([(column, value)], rest) := by
  refine spanFields.eq_3 text column columns value rest ?_ h
  rintro next others behind rfl rfl
  rcases hrest with hnil | hhead
  · cases hnil
  · exact hhead rfl

/-- A value that fits is a piece of one field. -/
theorem single_sound {column : Column} {value : List Char} (h : column.Fits value)
    (columns : List Column) :
    (value.splitOn ':').length ≤ (column :: columns).length ∧
      [(column, value)] = (column :: columns).zip (value.splitOn ':') ∧
      ∀ e ∈ [(column, value)], e.1.Fits e.2 := by
  rw [List.splitOn_eq_singleton h.not_mem.1, List.zip_cons_cons, List.zip_nil_right]
  refine ⟨Nat.le_add_left .., rfl, ?_⟩
  intro e he
  rw [List.mem_singleton.mp he]
  exact h

/-- What is taken for fields is a text between colons, and each of them fits its column. -/
theorem spanFields_sound (column : Column) (columns : List Column) (text : List Char) :
    ∃ piece, text = piece ++ (spanFields (column :: columns) text).2 ∧ ';' ∉ piece ∧
      (piece.splitOn ':').length ≤ (column :: columns).length ∧
      (spanFields (column :: columns) text).1 = (column :: columns).zip (piece.splitOn ':') ∧
      ∀ e ∈ (spanFields (column :: columns) text).1, e.1.Fits e.2 := by
  induction columns generalizing column text with
  | nil =>
    obtain ⟨hsplit, hfits⟩ := span_sound column text
    rcases hspan : column.span text with ⟨value, rest⟩
    rw [hspan] at hsplit hfits
    rw [spanFields_stop hspan (Or.inl rfl)]
    exact ⟨value, hsplit, hfits.not_mem.2, single_sound hfits []⟩
  | cons next columns ih =>
    obtain ⟨hsplit, hfits⟩ := span_sound column text
    rcases hspan : column.span text with ⟨value, rest⟩
    rw [hspan] at hsplit hfits
    obtain ⟨hcolon, hsemicolon⟩ := hfits.not_mem
    by_cases hhead : rest.head? = some ':'
    · obtain ⟨others, rfl⟩ := List.head?_eq_some_iff.mp hhead
      obtain ⟨piece, htext, hpiece, hlength, hzip, hall⟩ := ih next others
      rw [spanFields_colon hspan]
      refine ⟨value ++ ':' :: piece, ?_, ?_, ?_, ?_, ?_⟩
      · rw [hsplit, List.append_assoc, List.cons_append, ← htext]
      · simpa [hpiece] using hsemicolon
      · rw [List.splitOn_append_cons_self_of_not_mem hcolon, List.length_cons]
        exact Nat.succ_le_succ hlength
      · rw [List.splitOn_append_cons_self_of_not_mem hcolon, List.zip_cons_cons, hzip]
      · exact List.forall_mem_cons.mpr ⟨hfits, hall⟩
    · rw [spanFields_stop hspan (Or.inr hhead)]
      exact ⟨value, hsplit, hsemicolon, single_sound hfits (next :: columns)⟩

/-- A piece whose fields fit is taken whole. -/
theorem spanFields_append {columns : List Column} {piece rest : List Char}
    (hlength : (piece.splitOn ':').length ≤ columns.length)
    (hfits : ∀ e ∈ columns.zip (piece.splitOn ':'), e.1.Fits e.2)
    (hrest : ∀ c ∈ rest.head?, c = ';') :
    spanFields columns (piece ++ rest) = (columns.zip (piece.splitOn ':'), rest) := by
  induction columns generalizing piece with
  | nil =>
    exact absurd (List.eq_nil_of_length_eq_zero (Nat.le_zero.mp hlength)) (List.splitOn_ne_nil _ _)
  | cons column columns ih =>
    by_cases hcolon : ':' ∈ piece
    · obtain ⟨value, others, rfl, hvalue⟩ := List.eq_append_cons_of_mem hcolon
      rw [List.splitOn_append_cons_self_of_not_mem hvalue] at hlength hfits ⊢
      rw [List.zip_cons_cons] at hfits ⊢
      obtain ⟨hfirst, hothers⟩ := List.forall_mem_cons.mp hfits
      have hspan : column.span (value ++ ':' :: (others ++ rest)) =
          (value, ':' :: (others ++ rest)) := by
        apply span_append hfirst
        rintro c hc
        cases hc
        exact Or.inl rfl
      have hless := Nat.le_of_succ_le_succ hlength
      cases columns with
      | nil =>
        exact absurd (List.eq_nil_of_length_eq_zero (Nat.le_zero.mp hless))
          (List.splitOn_ne_nil _ _)
      | cons next columns =>
        rw [List.append_assoc, List.cons_append, spanFields_colon hspan, ih hless hothers]
    · rw [List.splitOn_eq_singleton hcolon] at hfits ⊢
      have hvalue : column.Fits piece := hfits (column, piece) (by simp)
      have hends : Ends rest := fun c hc => Or.inr (hrest c hc)
      have hhead : rest.head? ≠ some ':' := by
        intro hhead
        exact absurd (hrest ':' hhead) (by decide)
      rw [spanFields_stop (span_append hvalue hends) (Or.inr hhead), List.zip_cons_cons,
        List.zip_nil_right]

/-! ## Whole texts -/

theorem spanEntries_end {text : List Char} {fields : List (Column × List Char)}
    (h : spanFields columns text = (fields, [])) : spanEntries text = .ok [fields] := by
  rw [spanEntries]
  split
  · rename_i heq
    cases h.symm.trans heq
    rfl
  · rename_i heq
    cases h.symm.trans heq
  · rename_i hnil _ heq
    cases h.symm.trans heq
    exact absurd rfl hnil

theorem spanEntries_semicolon {text rest : List Char} {fields : List (Column × List Char)}
    (h : spanFields columns text = (fields, ';' :: rest)) :
    spanEntries text = (spanEntries rest).map (fields :: ·) := by
  rw [spanEntries]
  split
  · rename_i heq
    cases h.symm.trans heq
  · rename_i heq
    cases h.symm.trans heq
    rfl
  · rename_i hsemicolon heq
    cases h.symm.trans heq
    exact absurd rfl (hsemicolon rest)

theorem spanEntries_stuck {text rest : List Char} {fields : List (Column × List Char)}
    (h : spanFields columns text = (fields, rest)) (hsome : rest ≠ [])
    (hhead : rest.head? ≠ some ';') : spanEntries text = .error rest := by
  rw [spanEntries]
  split
  · rename_i heq
    cases h.symm.trans heq
    exact absurd rfl hsome
  · rename_i heq
    cases h.symm.trans heq
    exact absurd rfl hhead
  · rename_i heq
    cases h.symm.trans heq
    rfl

/-- What a piece at the start of a text is taken for. -/
theorem spanFields_columns_sound (text : List Char) :
    ∃ piece, text = piece ++ (spanFields columns text).2 ∧ ';' ∉ piece ∧
      (spanFields columns text).1 = fieldsOf piece ∧
      (piece.splitOn ':').length ≤ columns.length ∧ ∀ e ∈ fieldsOf piece, e.1.Fits e.2 := by
  obtain ⟨piece, htext, hpiece, hlength, hzip, hfits⟩ :=
    spanFields_sound .offset [.length, .file, .jump, .modifierDepth] text
  have hfields : (spanFields columns text).1 = fieldsOf piece := hzip
  exact ⟨piece, htext, hpiece, hfields, hlength, fun e he => hfits e (hfields ▸ he)⟩

/-- Of a well-formed text, the first piece is taken whole. -/
theorem spanFields_of_wellFormed {text : List Char} (h : WellFormed text) :
    ∀ c ∈ (spanFields columns text).2.head?, c = ';' := by
  by_cases hsemicolon : ';' ∈ text
  · obtain ⟨piece, rest, rfl, hpiece⟩ := List.eq_append_cons_of_mem hsemicolon
    rw [WellFormed, List.splitOn_append_cons_self_of_not_mem hpiece] at h
    obtain ⟨hlength, hfits⟩ := h piece (List.mem_cons_self ..)
    have hstop : ∀ c ∈ (';' :: rest).head?, c = ';' := by simp
    rw [spanFields_append hlength hfits hstop]
    exact hstop
  · rw [WellFormed, List.splitOn_eq_singleton hsemicolon] at h
    obtain ⟨hlength, hfits⟩ := h text (List.mem_singleton_self text)
    have hstop : ∀ c ∈ ([] : List Char).head?, c = ';' := by simp
    have htaken := spanFields_append hlength hfits hstop
    rw [List.append_nil] at htaken
    rw [htaken]
    exact hstop

/-- The reader accepts the well-formed texts, and finds the fields of their pieces. -/
theorem spanEntries_eq_ok_iff {text : List Char} {entries : List (List (Column × List Char))} :
    spanEntries text = .ok entries ↔ WellFormed text ∧ entries = table text := by
  induction text using spanEntries.induct generalizing entries with
  | case1 text fields hfields =>
    obtain ⟨piece, htext, hpiece, hzip, hfits⟩ := spanFields_columns_sound text
    rw [hfields] at htext hzip
    rw [List.append_nil] at htext
    subst htext
    have hwell : WellFormed text := by
      rw [WellFormed, List.splitOn_eq_singleton hpiece]
      intro found hfound
      rw [List.mem_singleton.mp hfound]
      exact hfits
    have htable : table text = [fields] := by
      rw [table, List.splitOn_eq_singleton hpiece, List.map_singleton, ← hzip]
    rw [spanEntries_end hfields, htable, Except.ok.injEq]
    exact ⟨fun heq => ⟨hwell, heq.symm⟩, fun h => h.2.symm⟩
  | case2 text fields rest hfields ih =>
    obtain ⟨piece, htext, hpiece, hzip, hfits⟩ := spanFields_columns_sound text
    rw [hfields] at htext hzip
    have hwell : WellFormed text ↔ WellFormed rest := by
      rw [htext, WellFormed, List.splitOn_append_cons_self_of_not_mem hpiece, List.forall_mem_cons]
      exact and_iff_right hfits
    have htable : table text = fields :: table rest := by
      rw [htext, table, List.splitOn_append_cons_self_of_not_mem hpiece, List.map_cons, ← hzip,
        table]
    rw [spanEntries_semicolon hfields, hwell, htable]
    cases hrest : spanEntries rest with
    | error stuck =>
      have hnone : ¬ WellFormed rest := by
        intro h
        have hok := ih.mpr ⟨h, rfl⟩
        rw [hrest] at hok
        cases hok
      simp [Except.map, hnone]
    | ok others =>
      obtain ⟨hothers, rfl⟩ := ih.mp hrest
      rw [Except.map, Except.ok.injEq]
      exact ⟨fun heq => ⟨hothers, heq.symm⟩, fun h => h.2.symm⟩
  | case3 text fields rest hnil hsemicolon hfields =>
    have hsome : rest ≠ [] := hnil
    have hhead : rest.head? ≠ some ';' := by
      intro h
      obtain ⟨others, rfl⟩ := List.head?_eq_some_iff.mp h
      exact hsemicolon others rfl
    have hill : ¬ WellFormed text := by
      intro h
      have hstop := spanFields_of_wellFormed h
      rw [hfields] at hstop
      obtain ⟨c, others, rfl⟩ := List.exists_cons_of_ne_nil hsome
      exact hhead (congrArg some (hstop c rfl))
    rw [spanEntries_stuck hfields hsome hhead]
    simp [hill]

end TraceGloss.SourceMap
