import TraceGloss.Json.Lexeme
import TraceGloss.Json.Printer

/-
  Strings and numbers that are printed are read back.
  What is escaped in a string is one piece of it again (`spanString_escape`), and the pieces make up
  the string (`lexeme?_quote`). The digits of a number are found up to the first character that is no
  digit, and denote the number (`lexeme?_natural`).
-/
namespace TraceGloss.Json

/-! ## Strings -/

/-- The characters of a string between its quotes. -/
def escaped (text : List Char) : List Char := text.flatMap fun c => (escape c).toList

theorem toList_foldl_escape (text : List Char) (found : String) :
    (text.foldl (fun text c => text ++ escape c) found).toList = found.toList ++ escaped text := by
  induction text generalizing found with
  | nil => exact (List.append_nil _).symm
  | cons c rest ih =>
    rw [List.foldl_cons, ih, String.toList_append, List.append_assoc]
    rfl

theorem toList_quote (s : String) : (quote s).toList = '"' :: (escaped s.toList ++ ['"']) := by
  unfold quote
  rw [String.foldl_eq_foldl_toList, String.toList_append, String.toList_append,
    toList_foldl_escape]
  rfl

/-- The piece that the text of a character is read as. -/
def pieceOf (c : Char) : Piece :=
  if c.toNat < 32 ∧ c ∉ ['\x08', '\x0c', '\n', '\r', '\t'] then .unit c.toNat else .char c

theorem pieceOf_eq (c : Char) : pieceOf c = .char c ∨ pieceOf c = .unit c.toNat ∧ c.toNat < 32 := by
  unfold pieceOf
  split
  · rename_i hcontrol
    exact .inr ⟨rfl, hcontrol.1⟩
  · exact .inl rfl

theorem spanString_escape (found : List Piece) (c : Char) (rest : List Char) :
    spanString found ((escape c).toList ++ rest) = spanString (pieceOf c :: found) rest := by
  unfold escape
  split
  · rfl
  · rfl
  · rfl
  · rfl
  · rfl
  · rfl
  · rfl
  · rename_i hquote hbackslash hbackspace hfeed hline hreturn htab
    by_cases hcontrol : c.toNat < 32
    · have hpiece : pieceOf c = .unit c.toNat := by
        unfold pieceOf
        simp_all
      have hzero : Hex.value? '0' = some 0 := rfl
      have hhigh : Hex.value? (Hex.digit (c.toNat / 16)) = some (c.toNat / 16) :=
        Hex.value?_digit (by omega)
      have hlow : Hex.value? (Hex.digit (c.toNat % 16)) = some (c.toNat % 16) :=
        Hex.value?_digit (by omega)
      have hfour : fourDigits? '0' '0' (Hex.digit (c.toNat / 16)) (Hex.digit (c.toNat % 16)) =
          some c.toNat := by
        unfold fourDigits?
        rw [hzero, hhigh, hlow]
        show some (4096 * 0 + 256 * 0 + 16 * (c.toNat / 16) + c.toNat % 16) = some c.toNat
        congr 1
        omega
      rw [if_pos hcontrol, String.toList_append, String.toList_ofList, String.toList_ofList,
        hpiece]
      show spanString found ('\\' :: 'u' :: '0' :: '0' :: Hex.digit (c.toNat / 16) ::
        Hex.digit (c.toNat % 16) :: rest) = _
      rw [spanString, hfour]
    · have hpiece : pieceOf c = .char c := by
        unfold pieceOf
        rw [if_neg (fun h => hcontrol h.1)]
      rw [if_neg hcontrol, String.toList_singleton, hpiece, List.singleton_append]
      rw [spanString, if_neg (not_or.mpr ⟨hcontrol, hbackslash⟩)]
      · exact hquote
      · exact fun _ _ _ _ _ h _ => hbackslash h
      · exact fun _ _ h _ => hbackslash h

theorem assemble_pieceOf (later : List Char) (c : Char) (found : List Piece) :
    assemble later (pieceOf c :: found) = assemble (c :: later) found := by
  rcases pieceOf_eq c with hchar | ⟨hunit, hcontrol⟩
  · rw [hchar, assemble]
  · have hlead : isLead c.toNat = false := by
      unfold isLead
      simp
      omega
    have htrail : isTrail c.toNat = false := by
      unfold isTrail
      simp
      omega
    rw [hunit]
    match found with
    | [] => simp [assemble, hlead, htrail]
    | .char c' :: found => simp [assemble, hlead, htrail]
    | .unit n :: found => simp [assemble, hlead, htrail]

theorem spanString_escaped (found : List Piece) (text rest : List Char) :
    spanString found (escaped text ++ '"' :: rest) =
      some ((text.map pieceOf).reverse ++ found, rest) := by
  induction text generalizing found with
  | nil => rfl
  | cons c text ih =>
    have hcons : escaped (c :: text) = (escape c).toList ++ escaped text := List.flatMap_cons
    rw [hcons, List.append_assoc, spanString_escape, ih, List.map_cons, List.reverse_cons,
      List.append_assoc]
    rfl

theorem assemble_pieces (text later : List Char) (found : List Piece) :
    assemble later ((text.map pieceOf).reverse ++ found) = assemble (text ++ later) found := by
  induction text generalizing found with
  | nil => rfl
  | cons c text ih =>
    rw [List.map_cons, List.reverse_cons, List.append_assoc, List.singleton_append, ih,
      assemble_pieceOf, List.cons_append]

/-- A printed string is one lexeme, and denotes the string. -/
theorem lexeme?_quote (s : String) (rest : List Char) :
    lexeme? '"' (escaped s.toList ++ '"' :: rest) = some (.text (some s), rest) := by
  unfold lexeme?
  simp only []
  rw [spanString_escaped, Option.map_some, assemble_pieces, List.append_nil, assemble,
    Option.map_some, String.ofList_toList]

/-! ## Numbers -/

/-- A text at whose start a number would end. -/
def EndsNumber (rest : List Char) : Prop :=
  ∀ c ∈ rest.head?, c.isDigit = false ∧ c ≠ '.' ∧ c ≠ 'e' ∧ c ≠ 'E'

theorem value_toDigits (n : Nat) : Digits.value (Nat.toDigits 10 n) = n :=
  Nat.ofDigitChars_ten_toDigits

theorem exists_toDigits_eq_cons (n : Nat) :
    ∃ c digits, Nat.toDigits 10 n = c :: digits ∧ c.isDigit = true := by
  obtain ⟨c, digits, hcons⟩ := List.exists_cons_of_ne_nil (Nat.toDigits_ne_nil (n := n) (b := 10))
  have hmem : c ∈ Nat.toDigits 10 n := by
    rw [hcons]
    exact List.mem_cons_self ..
  exact ⟨c, digits, hcons, Nat.isDigit_of_mem_toDigits (by omega) (by omega) hmem⟩

theorem span_toDigits (n : Nat) {rest : List Char} (h : EndsNumber rest) :
    Digits.span (Nat.toDigits 10 n ++ rest) = (Nat.toDigits 10 n, rest) := by
  have hdigits : ∀ c ∈ Nat.toDigits 10 n, c.isDigit = true := fun c hc =>
    Nat.isDigit_of_mem_toDigits (by omega) (by omega) hc
  have hrest : rest.takeWhile Char.isDigit = [] ∧ rest.dropWhile Char.isDigit = rest := by
    match rest with
    | [] => exact ⟨rfl, rfl⟩
    | c :: rest =>
      have hc : ¬ c.isDigit = true := by
        rw [(h c rfl).1]
        exact Bool.false_ne_true
      exact ⟨List.takeWhile_cons_of_neg hc, List.dropWhile_cons_of_neg hc⟩
  unfold Digits.span
  rw [List.takeWhile_append_of_pos hdigits, List.dropWhile_append_of_pos hdigits, hrest.1, hrest.2,
    List.append_nil]

/-- Only nought has a nought in front. -/
theorem head?_toDigits {n : Nat} (h : n ≠ 0) : (Nat.toDigits 10 n).head? ≠ some '0' := by
  induction n using Nat.strongRecOn with
  | ind n ih =>
    by_cases hsmall : n < 10
    · rw [Nat.toDigits_of_lt_base hsmall, List.head?_cons, ne_eq, Option.some.injEq,
        Nat.digitChar_eq_zero]
      exact h
    · have hfront := ih (n / 10) (by omega) (by omega)
      obtain ⟨c, digits, hcons, -⟩ := exists_toDigits_eq_cons (n / 10)
      rw [hcons] at hfront
      rw [Nat.toDigits_of_base_le (by omega) (by omega), hcons]
      exact hfront

theorem spanWhole_toDigits (n : Nat) {rest : List Char} (h : EndsNumber rest) :
    spanWhole (Nat.toDigits 10 n ++ rest) = some (Nat.toDigits 10 n, rest) := by
  unfold spanWhole
  rw [span_toDigits n h]
  split
  · rename_i hempty
    exact absurd (congrArg Prod.fst hempty) Nat.toDigits_ne_nil
  · rename_i hzero
    have hdigits := congrArg Prod.fst hzero
    by_cases hn : n = 0
    · rw [hn] at hdigits
      cases hdigits
    · exact absurd (congrArg List.head? hdigits) (head?_toDigits hn)
  · rename_i hdigits
    rw [← hdigits]

theorem spanNumeral_toDigits (n : Nat) {rest : List Char} (h : EndsNumber rest) :
    spanNumeral (Nat.toDigits 10 n ++ rest) =
      some (⟨false, Nat.toDigits 10 n, [], none⟩, rest) := by
  have hsign : spanSign (Nat.toDigits 10 n ++ rest) = (false, Nat.toDigits 10 n ++ rest) := by
    unfold spanSign
    split
    · rename_i hminus
      obtain ⟨c, digits, hcons, hdigit⟩ := exists_toDigits_eq_cons n
      rw [hcons, List.cons_append, List.cons.injEq] at hminus
      rw [hminus.1] at hdigit
      cases hdigit
    · rfl
  have hfraction : spanFraction rest = some ([], rest) := by
    unfold spanFraction
    split
    · exact absurd rfl (h '.' rfl).2.1
    · rfl
  have hexponent : spanExponent rest = some (none, rest) := by
    unfold spanExponent
    split
    all_goals first
      | rfl
      | exact absurd rfl (h 'e' rfl).2.2.1
      | exact absurd rfl (h 'E' rfl).2.2.2
  unfold spanNumeral
  rw [hsign, spanWhole_toDigits n h]
  dsimp only [Option.bind_eq_bind, Option.bind_some]
  rw [hfraction]
  dsimp only [Option.bind_some]
  rw [hexponent]
  rfl

/-- The digits of a number below `2 ^ 64` are one lexeme, and denote the number. -/
theorem lexeme?_natural {n : Nat} (hn : n < UInt64.size) {rest : List Char} (h : EndsNumber rest) :
    ∃ c digits, Nat.toDigits 10 n = c :: digits ∧ c.isDigit = true ∧
      lexeme? c (digits ++ rest) = some (.scalar (.natural n), rest) := by
  obtain ⟨c, digits, hcons, hdigit⟩ := exists_toDigits_eq_cons n
  have hnumber : number ⟨false, Nat.toDigits 10 n, [], none⟩ = .natural n := by
    have hnatural : Numeral.natural? ⟨false, Nat.toDigits 10 n, [], none⟩ = some n := by
      unfold Numeral.natural?
      dsimp only
      rw [value_toDigits, if_neg (by decide), if_pos hn]
    unfold number
    rw [hnatural]
  refine ⟨c, digits, hcons, hdigit, ?_⟩
  unfold lexeme?
  split <;> try exact absurd hdigit (by decide)
  rw [← List.cons_append, ← hcons, spanNumeral_toDigits n h, Option.map_some, hnumber]

end TraceGloss.Json
