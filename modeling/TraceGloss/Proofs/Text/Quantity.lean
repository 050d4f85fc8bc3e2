import TraceGloss.Proofs.Word.Text
import TraceGloss.Text.Digits

/-
  Which texts are quantities, and which number a quantity is.
  Digits are appended to a number as long as it stays below the limit; as it never falls, all of them
  are appended if and only if the last number is below the limit (`append_eq_ok_iff`). So a text is
  read as a number if and only if it spells the number: in digits of its radix alone, at least one,
  behind its mark and at most one sign (`quantity_eq_ok_iff`). Leading zeros count for nothing and
  overflow nothing.
-/
namespace TraceGloss.Digits

/-- A digit below the radix, which is at most sixteen. -/
def IsDigit (radix : Nat) (c : Char) : Prop := Hex.IsDigit c ∧ Hex.digitValue c < radix

instance (radix : Nat) : DecidablePred (IsDigit radix) :=
  fun c => inferInstanceAs (Decidable (Hex.IsDigit c ∧ Hex.digitValue c < radix))

/-- The number that a run of digits denotes. -/
def number (radix : Nat) (digits : List Char) : Nat :=
  Nat.ofDigits radix (digits.map Hex.digitValue).reverse

/-- A text without one leading plus sign. -/
def unsigned : List Char → List Char
  | '+' :: digits => digits
  | digits => digits

/-- Sixteen behind `0x`, ten otherwise. -/
def radixOf (text : String) : Nat :=
  match text.toList with
  | '0' :: 'x' :: _ => 16
  | _ => 10

/-- What stands behind the mark and the sign of a quantity. -/
def digitsOf (text : String) : List Char := unsigned (Hex.digitsOf text)

/-- A text is a quantity of a number: the digits behind its mark and its sign denote it. -/
structure Spells (text : String) (n : Nat) : Prop where
  nonempty : digitsOf text ≠ []
  digits : ∀ c ∈ digitsOf text, IsDigit (radixOf text) c
  number_eq : number (radixOf text) (digitsOf text) = n

instance (text : String) (n : Nat) : Decidable (Spells text n) :=
  decidable_of_iff
    (digitsOf text ≠ [] ∧ (digitsOf text).all (IsDigit (radixOf text) ·) = true ∧
      number (radixOf text) (digitsOf text) = n)
    ⟨fun ⟨h, h', h''⟩ => ⟨h, by simpa using h', h''⟩, fun ⟨h, h', h''⟩ => ⟨h, by simpa using h', h''⟩⟩

theorem number_cons (radix : Nat) (c : Char) (digits : List Char) :
    number radix (c :: digits) =
      Hex.digitValue c * radix ^ digits.length + number radix digits := by
  rw [number, List.map_cons, ofDigits_reverse_cons, List.length_map, number]

theorem digit?_eq (radix : Nat) (c : Char) :
    digit? radix c = if IsDigit radix c then some (Hex.digitValue c) else none := by
  rw [digit?, Hex.value?_eq]
  by_cases hdigit : Hex.IsDigit c <;> simp [hdigit, IsDigit, Option.filter]

/-- Appending succeeds if there are only digits and the whole number is below the limit. -/
theorem append_eq_ok_iff {radix limit : Nat} (hradix : 0 < radix) {digits : List Char} {n m : Nat}
    (hn : n < limit) :
    append radix limit digits n = .ok m ↔
      (∀ c ∈ digits, IsDigit radix c) ∧ n * radix ^ digits.length + number radix digits = m ∧
        m < limit := by
  induction digits generalizing n with
  | nil =>
    have hnumber : n * radix ^ ([] : List Char).length + number radix [] = n := by simp [number]
    rw [append, hnumber, Except.ok.injEq]
    exact ⟨fun h => ⟨List.forall_mem_nil _, h, h ▸ hn⟩, fun h => h.2.1⟩
  | cons c rest ih =>
    have hsum : n * radix ^ (c :: rest).length + number radix (c :: rest) =
        (n * radix + Hex.digitValue c) * radix ^ rest.length + number radix rest := by
      rw [number_cons, List.length_cons, Nat.pow_succ]
      ring
    rw [append, digit?_eq, hsum, List.forall_mem_cons]
    by_cases hdigit : IsDigit radix c
    · simp only [if_pos hdigit]
      by_cases hnext : n * radix + Hex.digitValue c < limit
      · rw [if_pos hnext, ih hnext]
        exact and_congr_left fun _ => (and_iff_right hdigit).symm
      · -- The number never falls, so it is not below the limit at the end either.
        have hpower : 0 < radix ^ rest.length := Nat.pow_pos hradix
        have hgrows := Nat.le_mul_of_pos_right (n * radix + Hex.digitValue c) hpower
        rw [if_neg hnext]
        constructor
        · intro happend
          cases happend
        · rintro ⟨-, hsum, hm⟩
          omega
    · simp only [if_neg hdigit]
      constructor
      · intro happend
        cases happend
      · rintro ⟨⟨hfirst, -⟩, -⟩
        exact absurd hfirst hdigit

theorem natural_eq_ok_iff {radix limit : Nat} (hradix : 0 < radix) (hlimit : 0 < limit)
    {text : List Char} {n : Nat} :
    natural radix limit text = .ok n ↔
      unsigned text ≠ [] ∧ (∀ c ∈ unsigned text, IsDigit radix c) ∧
        number radix (unsigned text) = n ∧ n < limit := by
  have happend : ∀ digits, append radix limit digits 0 = .ok n ↔
      (∀ c ∈ digits, IsDigit radix c) ∧ number radix digits = n ∧ n < limit := fun digits => by
    rw [append_eq_ok_iff hradix hlimit, Nat.zero_mul, Nat.zero_add]
  fun_cases natural radix limit text with
  | case1 => exact ⟨nofun, fun h => absurd rfl h.1⟩
  | case2 => exact ⟨nofun, fun h => absurd rfl h.1⟩
  | case3 digits hnonempty =>
    rw [happend]
    exact (and_iff_right hnonempty).symm
  | case4 _ hnonempty _ hbare =>
    rw [happend, unsigned.eq_2 text hbare]
    exact (and_iff_right hnonempty).symm

theorem quantity_eq (text : String) :
    quantity text =
      (natural (radixOf text) UInt64.size (Hex.digitsOf text)).map UInt64.ofNat := by
  unfold quantity
  split
  · rename_i digits hmarked
    have hradix : radixOf text = 16 := by simp only [radixOf, hmarked]
    have hdigits : Hex.digitsOf text = digits := by simp only [Hex.digitsOf, hmarked, Hex.unmarked]
    rw [hradix, hdigits]
  · rename_i hbare
    have hradix : radixOf text = 10 := by
      unfold radixOf
      split
      · exact absurd ‹_› (hbare _)
      · rfl
    have hdigits : Hex.digitsOf text = text.toList := Hex.unmarked.eq_2 _ hbare
    rw [hradix, hdigits]

/-- A text is read as the number that it spells, if that has 64 bits. -/
theorem quantity_eq_ok_iff {text : String} {n : UInt64} :
    quantity text = .ok n ↔ Spells text n.toNat := by
  have hradix : 0 < radixOf text := by
    rw [radixOf]
    split <;> decide
  rw [quantity_eq]
  constructor
  · intro h
    cases hnatural : natural (radixOf text) UInt64.size (Hex.digitsOf text) with
    | error e =>
      rw [hnatural] at h
      cases h
    | ok m =>
      rw [hnatural] at h
      cases h
      obtain ⟨hnonempty, hdigits, hnumber, hm⟩ :=
        (natural_eq_ok_iff hradix (by decide)).mp hnatural
      refine ⟨hnonempty, hdigits, ?_⟩
      rw [UInt64.toNat_ofNat_of_lt' hm]
      exact hnumber
  · rintro ⟨hnonempty, hdigits, hnumber⟩
    have hnatural := (natural_eq_ok_iff hradix (by decide)).mpr
      ⟨hnonempty, hdigits, hnumber, n.toNat_lt⟩
    rw [hnatural]
    exact congrArg Except.ok (UInt64.ofNat_toNat)

example : Spells "0x+00fF" 255 := by decide

example : Spells "+0255" 255 := by decide

end TraceGloss.Digits
