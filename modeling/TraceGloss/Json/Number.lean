import TraceGloss.Decimal.Double
import TraceGloss.Text.Digits

/-
  JSON numbers: an optional minus sign, an integer part without leading zeros, an optional fraction
  and an optional exponent. A `Numeral` keeps these parts. It counts as a natural number if it is an
  unsigned integer below `2 ^ 64`. Any other number is read as a double, and is out of reach if that
  overflows: its first digits, as many as fit in 64 bits, are multiplied by a power of ten.
-/
namespace TraceGloss.Json

/-- The parts of a number: its sign, the digits before and behind the point, and the exponent with
its sign. -/
structure Numeral where
  negative : Bool
  whole : List Char
  fraction : List Char
  exponent : Option (Bool × List Char)
deriving DecidableEq

/-- Whether a minus sign stands in front, and the text behind it. -/
def spanSign : List Char → Bool × List Char
  | '-' :: rest => (true, rest)
  | text => (false, text)

theorem length_spanSign (text : List Char) : (spanSign text).2.length ≤ text.length := by
  unfold spanSign; split <;> simp

/-- An integer part and the rest; a zero stands alone. -/
def spanWhole (text : List Char) : Option (List Char × List Char) :=
  match Digits.span text with
  | ([], _) => none
  | ('0' :: _ :: _, _) => none
  | (digits, rest) => some (digits, rest)

theorem length_spanWhole {text : List Char} {r : List Char × List Char}
    (h : spanWhole text = some r) : r.2.length < text.length := by
  have hsum := Digits.length_span text
  unfold spanWhole at h
  split at h
  · simp at h
  · simp at h
  · rename_i digits rest hne _ heq
    rw [heq] at hsum
    cases h
    have := List.length_pos_iff.mpr hne
    simp only at *
    omega

/-- A fraction and the rest: empty without a point, and at least one digit behind one. -/
def spanFraction : List Char → Option (List Char × List Char)
  | '.' :: text =>
    match Digits.span text with
    | ([], _) => none
    | (digits, rest) => some (digits, rest)
  | text => some ([], text)

theorem length_spanFraction {text : List Char} {r : List Char × List Char}
    (h : spanFraction text = some r) : r.2.length ≤ text.length := by
  unfold spanFraction at h
  split at h
  · rename_i rest
    have hsum := Digits.length_span rest
    split at h
    · simp at h
    · rename_i heq
      rw [heq] at hsum
      cases h
      simp only [List.length_cons] at *
      omega
  · cases h; exact Nat.le_refl _

/-- The digits of an exponent behind its mark and sign. -/
def spanPower (negative : Bool) (text : List Char) :
    Option (Option (Bool × List Char) × List Char) :=
  match Digits.span text with
  | ([], _) => none
  | (digits, rest) => some (some (negative, digits), rest)

theorem length_spanPower {negative : Bool} {text : List Char}
    {r : Option (Bool × List Char) × List Char} (h : spanPower negative text = some r) :
    r.2.length ≤ text.length := by
  have hsum := Digits.length_span text
  unfold spanPower at h
  split at h
  · simp at h
  · rename_i heq
    rw [heq] at hsum
    cases h
    simp only at *
    omega

/-- An exponent, if any, and the rest. -/
def spanExponent : List Char → Option (Option (Bool × List Char) × List Char)
  | 'e' :: '-' :: text | 'E' :: '-' :: text => spanPower true text
  | 'e' :: '+' :: text | 'E' :: '+' :: text => spanPower false text
  | 'e' :: text | 'E' :: text => spanPower false text
  | text => some (none, text)

theorem length_spanExponent {text : List Char} {r : Option (Bool × List Char) × List Char}
    (h : spanExponent text = some r) : r.2.length ≤ text.length := by
  unfold spanExponent at h
  split at h
  all_goals first
    | exact Nat.le_trans (length_spanPower h) (by simp only [List.length_cons]; omega)
    | (cases h; exact Nat.le_refl _)

/-- The longest number at the start of a text, and the rest. -/
def spanNumeral (text : List Char) : Option (Numeral × List Char) := do
  let (whole, rest) ← spanWhole (spanSign text).2
  let (fraction, rest) ← spanFraction rest
  let (exponent, rest) ← spanExponent rest
  return (⟨(spanSign text).1, whole, fraction, exponent⟩, rest)

theorem length_spanNumeral {text : List Char} {r : Numeral × List Char}
    (h : spanNumeral text = some r) : r.2.length < text.length := by
  simp only [spanNumeral, Option.bind_eq_bind, Option.bind_eq_some_iff] at h
  obtain ⟨whole, hw, fraction, hf, exponent, he, h⟩ := h
  cases h
  have hs := length_spanSign text
  have hw := length_spanWhole hw
  have hf := length_spanFraction hf
  have he := length_spanExponent he
  simp only at *
  omega

/-- Appends digits to a number as long as it stays below `2 ^ 64`. The second part counts the digits
from the first one that does not fit. -/
def gather (n : Nat) : List Char → Nat × Nat
  | [] => (n, 0)
  | c :: rest =>
    let next := 10 * n + (c.toNat - 48)
    if next < UInt64.size then gather next rest else (n, rest.length + 1)

/-- The largest power of ten that a significand is multiplied by. -/
def maxPower : Nat := 308

namespace Numeral

/-- The significand of the number: digits from the left, as many as fit. -/
def significand (n : Numeral) : Nat := (gather (gather 0 n.whole).1 n.fraction).1

/-- The power of ten of the significand, as a difference: the digits dropped before the point, and
those kept behind it, each with its share of the exponent. -/
def power (n : Numeral) : Nat × Nat :=
  let whole := gather 0 n.whole
  let kept := n.fraction.length - (gather whole.1 n.fraction).2
  match n.exponent with
  | none => (whole.2, kept)
  | some (false, digits) => (whole.2 + Digits.value digits, kept)
  | some (true, digits) => (whole.2, kept + Digits.value digits)

/-- Whether the number overflows when it is read as a double. Only a positive power can do that. -/
def overflows (n : Numeral) : Bool :=
  let (up, down) := n.power
  if n.significand = 0 then false
  else if maxPower + down < up then true
  else down ≤ up && Decimal.exceedsDouble n.significand (Nat.pow 10 (up - down))

/-- The natural number below `2 ^ 64` that an unsigned integer denotes. -/
def natural? (n : Numeral) : Option Nat :=
  if n.negative || !n.fraction.isEmpty || n.exponent.isSome then none
  else if Digits.value n.whole < UInt64.size then some (Digits.value n.whole)
  else none

/-- The number as text. -/
def text (n : Numeral) : String :=
  let sign := if n.negative then "-" else ""
  let fraction := if n.fraction.isEmpty then "" else "." ++ String.ofList n.fraction
  let exponent :=
    match n.exponent with
    | none => ""
    | some (true, digits) => "e-" ++ String.ofList digits
    | some (false, digits) => "e" ++ String.ofList digits
  sign ++ String.ofList n.whole ++ fraction ++ exponent

end Numeral

end TraceGloss.Json
