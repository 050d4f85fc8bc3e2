import TraceGloss.Hex

/-
  Numbers as text.
  `span` and `value` serve formats whose digits are found first and valued later. `natural` reads a
  whole text as a number below a limit: it may have a plus sign and leading zeros, its digits are
  taken from the left, and the first one that is no digit, or that reaches the limit, is the error.
-/
namespace TraceGloss

/-- What is wrong with a number given as text. -/
inductive DigitsError
  | noDigits
  | invalidDigit
  | tooLarge
deriving DecidableEq, Inhabited

namespace DigitsError

def message : DigitsError → String
  | noDigits => "cannot parse integer from empty string"
  | invalidDigit => "invalid digit found in string"
  | tooLarge => "number too large to fit in target type"

end DigitsError

namespace Digits

/-- The leading decimal digits of a text, and the rest. -/
def span (text : List Char) : List Char × List Char :=
  (text.takeWhile Char.isDigit, text.dropWhile Char.isDigit)

theorem length_span (text : List Char) :
    (span text).1.length + (span text).2.length = text.length := by
  rw [span, ← List.length_append, List.takeWhile_append_dropWhile]

/-- The number decimal digits stand for. -/
def value (digits : List Char) : Nat :=
  digits.foldl (fun n c => 10 * n + (c.toNat - 48)) 0

/-- The number of a digit below `radix`, which is at most sixteen. -/
def digit? (radix : Nat) (c : Char) : Option Nat := (Hex.value? c).filter (· < radix)

/-- Appends digits to a number as long as it stays below `limit`. -/
def append (radix limit : Nat) : List Char → Nat → Except DigitsError Nat
  | [], n => .ok n
  | c :: rest, n =>
    match digit? radix c with
    | none => .error .invalidDigit
    | some d =>
      if n * radix + d < limit then append radix limit rest (n * radix + d) else .error .tooLarge

/-- A number below `limit`, with an optional plus sign. -/
def natural (radix limit : Nat) : List Char → Except DigitsError Nat
  | [] => .error .noDigits
  | '+' :: [] => .error .invalidDigit
  | '+' :: digits => append radix limit digits 0
  | digits => append radix limit digits 0

/-- A gas quantity: hex behind `0x`, decimal otherwise. -/
def quantity (text : String) : Except DigitsError UInt64 :=
  match text.toList with
  | '0' :: 'x' :: digits => (natural 16 UInt64.size digits).map UInt64.ofNat
  | digits => (natural 10 UInt64.size digits).map UInt64.ofNat

end Digits

end TraceGloss
