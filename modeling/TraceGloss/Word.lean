import TraceGloss.Hex

/-
  Stack words.
  A `Word` is a byte string of at least one stack slot (32 bytes): shorter values are padded with
  zeros in front, so that a value has one spelling however it was read, and longer ones (hash
  preimages) are kept as they are. `slots` cuts a long word back into slot-sized words. The order
  is the lexicographic one on bytes, which on slot-sized words is the numeric order.
-/
namespace TraceGloss

/-- The width of one stack slot in bytes. -/
abbrev slotBytes : Nat := 32

/-- A big-endian value of at least one stack slot. -/
structure Word where
  bytes : List UInt8
  slot_le : slotBytes ≤ bytes.length
deriving DecidableEq

namespace Word

theorem ext {v w : Word} (h : v.bytes = w.bytes) : v = w := by
  cases v; cases w; cases h; rfl

instance : Hashable Word := ⟨fun w => hash w.bytes⟩

instance : LT Word := ⟨fun v w => v.bytes < w.bytes⟩

instance (v w : Word) : Decidable (v < w) := inferInstanceAs (Decidable (v.bytes < w.bytes))

/-- The word of a byte string: padded to a slot if shorter, verbatim if not. -/
def ofBytes (bytes : List UInt8) : Word where
  bytes := List.replicate (slotBytes - bytes.length) 0 ++ bytes
  slot_le := by simp; omega

def zero : Word := ofBytes []

instance : Inhabited Word := ⟨zero⟩

def ofUInt64 (n : UInt64) : Word := ofBytes (toBigEndian 8 n.toNat)

/-- The number the word denotes. -/
def value (w : Word) : Nat := bigEndian w.bytes

/-- Whether the word spans more than one slot. -/
def isWide (w : Word) : Bool := slotBytes < w.bytes.length

def isZero (w : Word) : Bool := w.bytes.all (· == 0)

/-- The number the word denotes, if it fits in 64 bits. -/
def toUInt64? (w : Word) : Option UInt64 :=
  let split := w.bytes.length - 8
  if (w.bytes.take split).all (· == 0) then
    some (UInt64.ofNat (bigEndian (w.bytes.drop split)))
  else none

/-- Whether the word is numerically below `threshold`. -/
def isBelow (w : Word) (threshold : UInt64) : Bool :=
  match w.toUInt64? with
  | some n => n < threshold
  | none => false

/-- Consecutive runs of slot width; the last one may be shorter. -/
def runs (bytes : List UInt8) : List (List UInt8) :=
  match bytes with
  | [] => []
  | b :: rest => (b :: rest).take slotBytes :: runs ((b :: rest).drop slotBytes)
termination_by bytes.length
decreasing_by simp only [List.length_drop, List.length_cons, slotBytes]; omega

theorem flatten_runs (bytes : List UInt8) : (runs bytes).flatten = bytes := by
  fun_induction runs bytes with
  | case1 => rfl
  | case2 b rest ih => rw [List.flatten_cons, ih, List.take_append_drop]

/-- The word cut into slot-sized words, left to right; a short last run is padded. -/
def slots (w : Word) : List Word := (runs w.bytes).map ofBytes

/-- Reads a word from hex text. -/
def parse (text : String) : Except HexError Word :=
  (Hex.read text).map ofBytes

/-- Hex digits without leading zeros, at least one. -/
def shortDigits (w : Word) : List Char :=
  match (Hex.encode w.bytes).dropWhile (· == '0') with
  | [] => ['0']
  | digits => digits

/-- The literal shown to a reader: `0x` and the digits without leading zeros. -/
def literal (w : Word) : String := String.ofList ('0' :: 'x' :: w.shortDigits)

/-- The stored form: `0x` and every digit. -/
def fullText (w : Word) : String := Hex.marked w.bytes

theorem ofBytes_bytes (w : Word) : ofBytes w.bytes = w := by
  have h : slotBytes - w.bytes.length = 0 := by have := w.slot_le; omega
  exact ext (by simp [ofBytes, h])

theorem bytes_ofBytes (bytes : List UInt8) :
    (ofBytes bytes).bytes = List.replicate (slotBytes - bytes.length) 0 ++ bytes := rfl

theorem bytes_ofBytes_of_le {bytes : List UInt8} (h : slotBytes ≤ bytes.length) :
    (ofBytes bytes).bytes = bytes := by
  have h : slotBytes - bytes.length = 0 := by omega
  simp [ofBytes, h]

theorem length_bytes_ofBytes (bytes : List UInt8) :
    (ofBytes bytes).bytes.length = max slotBytes bytes.length := by
  simp [ofBytes]; omega

end Word

end TraceGloss
