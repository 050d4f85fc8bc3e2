import TraceGloss.Word

/-
  Account addresses and transaction hashes: byte strings of one fixed width, read from hex text of
  exactly that many bytes and written behind `0x` with every digit.
-/
namespace TraceGloss

/-- A byte string of width `n`. -/
structure FixedBytes (n : Nat) where
  bytes : List UInt8
  length_bytes : bytes.length = n
deriving DecidableEq

/-- A 20-byte account address. -/
abbrev Address := FixedBytes 20

/-- A 32-byte transaction hash. -/
abbrev TxHash := FixedBytes 32

namespace FixedBytes

variable {n : Nat}

theorem ext {a b : FixedBytes n} (h : a.bytes = b.bytes) : a = b := by
  cases a; cases b; cases h; rfl

instance : Hashable (FixedBytes n) := ⟨fun a => hash a.bytes⟩

instance : LT (FixedBytes n) := ⟨fun a b => a.bytes < b.bytes⟩

instance (a b : FixedBytes n) : Decidable (a < b) :=
  inferInstanceAs (Decidable (a.bytes < b.bytes))

/-- The all-zero string. -/
def zero : FixedBytes n := ⟨List.replicate n 0, by simp⟩

instance : Inhabited (FixedBytes n) := ⟨zero⟩

/-- The string of `n` bytes, or why a list of bytes is none. -/
def ofBytes (bytes : List UInt8) : Except HexError (FixedBytes n) :=
  if h : bytes.length = n then .ok ⟨bytes, h⟩ else .error (.badLength n bytes.length)

/-- Reads a string of `n` bytes from hex text. -/
def parse (text : String) : Except HexError (FixedBytes n) :=
  (Hex.read text).bind ofBytes

/-- The text: `0x` and every digit. -/
def text (a : FixedBytes n) : String := Hex.marked a.bytes

end FixedBytes

/-- The address as a stack word. -/
def Address.toWord (a : Address) : Word := Word.ofBytes a.bytes

/-- The account address held in the low 20 bytes of the word. -/
def Word.toAddress (w : Word) : Address where
  bytes := w.bytes.drop (w.bytes.length - 20)
  length_bytes := by have := w.slot_le; simp only [List.length_drop, slotBytes] at *; omega

end TraceGloss
