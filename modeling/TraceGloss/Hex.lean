/-
  Hex text and byte strings.
  `encode` writes two lower-case digits per byte; `decode?` reads digits of either case, two per
  byte, and nothing else. `read` is the reader of stack words and accounts: it drops one leading
  `0x` and completes an odd run of digits with a zero in front. Big-endian values live here too.
  Main facts: `decode?_encode` (what was written is read back), `length_toBigEndian`.
-/
namespace TraceGloss

/-- Why a text is no word, account or transaction hash. -/
inductive HexError
  | invalidHex (text : String)
  | badLength (expected actual : Nat)
deriving DecidableEq, Repr, Inhabited

namespace HexError

def message : HexError → String
  | invalidHex text => "invalid hex value `" ++ text ++ "`"
  | badLength expected actual =>
    "expected " ++ toString expected ++ " bytes, got " ++ toString actual

end HexError

namespace Hex

/-- The lower-case digit of a number below sixteen. -/
def digit (n : Nat) : Char :=
  if n < 10 then Char.ofNat (48 + n) else Char.ofNat (87 + n)

/-- The number a hex digit stands for. -/
def value? (c : Char) : Option Nat :=
  if '0' ≤ c ∧ c ≤ '9' then some (c.toNat - 48)
  else if 'a' ≤ c ∧ c ≤ 'f' then some (c.toNat - 87)
  else if 'A' ≤ c ∧ c ≤ 'F' then some (c.toNat - 55)
  else none

def encode (bytes : List UInt8) : List Char :=
  bytes.flatMap fun b => [digit (b.toNat / 16), digit (b.toNat % 16)]

/-- Two digits a byte; an odd digit out, or any other character, is refused. -/
def decode? : List Char → Option (List UInt8)
  | [] => some []
  | [_] => none
  | h :: l :: rest =>
    match value? h, value? l, decode? rest with
    | some high, some low, some bytes => some (UInt8.ofNat (16 * high + low) :: bytes)
    | _, _, _ => none

theorem value?_digit {n : Nat} (h : n < 16) : value? (digit n) = some n := by
  have all : ∀ m : Fin 16, value? (digit m.val) = some m.val := by decide
  exact all ⟨n, h⟩

theorem decode?_encode (bytes : List UInt8) : decode? (encode bytes) = some bytes := by
  induction bytes with
  | nil => rfl
  | cons b rest ih =>
    have hb := b.toNat_lt
    have hhigh : value? (digit (b.toNat / 16)) = some (b.toNat / 16) := value?_digit (by omega)
    have hlow : value? (digit (b.toNat % 16)) = some (b.toNat % 16) := value?_digit (by omega)
    have hsplit : 16 * (b.toNat / 16) + b.toNat % 16 = b.toNat := Nat.div_add_mod _ _
    show decode? (digit (b.toNat / 16) :: digit (b.toNat % 16) :: encode rest) = some (b :: rest)
    rw [decode?, hhigh, hlow, ih]
    simp only [hsplit, UInt8.ofNat_toNat]

/-- The text without one leading `0x`. -/
def unmarked : List Char → List Char
  | '0' :: 'x' :: rest => rest
  | text => text

/-- An odd run of digits counts as if a zero stood in front. -/
def completed (digits : List Char) : List Char :=
  if digits.length % 2 = 1 then '0' :: digits else digits

/-- The bytes of a hex value, with or without `0x`, of any number of digits. -/
def read (text : String) : Except HexError (List UInt8) :=
  match decode? (completed (unmarked text.toList)) with
  | some bytes => .ok bytes
  | none => .error (.invalidHex text)

/-- The bytes of code, with or without `0x`, two digits each. -/
def readCode? (text : String) : Option (List UInt8) :=
  decode? (unmarked text.toList)

/-- The text of a byte string behind `0x`. -/
def marked (bytes : List UInt8) : String :=
  String.ofList ('0' :: 'x' :: encode bytes)

end Hex

/-- The number a byte string denotes, most significant byte first. -/
def bigEndian (bytes : List UInt8) : Nat :=
  bytes.foldl (fun v b => 256 * v + b.toNat) 0

/-- The last `width` base-256 digits of a number, most significant first. -/
def toBigEndian : Nat → Nat → List UInt8
  | 0, _ => []
  | width + 1, n => toBigEndian width (n / 256) ++ [UInt8.ofNat (n % 256)]

theorem length_toBigEndian (width n : Nat) : (toBigEndian width n).length = width := by
  induction width generalizing n with
  | zero => rfl
  | succ width ih => simp [toBigEndian, ih]

end TraceGloss
