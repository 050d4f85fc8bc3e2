import Mathlib.Data.String.Basic
import TraceGloss.Proofs.Source.Positions

/-
  Bytes read leniently.
  A text that is cut inside a character is no text, but its bytes can still be read: what is there of
  the last character counts as one. `lenientLength` counts the characters that bytes are read as. The
  bytes of a character are a leading byte and bytes in the ranges that go with it
  (`exists_utf8EncodeChar_eq`), so a character counts once, whole or cut (`fitting_take`), and the
  bytes of a text up to an offset count the characters that begin before it (`lenientLength_take`).
-/
namespace TraceGloss.Text

/-- The ranges in which the bytes behind a leading byte have to be, in order. A byte that leads no
character, or is one alone, has none. -/
def followers (lead : Nat) : List (Nat × Nat) :=
  if lead < 0xc2 then []
  else if lead < 0xe0 then [(0x80, 0xbf)]
  else if lead < 0xf0 then
    [(if lead = 0xe0 then 0xa0 else 0x80, if lead = 0xed then 0x9f else 0xbf), (0x80, 0xbf)]
  else if lead < 0xf5 then
    [(if lead = 0xf0 then 0x90 else 0x80, if lead = 0xf4 then 0x8f else 0xbf), (0x80, 0xbf),
      (0x80, 0xbf)]
  else []

/-- Whether a byte is in a range. -/
def InRange (range : Nat × Nat) (b : UInt8) : Prop := range.1 ≤ b.toNat ∧ b.toNat ≤ range.2

instance (range : Nat × Nat) (b : UInt8) : Decidable (InRange range b) :=
  inferInstanceAs (Decidable (_ ∧ _))

/-- The number of bytes from the first on that are in ranges, one in each. -/
def fitting : List (Nat × Nat) → List UInt8 → Nat
  | range :: ranges, b :: rest => if InRange range b then fitting ranges rest + 1 else 0
  | _, _ => 0

/-- The number of characters that bytes are read as when none is refused. A leading byte counts once
with the bytes that fit behind it, whether or not they make a character, and any other byte counts
alone. -/
def lenientLength : List UInt8 → Nat
  | [] => 0
  | b :: rest => lenientLength (rest.drop (fitting (followers b.toNat) rest)) + 1
termination_by bytes => bytes.length
decreasing_by simp only [List.length_drop, List.length_cons]; omega

/-- The bytes of a text. -/
def bytes (content : String) : List UInt8 := content.toUTF8.data.toList

theorem bytes_eq (content : String) :
    bytes content = content.toList.flatMap String.utf8EncodeChar := by
  rw [bytes, String.toUTF8_eq_toByteArray, ← String.utf8Encode_toList, List.utf8Encode]
  simp

theorem toNat_byte {n : Nat} (h : n < 256) : (UInt8.ofNat n).toNat = n := UInt8.toNat_ofNat_of_lt' h

theorem inRange_byte {range : Nat × Nat} {n : Nat} (hbyte : n < 256) (hlow : range.1 ≤ n)
    (hhigh : n ≤ range.2) : InRange range (UInt8.ofNat n) := by
  rw [InRange, toNat_byte hbyte]
  exact ⟨hlow, hhigh⟩

/-- A byte that holds the last six bits of a number. -/
theorem inRange_six (n : Nat) : InRange (0x80, 0xbf) (UInt8.ofNat (n % 64 + 128)) :=
  inRange_byte (by omega) (by dsimp only; omega) (by dsimp only; omega)

/-- A character is a leading byte with a byte in each of its ranges. -/
theorem exists_utf8EncodeChar_eq (c : Char) :
    ∃ lead tail, String.utf8EncodeChar c = lead :: tail ∧
      List.Forall₂ InRange (followers lead.toNat) tail := by
  have hvalid : c.val.toNat < 0xd800 ∨ 0xdfff < c.val.toNat ∧ c.val.toNat < 0x110000 := c.valid
  unfold String.utf8EncodeChar
  dsimp only
  generalize c.val.toNat = v at hvalid
  split
  · refine ⟨_, _, rfl, ?_⟩
    rw [toNat_byte (by omega), followers, if_pos (by omega)]
    exact .nil
  · split
    · refine ⟨_, _, rfl, ?_⟩
      rw [toNat_byte (by omega), followers, if_neg (by omega), if_pos (by omega)]
      exact .cons (inRange_six v) .nil
    · split
      · -- Neither an overlong form nor a surrogate.
        refine ⟨_, _, rfl, ?_⟩
        rw [toNat_byte (by omega), followers, if_neg (by omega), if_neg (by omega),
          if_pos (by omega)]
        refine .cons (inRange_byte (by omega) ?_ ?_) (.cons (inRange_six v) .nil)
        · dsimp only
          split <;> omega
        · dsimp only
          split <;> omega
      · refine ⟨_, _, rfl, ?_⟩
        rw [toNat_byte (by omega), followers, if_neg (by omega), if_neg (by omega),
          if_neg (by omega), if_pos (by omega)]
        refine .cons (inRange_byte (by omega) ?_ ?_)
          (.cons (inRange_six (v / 64)) (.cons (inRange_six v) .nil))
        · dsimp only
          split <;> omega
        · dsimp only
          split <;> omega

/-- Of bytes that are cut, those of the first character fit as far as they are there. -/
theorem fitting_take {ranges : List (Nat × Nat)} {tail : List UInt8}
    (h : List.Forall₂ InRange ranges tail) (room : Nat) (rest : List UInt8) :
    fitting ranges ((tail ++ rest).take room) = min room tail.length := by
  induction h generalizing room with
  | nil => simp [fitting]
  | cons hfirst _ ih =>
    cases room with
    | zero => simp [fitting]
    | succ room =>
      rw [List.cons_append, List.take_succ_cons, fitting, if_pos hfirst, ih, List.length_cons]
      omega

/-- The bytes of a text up to an offset are read as a character for each that begins before it. -/
theorem lenientLength_take (offset : Nat) (text : List Char) :
    lenientLength ((text.flatMap String.utf8EncodeChar).take offset) =
      (before offset text).length := by
  induction text generalizing offset with
  | nil => cases offset <;> simp [before, lenientLength]
  | cons c text ih =>
    cases offset with
    | zero => simp [before, lenientLength]
    | succ offset =>
      obtain ⟨lead, tail, hbytes, hfollow⟩ := exists_utf8EncodeChar_eq c
      have hsize : c.utf8Size = tail.length + 1 := by
        rw [← String.length_utf8EncodeChar, hbytes, List.length_cons]
      have hdrop : ((tail ++ text.flatMap String.utf8EncodeChar).take offset).drop
          (min offset tail.length) =
            (text.flatMap String.utf8EncodeChar).take (offset - tail.length) := by
        rcases Nat.le_total offset tail.length with h | h
        · rw [Nat.min_eq_left h, Nat.sub_eq_zero_of_le h, List.take_zero]
          exact List.drop_eq_nil_of_le (List.length_take_le _ _)
        · rw [Nat.min_eq_right h, List.drop_take, List.drop_left]
      have hleft : offset + 1 - c.utf8Size = offset - tail.length := by omega
      rw [List.flatMap_cons, hbytes, List.cons_append, List.take_succ_cons, lenientLength,
        fitting_take hfollow, hdrop, ih, before, hleft, List.length_cons]

end TraceGloss.Text
