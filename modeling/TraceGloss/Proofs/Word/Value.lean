import Mathlib.Data.Nat.Digits.Lemmas
import TraceGloss.Word

/-
  Words as numbers.
  A byte string denotes its digits in base 256 (`bigEndian_eq_ofDigits`). Zeros in front add nothing
  (`value_ofBytes`), and byte strings of one width with one number are the same (`eq_of_bigEndian_eq`),
  so a word is told by its width and its value (`eq_iff_value_eq`). A word of any width is read as a
  64-bit number exactly if its value is one (`toUInt64?_eq_some_iff`).
-/
namespace TraceGloss

/-- A digit in front counts by its place. -/
theorem ofDigits_reverse_cons (base digit : Nat) (digits : List Nat) :
    Nat.ofDigits base (digit :: digits).reverse =
      digit * base ^ digits.length + Nat.ofDigits base digits.reverse := by
  rw [List.reverse_cons, Nat.ofDigits_append, List.length_reverse, Nat.ofDigits_singleton,
    Nat.add_comm, Nat.mul_comm]

theorem bigEndian_eq_ofDigits (bytes : List UInt8) :
    bigEndian bytes = Nat.ofDigits 256 (bytes.map UInt8.toNat).reverse := by
  rw [Nat.ofDigits_eq_foldr, List.foldr_reverse, List.foldl_map]
  unfold bigEndian
  congr 1
  funext v b
  rw [Nat.cast_id, Nat.add_comm]

theorem bigEndian_append (front back : List UInt8) :
    bigEndian (front ++ back) = bigEndian front * 256 ^ back.length + bigEndian back := by
  simp only [bigEndian_eq_ofDigits, List.map_append, List.reverse_append, Nat.ofDigits_append,
    List.length_reverse, List.length_map]
  rw [Nat.add_comm, Nat.mul_comm]

theorem bigEndian_cons (b : UInt8) (bytes : List UInt8) :
    bigEndian (b :: bytes) = b.toNat * 256 ^ bytes.length + bigEndian bytes := by
  have hsingle : bigEndian [b] = b.toNat := by simp [bigEndian]
  rw [← List.singleton_append, bigEndian_append, hsingle]

theorem bigEndian_replicate_zero (n : Nat) : bigEndian (List.replicate n 0) = 0 := by
  rw [bigEndian_eq_ofDigits, List.map_replicate, List.reverse_replicate]
  exact Nat.ofDigits_replicate_zero

theorem lt_of_mem_digits {bytes : List UInt8} {d : Nat} (h : d ∈ (bytes.map UInt8.toNat).reverse) :
    d < 256 := by
  obtain ⟨b, -, rfl⟩ := List.mem_map.mp (List.mem_reverse.mp h)
  exact b.toNat_lt

theorem bigEndian_lt (bytes : List UInt8) : bigEndian bytes < 256 ^ bytes.length := by
  have hdigits : ∀ d ∈ (bytes.map UInt8.toNat).reverse, d < 256 := fun _ => lt_of_mem_digits
  have h := Nat.ofDigits_lt_base_pow_length (by decide) hdigits
  rwa [← bigEndian_eq_ofDigits, List.length_reverse, List.length_map] at h

/-- The digits of a number denote it, as far as there is room for it. -/
theorem bigEndian_toBigEndian (width n : Nat) :
    bigEndian (toBigEndian width n) = n % 256 ^ width := by
  induction width generalizing n with
  | zero => exact (Nat.mod_one n).symm
  | succ width ih =>
    have hdigit : (UInt8.ofNat (n % 256)).toNat = n % 256 :=
      UInt8.toNat_ofNat_of_lt' (Nat.mod_lt n (by decide))
    have hlast : bigEndian [UInt8.ofNat (n % 256)] = n % 256 := by simp [bigEndian]
    rw [toBigEndian, bigEndian_append, ih, hlast, List.length_singleton, Nat.pow_one,
      Nat.pow_succ', Nat.mod_mul, Nat.mul_comm, Nat.add_comm]

theorem bigEndian_eq_zero_iff (bytes : List UInt8) : bigEndian bytes = 0 ↔ ∀ b ∈ bytes, b = 0 := by
  induction bytes with
  | nil => exact ⟨fun _ => List.forall_mem_nil _, fun _ => rfl⟩
  | cons b bytes ih =>
    have hpower : 256 ^ bytes.length ≠ 0 := (Nat.pow_pos (by decide)).ne'
    rw [bigEndian_cons, Nat.add_eq_zero_iff, Nat.mul_eq_zero, or_iff_left hpower, ih,
      List.forall_mem_cons, ← UInt8.toNat_inj]
    rfl

/-- Byte strings of one width are told apart by their numbers. -/
theorem eq_of_bigEndian_eq {bytes bytes' : List UInt8} (hlength : bytes.length = bytes'.length)
    (h : bigEndian bytes = bigEndian bytes') : bytes = bytes' := by
  rw [bigEndian_eq_ofDigits, bigEndian_eq_ofDigits] at h
  have hreverse := Nat.ofDigits_inj_of_len_eq (by decide) (by simpa using hlength)
    (fun _ => lt_of_mem_digits) (fun _ => lt_of_mem_digits) h
  have hmap := List.reverse_injective hreverse
  exact List.map_injective_iff.mpr (fun _ _ => UInt8.toNat_inj.mp) hmap

namespace Word

/-- Padding leaves the number alone. -/
theorem value_ofBytes (bytes : List UInt8) : (ofBytes bytes).value = bigEndian bytes := by
  rw [value, bytes_ofBytes, bigEndian_append, bigEndian_replicate_zero, Nat.zero_mul, Nat.zero_add]

/-- Words of one width are equal if and only if they denote the same number. -/
theorem eq_iff_value_eq {v w : Word} (hlength : v.bytes.length = w.bytes.length) :
    v = w ↔ v.value = w.value :=
  ⟨congrArg value, fun h => ext (eq_of_bigEndian_eq hlength h)⟩

/-- A word is read as a 64-bit number exactly if that is its value. -/
theorem toUInt64?_eq_some_iff {w : Word} {n : UInt64} : w.toUInt64? = some n ↔ w.value = n.toNat := by
  let high := w.bytes.take (w.bytes.length - 8)
  let low := w.bytes.drop (w.bytes.length - 8)
  have hlength : low.length = 8 := by
    have hslot : 32 ≤ w.bytes.length := w.slot_le
    rw [List.length_drop]
    omega
  have hvalue : w.value = bigEndian high * 2 ^ 64 + bigEndian low := by
    rw [value, ← List.take_append_drop (w.bytes.length - 8) w.bytes, bigEndian_append, hlength]
    rfl
  have hlow : bigEndian low < 2 ^ 64 := by
    have := bigEndian_lt low
    rwa [hlength] at this
  have hzero : high.all (· == 0) = true ↔ bigEndian high = 0 := by
    rw [bigEndian_eq_zero_iff, List.all_eq_true]
    exact forall₂_congr fun b _ => beq_iff_eq
  show (if high.all (· == 0) then some (UInt64.ofNat (bigEndian low)) else none) = some n ↔ _
  by_cases h : bigEndian high = 0
  · rw [if_pos (hzero.mpr h), hvalue, h, Nat.zero_mul, Nat.zero_add, Option.some.injEq,
      ← UInt64.toNat_inj, UInt64.toNat_ofNat_of_lt' hlow]
  · rw [if_neg (mt hzero.mp h)]
    have := n.toNat_lt
    exact iff_of_false nofun (by omega)

end Word

end TraceGloss
