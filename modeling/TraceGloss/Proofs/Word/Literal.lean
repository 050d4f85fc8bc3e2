import TraceGloss.Word

/-
  Literals read back.
  A literal leaves out leading zero digits, at most all but one. Reading completes an odd run of digits
  and pads the bytes in front (`parse_literal_eq`), so a slot-sized word is read back from its literal
  (`parse_literal`).
  The stored form keeps all digits, and any word is read back from it (`parse_fullText`).
  The slots of a word are slot-sized themselves (`isWide_of_mem_slots`).
-/
namespace TraceGloss

namespace Hex

theorem encode_cons (b : UInt8) (bytes : List UInt8) :
    encode (b :: bytes) = digit (b.toNat / 16) :: digit (b.toNat % 16) :: encode bytes := rfl

theorem length_encode (bytes : List UInt8) : (encode bytes).length = 2 * bytes.length := by
  induction bytes with
  | nil => rfl
  | cons b bytes ih => rw [encode_cons, List.length_cons, List.length_cons, ih, List.length_cons]; omega

theorem digit_eq_zero_iff {n : Nat} (h : n < 16) : digit n = '0' ↔ n = 0 := by
  have all : ∀ m : Fin 16, digit m.val = '0' ↔ m.val = 0 := by decide
  exact all ⟨n, h⟩

theorem completed_encode (bytes : List UInt8) : completed (encode bytes) = encode bytes := by
  have heven : ¬ (encode bytes).length % 2 = 1 := by rw [length_encode]; omega
  rw [completed, if_neg heven]

/-- Digits without leading zeros are read as the bytes without leading zero bytes. -/
theorem decode?_completed_dropWhile (bytes : List UInt8) :
    decode? (completed ((encode bytes).dropWhile (· == '0'))) =
      some (bytes.dropWhile (· == 0)) := by
  induction bytes with
  | nil => rfl
  | cons b rest ih =>
    have hb := b.toNat_lt
    have hhigh : digit (b.toNat / 16) = '0' ↔ b.toNat / 16 = 0 := digit_eq_zero_iff (by omega)
    have hlow : digit (b.toNat % 16) = '0' ↔ b.toNat % 16 = 0 := digit_eq_zero_iff (by omega)
    have hzero : b = 0 ↔ b.toNat = 0 := by rw [← UInt8.toNat_inj]; rfl
    by_cases hfirst : b.toNat / 16 = 0
    · by_cases hsecond : b.toNat % 16 = 0
      · -- Both digits go, and so does the byte.
        have hbyte : b = 0 := hzero.mpr (by omega)
        rw [encode_cons, List.dropWhile_cons_of_pos (by simpa using hhigh.mpr hfirst),
          List.dropWhile_cons_of_pos (by simpa using hlow.mpr hsecond), ih,
          List.dropWhile_cons_of_pos (by simpa using hbyte)]
      · -- One digit goes, and completing puts it back.
        have hbyte : b ≠ 0 := fun h => hsecond (by rw [hzero.mp h])
        have hodd : (digit (b.toNat % 16) :: encode rest).length % 2 = 1 := by
          rw [List.length_cons, length_encode]
          omega
        rw [encode_cons, List.dropWhile_cons_of_pos (by simpa using hhigh.mpr hfirst),
          List.dropWhile_cons_of_neg (by simpa using mt hlow.mp hsecond), completed, if_pos hodd,
          ← hhigh.mpr hfirst, ← encode_cons, decode?_encode,
          List.dropWhile_cons_of_neg (by simpa using hbyte)]
    · have hbyte : b ≠ 0 := fun h => hfirst (by rw [hzero.mp h])
      rw [encode_cons, List.dropWhile_cons_of_neg (by simpa using mt hhigh.mp hfirst),
        ← encode_cons, completed_encode, decode?_encode,
        List.dropWhile_cons_of_neg (by simpa using hbyte)]

end Hex

namespace Word

theorem isWide_eq_false_iff {w : Word} : w.isWide = false ↔ w.bytes.length = slotBytes := by
  have hle := w.slot_le
  rw [isWide, decide_eq_false_iff_not]
  omega

/-- Padding puts leading zero bytes back. -/
theorem ofBytes_dropWhile {w : Word} (h : w.isWide = false) :
    ofBytes (w.bytes.dropWhile (· == 0)) = w := by
  have hlength := isWide_eq_false_iff.mp h
  have hsplit : w.bytes.takeWhile (· == 0) ++ w.bytes.dropWhile (· == 0) = w.bytes :=
    List.takeWhile_append_dropWhile
  have hzeros : w.bytes.takeWhile (· == 0) =
      List.replicate (slotBytes - (w.bytes.dropWhile (· == 0)).length) 0 := by
    rw [List.eq_replicate_iff]
    have hall : (w.bytes.takeWhile (· == 0)).all (· == 0) = true := List.all_takeWhile
    refine ⟨?_, fun b hb => by simpa using List.all_eq_true.mp hall b hb⟩
    have hsum := congrArg List.length hsplit
    rw [List.length_append] at hsum
    omega
  apply ext
  rw [bytes_ofBytes, ← hzeros, hsplit]

/-- A literal is read as the bytes behind the leading zero bytes, padded to a slot. -/
theorem parse_literal_eq (w : Word) :
    parse w.literal = .ok (ofBytes (w.bytes.dropWhile (· == 0))) := by
  have hdecode := Hex.decode?_completed_dropWhile w.bytes
  have htext : Hex.unmarked w.literal.toList = w.shortDigits := by
    rw [literal, String.toList_ofList, Hex.unmarked]
  rw [parse, Hex.read, htext, shortDigits]
  cases hdigits : (Hex.encode w.bytes).dropWhile (· == '0') with
  | nil =>
    -- All digits are zeros: the one that is left is a byte of the padding.
    rw [hdigits] at hdecode
    have hzero : w.bytes.dropWhile (· == 0) = [] := (Option.some.inj hdecode).symm
    rw [hzero]
    rfl
  | cons d rest =>
    rw [hdigits] at hdecode
    dsimp only
    rw [hdecode]
    rfl

/-- A slot-sized word is read back from its literal. -/
theorem parse_literal {w : Word} (h : w.isWide = false) : parse w.literal = .ok w := by
  rw [parse_literal_eq, ofBytes_dropWhile h]

/-- Every word is read back from its stored form. -/
theorem parse_fullText (w : Word) : parse w.fullText = .ok w := by
  have htext : Hex.unmarked w.fullText.toList = Hex.encode w.bytes := by
    rw [fullText, Hex.marked, String.toList_ofList, Hex.unmarked]
  rw [parse, Hex.read, htext, Hex.completed_encode, Hex.decode?_encode, Except.map, ofBytes_bytes]

/-! ## Slots -/

theorem length_of_mem_runs {bytes run : List UInt8} (h : run ∈ runs bytes) :
    run.length ≤ slotBytes := by
  induction bytes using runs.induct with
  | case1 => simp [runs] at h
  | case2 b rest ih =>
    rw [runs] at h
    rcases List.mem_cons.mp h with rfl | h
    · exact List.length_take_le ..
    · exact ih h

theorem isWide_of_mem_slots {v w : Word} (h : v ∈ w.slots) : v.isWide = false := by
  obtain ⟨run, hrun, rfl⟩ := List.mem_map.mp h
  rw [isWide_eq_false_iff, length_bytes_ofBytes]
  exact Nat.max_eq_left (length_of_mem_runs hrun)

end Word

end TraceGloss
