import TraceGloss.Account
import TraceGloss.Proofs.Word.Literal
import TraceGloss.Proofs.Word.Value

/-
  What is read off a word by its bytes, said by its number.
  Bytes of one width are in the order of their numbers (`lt_iff_bigEndian_lt`), so slot-sized words are
  (`lt_iff_value_lt`). The 64-bit reading and the threshold test see the value of a word of any width
  (`map_toUInt64?_eq_some_iff`, `isBelow_iff`), and its address is the value modulo `2 ^ 160`
  (`toAddress_eq_iff`). The slots are the runs of 32 bytes from the left (`slots_eq_map_range`), of which
  only the last can be short; with the width they give the word back (`eq_of_slots_eq`).
  Taken together that is `numeric_view`.
-/
namespace TraceGloss

/-! ## Numbers of byte strings -/

/-- The last bytes denote a remainder. -/
theorem bigEndian_drop (bytes : List UInt8) (n : Nat) :
    bigEndian (bytes.drop n) = bigEndian bytes % 256 ^ (bytes.length - n) := by
  have hsplit := bigEndian_append (bytes.take n) (bytes.drop n)
  have hlt := bigEndian_lt (bytes.drop n)
  rw [List.take_append_drop] at hsplit
  rw [List.length_drop] at hsplit hlt
  rw [hsplit, Nat.mul_add_mod_self_right, Nat.mod_eq_of_lt hlt]

/-- Of two numbers below `p` each, the ones in front of them decide first. -/
theorem mul_add_lt_mul_add_iff {p a b x y : Nat} (hx : x < p) (hy : y < p) :
    a * p + x < b * p + y ↔ a < b ∨ a = b ∧ x < y := by
  rcases Nat.lt_trichotomy a b with hlt | rfl | hgt
  · have hstep : (a + 1) * p ≤ b * p := Nat.mul_le_mul_right p hlt
    rw [Nat.succ_mul] at hstep
    exact iff_of_true (by omega) (.inl hlt)
  · rw [Nat.add_lt_add_iff_left]
    simp
  · have hstep : (b + 1) * p ≤ a * p := Nat.mul_le_mul_right p hgt
    rw [Nat.succ_mul] at hstep
    exact iff_of_false (by omega) (by omega)

/-- Byte strings of one width are in the order of their numbers. -/
theorem lt_iff_bigEndian_lt : ∀ {bytes bytes' : List UInt8}, bytes.length = bytes'.length →
    (bytes < bytes' ↔ bigEndian bytes < bigEndian bytes')
  | [], [], _ => iff_of_false (List.not_lt_nil _) (Nat.lt_irrefl _)
  | b :: bytes, b' :: bytes', h => by
    -- The first bytes decide, and where they agree the rest does.
    have hlength : bytes.length = bytes'.length := Nat.succ.inj h
    have hlt' := bigEndian_lt bytes'
    rw [← hlength] at hlt'
    rw [List.cons_lt_cons_iff, lt_iff_bigEndian_lt hlength, bigEndian_cons, bigEndian_cons, ← hlength,
      mul_add_lt_mul_add_iff (bigEndian_lt bytes) hlt', UInt8.lt_iff_toNat_lt, ← UInt8.toNat_inj]

namespace Word

variable {v w : Word}

/-- Words of one width are in the order of their values. -/
theorem lt_iff_value_lt (hlength : v.bytes.length = w.bytes.length) : v < w ↔ v.value < w.value :=
  lt_iff_bigEndian_lt hlength

/-! ## Readings in 64 bits -/

/-- A word is read as a 64-bit number exactly if its value is below `2 ^ 64`, and as that value. -/
theorem map_toUInt64?_eq_some_iff {n : Nat} :
    w.toUInt64?.map UInt64.toNat = some n ↔ w.value = n ∧ n < 2 ^ 64 := by
  rw [Option.map_eq_some_iff]
  constructor
  · rintro ⟨m, hm, rfl⟩
    exact ⟨toUInt64?_eq_some_iff.mp hm, m.toNat_lt⟩
  · rintro ⟨hvalue, hlt⟩
    have hback : (UInt64.ofNat n).toNat = n := UInt64.toNat_ofNat_of_lt' hlt
    exact ⟨UInt64.ofNat n, toUInt64?_eq_some_iff.mpr (hvalue.trans hback.symm), hback⟩

theorem le_value_of_toUInt64?_eq_none (h : w.toUInt64? = none) : 2 ^ 64 ≤ w.value := by
  by_contra hlt
  have hsome := map_toUInt64?_eq_some_iff.mpr ⟨rfl, Nat.lt_of_not_le hlt⟩
  rw [h] at hsome
  cases hsome

/-- The threshold test compares values. -/
theorem isBelow_iff {threshold : UInt64} :
    w.isBelow threshold = true ↔ w.value < threshold.toNat := by
  rw [isBelow]
  cases hread : w.toUInt64? with
  | none =>
    have hle := le_value_of_toUInt64?_eq_none hread
    have hlt := threshold.toNat_lt
    exact iff_of_false Bool.false_ne_true (by omega)
  | some n =>
    rw [toUInt64?_eq_some_iff.mp hread, ← UInt64.lt_iff_toNat_lt]
    exact decide_eq_true_iff

/-! ## Addresses -/

theorem bigEndian_toAddress (w : Word) : bigEndian w.toAddress.bytes = w.value % 2 ^ 160 := by
  have hslot : 32 ≤ w.bytes.length := w.slot_le
  have hwidth : w.bytes.length - (w.bytes.length - 20) = 20 := by omega
  rw [toAddress, bigEndian_drop, hwidth]
  rfl

/-- The address of a word is its value modulo `2 ^ 160`. -/
theorem toAddress_eq_iff {a : Address} :
    w.toAddress = a ↔ bigEndian a.bytes = w.value % 2 ^ 160 := by
  rw [← bigEndian_toAddress]
  constructor
  · rintro rfl
    rfl
  · intro h
    have hlength : w.toAddress.bytes.length = a.bytes.length := by
      rw [w.toAddress.length_bytes, a.length_bytes]
    exact FixedBytes.ext (eq_of_bigEndian_eq hlength h.symm)

theorem toAddress_toWord (a : Address) : a.toWord.toAddress = a := by
  have hlt : bigEndian a.bytes < 2 ^ 160 := by
    have := bigEndian_lt a.bytes
    rwa [a.length_bytes] at this
  rw [toAddress_eq_iff, Address.toWord, value_ofBytes, Nat.mod_eq_of_lt hlt]

/-! ## Slots -/

/-- The `k`-th run of slot width, as much of it as there is. -/
def runAt (bytes : List UInt8) (k : Nat) : List UInt8 := (bytes.drop (32 * k)).take 32

theorem runAt_succ (bytes : List UInt8) (k : Nat) : runAt bytes (k + 1) = runAt (bytes.drop 32) k := by
  rw [runAt, runAt, List.drop_drop, Nat.mul_succ, Nat.add_comm]

theorem runs_eq_map_range (bytes : List UInt8) :
    runs bytes = (List.range ((bytes.length + 31) / 32)).map (runAt bytes) := by
  fun_induction runs bytes with
  | case1 => rfl
  | case2 b rest ih =>
    -- One run more than behind the first slot, and each run one place further.
    have hcount : ((b :: rest).length + 31) / 32 =
        (((b :: rest).drop 32).length + 31) / 32 + 1 := by
      rw [List.length_drop, List.length_cons]
      omega
    rw [ih, hcount, List.range_succ_eq_map, List.map_cons, List.map_map]
    congr 1
    exact List.map_congr_left fun k _ => (runAt_succ (b :: rest) k).symm

/-- Padding tells byte strings of one width apart. -/
theorem eq_of_ofBytes_eq {run run' : List UInt8} (hlength : run.length = run'.length)
    (h : ofBytes run = ofBytes run') : run = run' := by
  have hbytes := congrArg bytes h
  rw [bytes_ofBytes, bytes_ofBytes, hlength] at hbytes
  exact List.append_cancel_left hbytes

theorem slots_eq_map_range (w : Word) :
    w.slots = (List.range ((w.bytes.length + 31) / 32)).map fun k => ofBytes (runAt w.bytes k) := by
  rw [slots, runs_eq_map_range, List.map_map]
  rfl

theorem length_slots (w : Word) : w.slots.length = (w.bytes.length + 31) / 32 := by
  rw [slots_eq_map_range, List.length_map, List.length_range]

theorem getElem?_slots {k : Nat} (h : 32 * k < w.bytes.length) :
    w.slots[k]? = some (ofBytes (runAt w.bytes k)) := by
  have hk : k < (w.bytes.length + 31) / 32 := by omega
  rw [slots_eq_map_range, List.getElem?_map, List.getElem?_range hk, Option.map_some]

/-- A run that is all there is its slot. -/
theorem map_bytes_slots_of_le {k : Nat} (h : 32 * k + 32 ≤ w.bytes.length) :
    w.slots[k]?.map bytes = some ((w.bytes.drop (32 * k)).take 32) := by
  have hfull : slotBytes ≤ (runAt w.bytes k).length := by
    rw [runAt, List.length_take, List.length_drop, slotBytes]
    omega
  rw [getElem?_slots (by omega), Option.map_some, bytes_ofBytes_of_le hfull, runAt]

/-- A short run is what is left, behind zeros. -/
theorem map_bytes_slots_of_lt {k : Nat} (h : 32 * k < w.bytes.length)
    (hshort : w.bytes.length < 32 * k + 32) :
    w.slots[k]?.map bytes =
      some (List.replicate (32 * k + 32 - w.bytes.length) 0 ++ w.bytes.drop (32 * k)) := by
  have hrest : runAt w.bytes k = w.bytes.drop (32 * k) := by
    refine List.take_of_length_le ?_
    rw [List.length_drop]
    omega
  have hzeros : slotBytes - (w.bytes.drop (32 * k)).length = 32 * k + 32 - w.bytes.length := by
    rw [List.length_drop, slotBytes]
    omega
  rw [getElem?_slots h, Option.map_some, hrest, bytes_ofBytes, hzeros]

/-- The slots and the width give the word back. -/
theorem eq_of_slots_eq (hslots : v.slots = w.slots) (hlength : v.bytes.length = w.bytes.length) :
    v = w := by
  rw [slots_eq_map_range, slots_eq_map_range, hlength, List.map_inj_left] at hslots
  have hruns : runs v.bytes = runs w.bytes := by
    rw [runs_eq_map_range, runs_eq_map_range, hlength]
    refine List.map_congr_left fun k hk => eq_of_ofBytes_eq ?_ (hslots k hk)
    rw [runAt, runAt, List.length_take, List.length_take, List.length_drop, List.length_drop, hlength]
  apply ext
  rw [← flatten_runs v.bytes, hruns, flatten_runs]

/-- Words as numbers. Bytes denote a number in base 256, the first one counting most. For a word of any
width, the 64-bit reading is its value if that is below `2 ^ 64` and nothing otherwise, the threshold
test compares its value, and its address is its value modulo `2 ^ 160`; so an address is given back by
its word. Slot-sized words are ordered and told apart by their values. A word is cut into slots, one for
each 32 bytes begun: each run of 32 bytes is one as it stands, and a shorter last run is padded in front.
The slots and the width determine the word. -/
theorem numeric_view :
    (∀ bytes : List UInt8, bigEndian bytes = Nat.ofDigits 256 (bytes.map UInt8.toNat).reverse) ∧
    (∀ w : Word,
      (∀ n : Nat, w.toUInt64?.map UInt64.toNat = some n ↔ w.value = n ∧ n < 2 ^ 64) ∧
      (∀ threshold : UInt64, w.isBelow threshold = true ↔ w.value < threshold.toNat) ∧
      ∀ a : Address, w.toAddress = a ↔ bigEndian a.bytes = w.value % 2 ^ 160) ∧
    (∀ a : Address, a.toWord.toAddress = a) ∧
    (∀ v w : Word, v.isWide = false → w.isWide = false →
      (v < w ↔ v.value < w.value) ∧ (v = w ↔ v.value = w.value)) ∧
    (∀ w : Word,
      w.slots.length = (w.bytes.length + 31) / 32 ∧
      (∀ s ∈ w.slots, s.bytes.length = 32) ∧
      (∀ k, 32 * k + 32 ≤ w.bytes.length →
        w.slots[k]?.map bytes = some ((w.bytes.drop (32 * k)).take 32)) ∧
      ∀ k, 32 * k < w.bytes.length → w.bytes.length < 32 * k + 32 →
        w.slots[k]?.map bytes =
          some (List.replicate (32 * k + 32 - w.bytes.length) 0 ++ w.bytes.drop (32 * k))) ∧
    Function.Injective fun w : Word => (w.slots, w.bytes.length) := by
  refine ⟨bigEndian_eq_ofDigits, fun w => ⟨fun _ => map_toUInt64?_eq_some_iff,
    fun _ => isBelow_iff, fun _ => toAddress_eq_iff⟩, toAddress_toWord, ?_, fun w => ⟨length_slots w,
    fun s hs => isWide_eq_false_iff.mp (isWide_of_mem_slots hs), fun _ => map_bytes_slots_of_le,
    fun _ => map_bytes_slots_of_lt⟩, ?_⟩
  · intro v w hv hw
    have hlength : v.bytes.length = w.bytes.length := by
      rw [isWide_eq_false_iff.mp hv, isWide_eq_false_iff.mp hw]
    exact ⟨lt_iff_value_lt hlength, eq_iff_value_eq hlength⟩
  · intro v w h
    obtain ⟨hslots, hlength⟩ := Prod.mk.inj h
    exact eq_of_slots_eq hslots hlength

/-- A word of forty bytes, with 7 at the end of its first slot and 9 at its own end. -/
def shortLast : Word := ofBytes (List.replicate 31 0 ++ 7 :: List.replicate 7 0 ++ [9])

/-- The last slot is eight bytes padded. Of the two words in order, the first has the greater last byte. -/
theorem numeric_view_shortLast :
    ((ofUInt64 255).isWide = false ∧ (ofUInt64 256).isWide = false ∧ ofUInt64 255 < ofUInt64 256) ∧
    (32 * 0 + 32 ≤ shortLast.bytes.length ∧
      shortLast.slots[0]?.map bytes = some (ofUInt64 7).bytes) ∧
    (32 * 1 < shortLast.bytes.length ∧ shortLast.bytes.length < 32 * 1 + 32 ∧
      shortLast.slots[1]?.map bytes = some (ofUInt64 9).bytes) ∧
    (ofUInt64 9 ∈ shortLast.slots ∧ (ofUInt64 9).bytes.length = 32) := by
  obtain ⟨-, -, -, horder, hslots, -⟩ := numeric_view
  obtain ⟨-, hwidth, hfull, hshort⟩ := hslots shortLast
  have hfirst : shortLast.slots[0]?.map bytes = some (ofUInt64 7).bytes :=
    (hfull 0 (by decide)).trans (by decide)
  have hlast : shortLast.slots[1]?.map bytes = some (ofUInt64 9).bytes :=
    (hshort 1 (by decide) (by decide)).trans (by decide)
  have hmem : ofUInt64 9 ∈ shortLast.slots := by
    obtain ⟨s, hs, hbytes⟩ := Option.map_eq_some_iff.mp hlast
    exact ext hbytes ▸ List.mem_of_getElem? hs
  have hlt := (horder (ofUInt64 255) (ofUInt64 256) (by decide) (by decide)).1.mpr (by decide)
  exact ⟨⟨by decide, by decide, hlt⟩, ⟨by decide, hfirst⟩, ⟨by decide, by decide, hlast⟩, hmem,
    hwidth _ hmem⟩

end Word

end TraceGloss
