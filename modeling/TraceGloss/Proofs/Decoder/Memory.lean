import TraceGloss.Proofs.Decoder.Preimages
import TraceGloss.Proofs.Word.Value

/-
  The memory window of a hash.
  `cutWindow?` cuts a window out of memory with bounds that are checked: what memory holds of it is copied
  to the front of a buffer of zeros. No bound is ever outside (`cutWindow?_eq`). A hash has a window
  unless its stack is short or the window is out of reach (`windowBytes?_eq_none_iff`), and the step is
  shown by name only, and teaches nothing, exactly if it has none (`reads_window`).
-/
namespace TraceGloss

/-! ## Cutting with checked bounds -/

/-- The part of a list from one index up to another, if these are in order and inside the list. -/
def slice? {α : Type} (xs : List α) (start stop : Nat) : Option (List α) :=
  if start ≤ stop ∧ stop ≤ xs.length then some ((xs.drop start).take (stop - start)) else none

/-- A buffer with `part` copied to its front, if it is no longer than the buffer. -/
def overwrite? {α : Type} (buffer part : List α) : Option (List α) :=
  if part.length ≤ buffer.length then some (part ++ buffer.drop part.length) else none

/-- The bytes of a window of memory, zero behind its end; none if a bound is outside on the way. -/
def cutWindow? (memory : List UInt8) (offset size : Nat) : Option (List UInt8) :=
  if offset < memory.length then
    (slice? memory offset (min (offset + size) memory.length)).bind
      (overwrite? (List.replicate size 0))
  else some (List.replicate size 0)

/-- The part of a window that memory holds is inside memory and no longer than the window. -/
theorem slice?_window {memory : List UInt8} {offset : Nat} (h : offset < memory.length) (size : Nat) :
    slice? memory offset (min (offset + size) memory.length) = some ((memory.drop offset).take size) := by
  have hstop : min (offset + size) memory.length - offset = min size (memory.length - offset) := by
    omega
  rw [slice?, if_pos (by omega), hstop, ← List.length_drop, ← List.take_eq_take_min]

/-- No bound is ever outside, and byte `k` of the window is byte `offset + k` of memory. -/
theorem cutWindow?_eq (memory : List UInt8) (offset size : Nat) :
    cutWindow? memory offset size =
      some ((List.range size).map fun k => memory.getD (offset + k) 0) := by
  have hfits : ((memory.drop offset).take size).length ≤ size := List.length_take_le _ _
  rw [← window_append_replicate]
  unfold cutWindow?
  split
  · rename_i hinside
    rw [slice?_window hinside, Option.bind_some, overwrite?, List.length_replicate, if_pos hfits,
      List.drop_replicate]
  · rename_i hbehind
    rw [List.drop_eq_nil_of_le (Nat.le_of_not_lt hbehind), List.take_nil]
    rfl

/-! ## Which windows are read -/

/-- A window that is not read: its offset, its size or its end is no 64-bit number, or it is too long. -/
def OutOfReach (offset size : Word) : Prop :=
  2 ^ 64 ≤ offset.value ∨ 2 ^ 64 ≤ size.value ∨ maxPreimageBytes < size.value ∨
    2 ^ 64 ≤ offset.value + size.value

theorem exists_eq_append_pair {stack : List Word} (h : 2 ≤ stack.length) :
    ∃ rest size offset, stack = rest ++ [size, offset] := by
  rcases List.eq_nil_or_concat' stack with rfl | ⟨below, offset, rfl⟩
  · cases h
  · rcases List.eq_nil_or_concat' below with rfl | ⟨rest, size, rfl⟩
    · exact absurd h (Nat.not_succ_le_self 1)
    · exact ⟨rest, size, offset, by rw [List.append_assoc]; rfl⟩

namespace Step

variable {s : Step} {rest : List Word} {size offset : Word}

theorem windowBytes?_of_short (h : s.stack.length < 2) : s.windowBytes? = none := by
  have hnone : fromTop? s.stack 1 = none := by
    rw [fromTop?]
    exact List.getElem?_eq_none (by rw [List.length_reverse]; omega)
  unfold windowBytes?
  cases fromTop? s.stack 0 with
  | none => rfl
  | some top =>
    rw [hnone]
    simp

/-- The offset is the word on top, and the size the one below it. -/
theorem windowBytes?_of_stack (h : s.stack = rest ++ [size, offset]) :
    s.windowBytes? = offset.toUInt64?.bind fun first => size.toUInt64?.bind fun width =>
      if width.toNat ≤ maxPreimageBytes ∧ first.toNat + width.toNat < UInt64.size then
        some ((List.range width.toNat).map fun k => s.memoryImage.getD (first.toNat + k) 0)
      else none := by
  have htop : fromTop? s.stack 0 = some offset := by simp [fromTop?, h]
  have hbelow : fromTop? s.stack 1 = some size := by simp [fromTop?, h]
  rw [windowBytes?, htop, hbelow]
  rfl

theorem windowBytes?_of_outOfReach (h : s.stack = rest ++ [size, offset])
    (hreach : OutOfReach offset size) : s.windowBytes? = none := by
  rw [windowBytes?_of_stack h]
  cases hoffset : offset.toUInt64? with
  | none => rfl
  | some first =>
    cases hsize : size.toUInt64? with
    | none => rfl
    | some width =>
      have hfirst := Word.toUInt64?_eq_some_iff.mp hoffset
      have hwidth := Word.toUInt64?_eq_some_iff.mp hsize
      have hlimit : UInt64.size = 2 ^ 64 := rfl
      rw [OutOfReach, hfirst, hwidth] at hreach
      have := first.toNat_lt
      have := width.toNat_lt
      exact if_neg (by omega)

theorem windowBytes?_of_inReach (h : s.stack = rest ++ [size, offset])
    (hreach : ¬ OutOfReach offset size) :
    s.windowBytes? =
      some ((List.range size.value).map fun k => s.memoryImage.getD (offset.value + k) 0) := by
  simp only [OutOfReach, not_or, Nat.not_le, Nat.not_lt] at hreach
  obtain ⟨hoffset, hsize, hlong, hend⟩ := hreach
  have hfirst : (UInt64.ofNat offset.value).toNat = offset.value := UInt64.toNat_ofNat_of_lt' hoffset
  have hwidth : (UInt64.ofNat size.value).toNat = size.value := UInt64.toNat_ofNat_of_lt' hsize
  rw [windowBytes?_of_stack h, Word.toUInt64?_eq_some_iff.mpr hfirst.symm,
    Word.toUInt64?_eq_some_iff.mpr hwidth.symm, Option.bind_some, Option.bind_some, hfirst, hwidth,
    if_pos ⟨hlong, hend⟩]

theorem windowBytes?_eq_none_iff :
    s.windowBytes? = none ↔ s.stack.length < 2 ∨
      ∃ rest size offset, s.stack = rest ++ [size, offset] ∧ OutOfReach offset size := by
  constructor
  · intro h
    by_cases hshort : s.stack.length < 2
    · exact .inl hshort
    · obtain ⟨rest, size, offset, hstack⟩ := exists_eq_append_pair (Nat.le_of_not_lt hshort)
      refine .inr ⟨rest, size, offset, hstack, Classical.byContradiction fun hreach => ?_⟩
      rw [windowBytes?_of_inReach hstack hreach] at h
      cases h
  · rintro (hshort | ⟨rest, size, offset, hstack, hreach⟩)
    · exact windowBytes?_of_short hshort
    · exact windowBytes?_of_outOfReach hstack hreach

theorem exists_of_hashWindow? {window : Word} (h : s.hashWindow? = some window) :
    ∃ rest size offset, s.stack = rest ++ [size, offset] ∧
      window = Word.ofBytes
        ((List.range size.value).map fun k => s.memoryImage.getD (offset.value + k) 0) := by
  rw [hashWindow?_eq] at h
  have hread : s.windowBytes? ≠ none := by
    intro hnone
    rw [hnone] at h
    cases h
  obtain ⟨hlong, hreach⟩ := not_or.mp (mt windowBytes?_eq_none_iff.mpr hread)
  obtain ⟨rest, size, offset, hstack⟩ := exists_eq_append_pair (Nat.le_of_not_lt hlong)
  have hinReach : ¬ OutOfReach offset size := fun h => hreach ⟨rest, size, offset, hstack, h⟩
  rw [windowBytes?_of_inReach hstack hinReach, Option.map_some, Option.some.injEq] at h
  exact ⟨rest, size, offset, hstack, h.symm⟩

/-- Memory is the bytes of its words one behind the other; where there is none, it is empty. -/
theorem memoryImage_eq (s : Step) :
    s.memoryImage = ((s.memory.getD []).map Word.bytes).flatten := by
  unfold memoryImage
  cases s.memory with
  | none => rfl
  | some words => exact List.flatMap_def

/-- A step has no hash window exactly if its stack is short or the window is out of reach. Otherwise the
window is cut out of the bytes of the memory words without a bound outside, and is as many bytes as its
size says, with zeros in front of them if they fill no slot; byte `k` is byte `offset + k` of memory, or
zero behind its end. A hash is shown by name only exactly if it has no window, and then it leaves the
decoder as it was. -/
theorem reads_window (s : Step) :
    let memory := ((s.memory.getD []).map Word.bytes).flatten
    (s.hashWindow? = none ↔ s.stack.length < 2 ∨
      ∃ rest size offset, s.stack = rest ++ [size, offset] ∧ OutOfReach offset size) ∧
    (∀ window, s.hashWindow? = some window →
      ∃ rest size offset bytes, s.stack = rest ++ [size, offset] ∧
        cutWindow? memory offset.value size.value = some bytes ∧
        bytes.length = size.value ∧
        (∀ k < size.value, bytes[k]? = some (memory.getD (offset.value + k) 0)) ∧
        window.bytes = List.replicate (slotBytes - size.value) 0 ++ bytes) ∧
    (s.op ∈ hashNames → ∀ (d : Decoder) (next : List Word),
      ((d.decode s next).1.modelled = false ↔ s.hashWindow? = none) ∧
      (s.hashWindow? = none → d.decode s next = (⟨s.op, [], [], false⟩, d))) := by
  intro memory
  have hmemory : s.memoryImage = memory := memoryImage_eq s
  refine ⟨?_, ?_, ?_⟩
  · rw [hashWindow?_eq, Option.map_eq_none_iff]
    exact windowBytes?_eq_none_iff
  · intro window hwindow
    obtain ⟨rest, size, offset, hstack, rfl⟩ := exists_of_hashWindow? hwindow
    rw [hmemory]
    refine ⟨rest, size, offset, _, hstack, cutWindow?_eq _ _ _, ?_, ?_, ?_⟩
    · rw [List.length_map, List.length_range]
    · intro k hk
      rw [List.getElem?_map, List.getElem?_range hk, Option.map_some]
    · rw [Word.bytes_ofBytes, List.length_map, List.length_range]
  · intro hhash d next
    have hread := reading_of_hash (mem_hashNames_iff.mp hhash) rfl next
    cases hwindow : s.hashWindow? with
    | none =>
      rw [hwindow] at hread
      rw [Decoder.decode_of_unread hread]
      exact ⟨iff_of_true rfl rfl, fun _ => rfl⟩
    | some window =>
      rw [hwindow] at hread
      rw [Decoder.decode_of_reading hread]
      exact ⟨iff_of_false Bool.noConfusion nofun, nofun⟩

/-- A hash of 40 bytes, from the last byte of a word of 33 over the word behind it and past the end of
memory. -/
def straddling : Step :=
  { op := "SHA3"
    stack := [.ofUInt64 40, .ofUInt64 32]
    memory := some [.ofBytes (List.replicate 31 0 ++ [0xaa, 0xbb]), .ofUInt64 0xcc] }

theorem reads_window_straddling :
    straddling.hashWindow? =
      some (.ofBytes (0xbb :: (List.replicate 31 0 ++ 0xcc :: List.replicate 7 0))) ∧
    ((Decoder.new [] defaultThreshold).decode straddling []).1.modelled = true := by
  obtain ⟨hnone, hread, hdecode⟩ := reads_window straddling
  have hpair {rest : List Word} {size offset : Word} (h : straddling.stack = rest ++ [size, offset]) :
      size = .ofUInt64 40 ∧ offset = .ofUInt64 32 := by
    obtain ⟨-, htop⟩ := List.append_inj' (show [] ++ straddling.stack = _ from h) rfl
    cases htop
    exact ⟨rfl, rfl⟩
  have hsome : straddling.hashWindow? ≠ none := by
    rw [Ne, hnone]
    rintro (hshort | ⟨rest, size, offset, hstack, hreach⟩)
    · exact absurd hshort (by decide)
    · obtain ⟨rfl, rfl⟩ := hpair hstack
      exact absurd hreach (by unfold OutOfReach; decide +kernel)
  obtain ⟨window, hwindow⟩ := Option.ne_none_iff_exists'.mp hsome
  obtain ⟨rest, size, offset, bytes, hstack, hcut, -, -, hpadded⟩ := hread window hwindow
  obtain ⟨rfl, rfl⟩ := hpair hstack
  have hbytes : some bytes =
      some (0xbb :: (List.replicate 31 0 ++ 0xcc :: List.replicate 7 0)) := by
    rw [← hcut]
    decide +kernel
  obtain ⟨hmodelled, -⟩ := hdecode (by decide) (Decoder.new [] defaultThreshold) []
  refine ⟨?_, Bool.eq_true_of_not_eq_false (mt hmodelled.mp hsome)⟩
  rw [hwindow, Option.some.injEq]
  apply Word.ext
  rw [hpadded, Option.some.inj hbytes]
  decide +kernel

end Step

end TraceGloss
