import TraceGloss.Decoder

/-
  What the stacks and the memory show of a step.
  One lemma for each family of instructions whose results are recorded says how such a step is read
  (`reading_of_fixed`, `reading_of_push`, `reading_of_hash`). The window of a hash is the word of the
  bytes it reads, those behind the end of memory being zero (`hashWindow?_eq`).
-/
namespace TraceGloss

theorem topWords_one (stack : List Word) : topWords stack 1 = (fromTop? stack 0).toList := by
  rcases List.eq_nil_or_concat stack with rfl | ⟨rest, w, rfl⟩
  · rfl
  · simp [topWords, fromTop?]

/-- An instruction of fixed arity whose result is recorded has one result. -/
theorem Opcode.outputs_of_derives {op : Opcode} {inputs outputs : Nat}
    (h : op.stackEffect = .fixed inputs outputs true) : outputs = 1 := by
  cases op <;> simp [stackEffect] at h <;> omega

/-! ## Readings -/

variable {s : Step} {op : Opcode}

theorem reading_of_fixed {inputs outputs : Nat} {derives : Bool} (hop : s.opcode? = some op)
    (h : op.stackEffect = .fixed inputs outputs derives) (next : List Word) :
    reading? s next = some ⟨op, topWords s.stack inputs, topWords next outputs,
      if derives then some (.computed op) else none, false⟩ := by
  simp [reading?, hop, h]

theorem reading_of_push {width : Nat} (hop : s.opcode? = some op)
    (h : op.stackEffect = .push width) (next : List Word) :
    reading? s next = some ⟨op, [], topWords next 1, some (.pushed op), false⟩ := by
  simp [reading?, hop, h]

theorem reading_of_hash (hop : s.opcode? = some op) (h : op.stackEffect = .hash)
    (next : List Word) :
    reading? s next = s.hashWindow?.map fun window =>
      ⟨op, [window], topWords next 1, some (.computed op), true⟩ := by
  cases hwindow : s.hashWindow? <;> simp [reading?, hop, h, hwindow]

theorem opcode_of_reading {next : List Word} {r : Reading} (h : reading? s next = some r)
    (hop : s.opcode? = some op) : r.op = op := by
  simp only [reading?, hop, Option.bind_eq_bind, Option.bind_some] at h
  split at h
  · cases h; rfl
  · cases h; rfl
  · cases h; rfl
  · cases h; rfl
  · cases h; rfl
  · obtain ⟨window, -, hr⟩ := Option.bind_eq_some_iff.mp h
    cases hr
    rfl
  · cases h

/-! ## The window of a hash -/

/-- The bytes that a hash reads, if its window is readable. -/
def Step.windowBytes? (s : Step) : Option (List UInt8) := do
  let offset ← (← fromTop? s.stack 0).toUInt64?
  let size ← (← fromTop? s.stack 1).toUInt64?
  if size.toNat ≤ maxPreimageBytes ∧ offset.toNat + size.toNat < UInt64.size then
    some ((List.range size.toNat).map fun k => s.memoryImage.getD (offset.toNat + k) 0)
  else none

/-- A window of a byte string, padded with zeros, byte by byte. -/
theorem window_append_replicate (bytes : List UInt8) (offset size : Nat) :
    (bytes.drop offset).take size ++
        List.replicate (size - ((bytes.drop offset).take size).length) 0 =
      (List.range size).map fun k => bytes.getD (offset + k) 0 := by
  have hlength : ((bytes.drop offset).take size).length = min size (bytes.length - offset) := by
    rw [List.length_take, List.length_drop]
  apply List.ext_getElem
  · rw [List.length_append, List.length_replicate, List.length_map, List.length_range, hlength]
    omega
  · intro k hk hk'
    rw [List.length_map, List.length_range] at hk'
    rw [List.getElem_map, List.getElem_range, List.getElem_append]
    split
    · rename_i hin
      rw [hlength] at hin
      rw [List.getElem_take, List.getElem_drop, List.getD_eq_getElem?_getD,
        List.getElem?_eq_getElem (by omega), Option.getD_some]
    · rename_i hout
      rw [hlength] at hout
      rw [List.getElem_replicate, List.getD_eq_getElem?_getD,
        List.getElem?_eq_none (by omega), Option.getD_none]

theorem hashWindow?_eq (s : Step) : s.hashWindow? = s.windowBytes?.map Word.ofBytes := by
  rw [Step.hashWindow?, Step.windowBytes?]
  cases fromTop? s.stack 0 with
  | none => rfl
  | some top =>
    cases hoffset : top.toUInt64? with
    | none => simp [hoffset]
    | some offset =>
      cases fromTop? s.stack 1 with
      | none => simp
      | some below =>
        cases hsize : below.toUInt64? with
        | none => simp [hsize]
        | some size =>
          simp only [hoffset, hsize, Option.bind_eq_bind, Option.bind_some,
            window_append_replicate]
          split <;> rfl

end TraceGloss
