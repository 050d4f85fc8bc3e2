import TraceGloss.Proofs.Decoder.Instructions
import TraceGloss.Proofs.Decoder.Log

/-
  Digests and their preimages.
  `Call.preimage?` is the window that a call shows for a digest: that of a readable hash with the digest
  on top of the next stack. The table of preimages keeps the last one shown (`preimage?_after`). The
  provenance has a record for each one that is not the digest itself (`production?_of_preimage?`), and
  no other record of a hash (`preimage?_of_production?`). So the two agree after any run
  (`preimages_agree`).
-/
namespace TraceGloss

/-- The window that a step hashes, if it is a hash and its window can be read. -/
def Step.hashed? (s : Step) : Option Word :=
  if s.op ∈ hashNames then s.windowBytes?.map Word.ofBytes else none

/-- The preimage that a call shows for a digest. -/
def Call.preimage? (digest : Word) : Call → Option Word
  | .decode s next => if fromTop? next 0 = some digest then s.hashed? else none
  | .render _ => none

/-! ## Steps that hash -/

theorem Opcode.stackEffect_eq_hash_iff {op : Opcode} : op.stackEffect = .hash ↔ op = .sha3 := by
  constructor
  · intro h
    cases op <;> first | rfl | cases h
  · rintro rfl
    rfl

namespace Step

variable {s : Step}

theorem mem_hashNames_iff : s.op ∈ hashNames ↔ s.opcode? = some .sha3 := by
  rw [← StackEffect.names_hash, StackEffect.mem_names_iff]
  simp [Opcode.stackEffect_eq_hash_iff, opcode?]

theorem hashed?_of_opcode? (h : s.opcode? = some .sha3) : s.hashed? = s.hashWindow? := by
  rw [hashed?, if_pos (mem_hashNames_iff.mpr h), hashWindow?_eq]

/-- A hash is recorded with its window as the only input. -/
theorem production?_of_hashed? {window : Word} (h : s.hashed? = some window) :
    s.production? = some ⟨.computed .sha3, [window]⟩ := by
  rw [hashed?, ← hashWindow?_eq] at h
  split at h
  · rename_i hmem
    rw [production?, mem_hashNames_iff.mp hmem, h]
    rfl
  · cases h

/-- Only hashes are recorded as hashes. -/
theorem hashed?_of_production? {p : Production} (h : s.production? = some p)
    (horigin : p.origin = .computed .sha3) :
    ∃ window, p.inputs = [window] ∧ s.hashed? = some window := by
  obtain ⟨op, hop, ⟨inputs, heffect, rfl⟩ | ⟨width, heffect, rfl⟩ | ⟨window, heffect, hwindow, rfl⟩⟩ :=
    production_cases h
  · cases horigin
    cases heffect
  · cases horigin
  · cases horigin
    exact ⟨window, rfl, (hashed?_of_opcode? hop).trans hwindow⟩

theorem reading_of_hashed? {window : Word} (h : s.hashed? = some window) (next : List Word) :
    reading? s next = some ⟨.sha3, [window], topWords next 1, some (.computed .sha3), true⟩ := by
  rw [hashed?, ← hashWindow?_eq] at h
  split at h
  · rename_i hmem
    rw [reading_of_hash (mem_hashNames_iff.mp hmem) rfl, h]
    rfl
  · cases h

theorem hashes_of_reading {next : List Word} {r : Reading} (hread : reading? s next = some r)
    (h : s.hashed? = none) : r.hashes = false := by
  obtain ⟨op, hop, hr⟩ := Option.bind_eq_some_iff.mp hread
  cases heffect : op.stackEffect with
  | hash =>
    rw [Opcode.stackEffect_eq_hash_iff] at heffect
    subst heffect
    rw [hashed?_of_opcode? hop] at h
    rw [reading_of_hash hop rfl, h] at hread
    cases hread
  | fixed inputs outputs derives | push width | dup n | swap n | log n =>
    simp only [heffect, Option.some.injEq] at hr
    rw [← hr]
  | unmodelled => simp [heffect] at hr

end Step

/-! ## The table -/

namespace Decoder

/-- A step adds to the table of preimages the window it hashes, for the digest behind it. -/
theorem preimages_decode (d : Decoder) (s : Step) (next : List Word) :
    (d.decode s next).2.preimages =
      match s.hashed?, fromTop? next 0 with
      | some window, some digest => d.preimages.insert digest window
      | _, _ => d.preimages := by
  cases hread : reading? s next with
  | none =>
    rw [decode_of_unread hread]
    cases hhashed : s.hashed? with
    | none => rfl
    | some window =>
      rw [Step.reading_of_hashed? hhashed] at hread
      cases hread
  | some r =>
    have hkept : (d.describe r).2.preimages = d.preimages := (d.renderAll_keeps r.operands).1
    rw [decode_of_reading hread]
    cases hhashed : s.hashed? with
    | none =>
      have hother := Step.hashes_of_reading hread hhashed
      simp only [learn, hother, hkept]
    | some window =>
      rw [Step.reading_of_hashed? hhashed] at hread
      cases hread
      simp only [learn, topWords_one]
      cases fromTop? next 0 <;> rfl

/-- After one call a digest has the preimage that the call shows, if any, and else the one it had. -/
theorem preimage?_call (d : Decoder) (c : Call) (digest : Word) :
    (d.call c).preimage? digest = (c.preimage? digest).or (d.preimage? digest) := by
  cases c with
  | render w => rfl
  | decode s next =>
    rw [call, preimage?, preimages_decode, Call.preimage?]
    cases hhashed : s.hashed? with
    | none => simp [preimage?]
    | some window =>
      cases htop : fromTop? next 0 with
      | none => simp [preimage?]
      | some top =>
        dsimp only
        rw [Std.HashMap.getElem?_insert]
        by_cases heq : top = digest
        · simp [heq]
        · simp [heq, preimage?]

/-- After a run a digest has the last preimage that was shown for it. -/
theorem preimage?_after (d : Decoder) (calls : List Call) (digest : Word) :
    (d.after calls).preimage? digest =
      (calls.filterMap (Call.preimage? digest)).getLast?.or (d.preimage? digest) := by
  induction calls generalizing d with
  | nil => rfl
  | cons c calls ih =>
    show ((d.call c).after calls).preimage? digest = _
    rw [ih, preimage?_call, List.filterMap_cons]
    cases c.preimage? digest with
    | none => rfl
    | some window =>
      rw [List.getLast?_cons]
      cases (calls.filterMap (Call.preimage? digest)).getLast? <;> rfl

end Decoder

/-! ## The records -/

variable {digest window : Word} {c : Call}

/-- A preimage that is shown is recorded, unless it is its own digest. -/
theorem production?_of_preimage? (h : c.preimage? digest = some window) (hne : window ≠ digest) :
    c.production? digest = some ⟨.computed .sha3, [window]⟩ := by
  cases c with
  | render w => cases h
  | decode s next =>
    rw [Call.preimage?] at h
    split at h
    · rename_i htop
      rw [Call.production?, if_pos htop, Step.production?_of_hashed? h]
      simp [Option.filter, Ne.symm hne]
    · cases h

/-- What is recorded as a hash has one input, a preimage that was shown and is not the digest. -/
theorem preimage?_of_production? {p : Production} (h : c.production? digest = some p)
    (horigin : p.origin = .computed .sha3) :
    ∃ window, p.inputs = [window] ∧ window ≠ digest ∧ c.preimage? digest = some window := by
  cases c with
  | render w => cases h
  | decode s next =>
    rw [Call.production?] at h
    split at h
    · rename_i htop
      obtain ⟨hproduction, hfree⟩ := Option.filter_eq_some_iff.mp h
      obtain ⟨window, hinputs, hhashed⟩ := Step.hashed?_of_production? hproduction horigin
      refine ⟨window, hinputs, ?_, by rw [Call.preimage?, if_pos htop, hhashed]⟩
      rintro rfl
      simp [hinputs] at hfree
    · cases h

namespace Decoder

/-- Preimages and provenance agree after any run. A digest has the preimage that was shown for it last;
unless that is the digest itself it is recorded as what the digest is the hash of; and whatever a word is
recorded to be the hash of is a single other word, and the word then has a preimage. -/
theorem preimages_agree (constants : List (String × Word)) (threshold : UInt64) (calls : List Call)
    (digest : Word) :
    let d := (new constants threshold).after calls
    d.preimage? digest = (calls.filterMap (Call.preimage? digest)).getLast? ∧
    (∀ window, d.preimage? digest = some window → window ≠ digest →
      ⟨.computed .sha3, [window]⟩ ∈ d.provenance.records digest) ∧
    ∀ r ∈ d.provenance.records digest, r.origin = .computed .sha3 →
      ∃ window, r.inputs = [window] ∧ window ≠ digest ∧ (d.preimage? digest).isSome := by
  intro d
  have htable : d.preimage? digest = (calls.filterMap (Call.preimage? digest)).getLast? := by
    have hnew : (new constants threshold).preimage? digest = none := Std.HashMap.getElem?_empty
    rw [preimage?_after, hnew, Option.or_none]
  have hrecords := records_after constants threshold calls digest
  refine ⟨htable, ?_, ?_⟩
  · intro window h hne
    rw [htable] at h
    obtain ⟨c, hc, hshown⟩ := List.mem_filterMap.mp (List.mem_of_getLast? h)
    rw [hrecords]
    exact List.mem_append_right _
      (List.mem_filterMap.mpr ⟨c, hc, production?_of_preimage? hshown hne⟩)
  · intro r hr horigin
    rw [hrecords] at hr
    rcases List.mem_append.mp hr with hr | hr
    · obtain ⟨constant, -, rfl⟩ := List.mem_map.mp hr
      cases horigin
    · obtain ⟨c, hc, hproduction⟩ := List.mem_filterMap.mp hr
      obtain ⟨window, hinputs, hne, hshown⟩ := preimage?_of_production? hproduction horigin
      have hmem := List.mem_filterMap.mpr ⟨c, hc, hshown⟩
      refine ⟨window, hinputs, hne, ?_⟩
      rw [htable, Option.isSome_iff_ne_none, Ne, List.getLast?_eq_none_iff]
      exact List.ne_nil_of_mem hmem

/-- A run that shows one digest for two windows. -/
def twoWindows : List Call :=
  [.decode { op := "KECCAK256", stack := [.ofUInt64 32, .zero], memory := some [.ofUInt64 7] }
      [.ofUInt64 5],
    .decode { op := "KECCAK256", stack := [.ofUInt64 32, .zero], memory := some [.ofUInt64 8] }
      [.ofUInt64 5]]

theorem preimages_agree_twoWindows :
    let d := (new [] defaultThreshold).after twoWindows
    d.preimage? (.ofUInt64 5) = some (.ofUInt64 8) ∧
      ⟨.computed .sha3, [.ofUInt64 8]⟩ ∈ d.provenance.records (.ofUInt64 5) := by
  intro d
  obtain ⟨hlast, hrecorded, -⟩ := preimages_agree [] defaultThreshold twoWindows (.ofUInt64 5)
  have hshown : (twoWindows.filterMap (Call.preimage? (.ofUInt64 5))).getLast? =
      some (.ofUInt64 8) := by decide +kernel
  rw [hshown] at hlast
  exact ⟨hlast, hrecorded _ hlast (by decide)⟩

end Decoder

end TraceGloss
