import TraceGloss.Proofs.Decoder.Reading
import TraceGloss.Proofs.Decoder.Run

/-
  The provenance of a decoder as the log of its run.
  `Step.production?` says what a step is recorded as, and `Call.production?` for which word: the one on
  top of the stack behind the step, unless it is an operand. `records_after` lists the records of a
  word after any run, and `decode_after` says what one more step is described as and what it leaves.
-/
namespace TraceGloss

open Provenance

/-- What a step is recorded as, once its result is seen. -/
def Step.production? (s : Step) : Option Production :=
  s.opcode?.bind fun op =>
    match op.stackEffect with
    | .fixed inputs _ true => some ⟨.computed op, topWords s.stack inputs⟩
    | .push _ => some ⟨.pushed op, []⟩
    | .hash => s.hashWindow?.map fun window => ⟨.computed op, [window]⟩
    | _ => none

/-- The production of `w` that a call records. -/
def Call.production? (w : Word) : Call → Option Production
  | .decode s next =>
    if fromTop? next 0 = some w then s.production?.filter (w ∉ ·.inputs) else none
  | .render _ => none

/-! ## Steps that are recorded -/

variable {s : Step}

/-- The instructions that are recorded, and as what: those of fixed arity with one result that is
derived from the operands, pushes, and hashes of a readable window. -/
theorem production_cases {p : Production} (h : s.production? = some p) :
    ∃ op, s.opcode? = some op ∧
      ((∃ inputs, op.stackEffect = .fixed inputs 1 true ∧
          p = ⟨.computed op, topWords s.stack inputs⟩) ∨
        (∃ width, op.stackEffect = .push width ∧ p = ⟨.pushed op, []⟩) ∨
        ∃ window, op.stackEffect = .hash ∧ s.hashWindow? = some window ∧
          p = ⟨.computed op, [window]⟩) := by
  obtain ⟨op, hop, hp⟩ := Option.bind_eq_some_iff.mp h
  refine ⟨op, hop, ?_⟩
  cases heffect : op.stackEffect with
  | fixed inputs outputs derives =>
    cases derives <;> simp only [heffect, Option.some.injEq, reduceCtorEq] at hp
    have hone := Opcode.outputs_of_derives heffect
    subst hone
    exact .inl ⟨inputs, rfl, hp.symm⟩
  | push width =>
    simp only [heffect, Option.some.injEq] at hp
    exact .inr (.inl ⟨width, rfl, hp.symm⟩)
  | hash =>
    simp only [heffect, Option.map_eq_some_iff] at hp
    obtain ⟨window, hwindow, rfl⟩ := hp
    exact .inr (.inr ⟨window, rfl, hwindow, rfl⟩)
  | dup n | swap n | log n | unmodelled => simp [heffect] at hp

/-- A step that is recorded is read: its operands are the production's inputs, and its result is the
word on top of the next stack. -/
theorem reading_of_production {p : Production} (h : s.production? = some p) (next : List Word) :
    ∃ r, reading? s next = some r ∧ r.origin = some p.origin ∧ r.operands = p.inputs ∧
      r.results = (fromTop? next 0).toList := by
  obtain ⟨op, hop, ⟨inputs, heffect, rfl⟩ | ⟨width, heffect, rfl⟩ | ⟨window, heffect, hwindow, rfl⟩⟩ :=
    production_cases h
  · exact ⟨_, reading_of_fixed hop heffect next, rfl, rfl, topWords_one next⟩
  · exact ⟨_, reading_of_push hop heffect next, rfl, rfl, topWords_one next⟩
  · have hread := reading_of_hash hop heffect next
    rw [hwindow] at hread
    exact ⟨_, hread, rfl, rfl, topWords_one next⟩

/-- A reading with an origin is one of a step that is recorded. -/
theorem production_of_reading {next : List Word} {r : Reading} {origin : Origin}
    (h : reading? s next = some r) (horigin : r.origin = some origin) : s.production?.isSome := by
  obtain ⟨op, hop, hr⟩ := Option.bind_eq_some_iff.mp h
  rw [Step.production?, hop, Option.bind_some]
  cases heffect : op.stackEffect with
  | fixed inputs outputs derives =>
    cases derives with
    | true => rfl
    | false =>
      rw [reading_of_fixed hop heffect] at h
      cases h
      cases horigin
  | push width => rfl
  | hash =>
    rw [reading_of_hash hop heffect] at h
    obtain ⟨window, hwindow, -⟩ := Option.map_eq_some_iff.mp h
    simp [hwindow]
  | dup n | swap n | log n =>
    simp only [heffect, Option.some.injEq] at hr
    subst hr
    cases horigin
  | unmodelled => simp [heffect] at hr

/-- A step reports its production for the word on top of the next stack, and nothing else. -/
theorem registration_decode (s : Step) (next : List Word) :
    (Call.decode s next).registration? =
      s.production?.map fun p => ⟨(fromTop? next 0).toList, p.origin, p.inputs⟩ := by
  cases hp : s.production? with
  | some p =>
    obtain ⟨r, hread, horigin, hoperands, hresults⟩ := reading_of_production hp next
    simp [Call.registration?, hread, Reading.registration?, horigin, hoperands, hresults]
  | none =>
    cases hread : reading? s next with
    | none => simp [Call.registration?, hread]
    | some r =>
      cases horigin : r.origin with
      | none => simp [Call.registration?, hread, Reading.registration?, horigin]
      | some origin =>
        have hsome := production_of_reading hread horigin
        simp [hp] at hsome

/-- Of the entries that a call adds, those for `w` are its production of `w`. -/
theorem entries_call (c : Call) (w : Word) :
    ((c.registration?.toList.flatMap entriesOf).filter (·.1 = w)).map (·.2) =
      (c.production? w).toList := by
  cases c with
  | render v => rfl
  | decode s next =>
    rw [registration_decode, Call.production?]
    cases hp : s.production? with
    | none => simp
    | some p =>
      cases htop : fromTop? next 0 with
      | none => simp [entriesOf]
      | some v =>
        by_cases hv : v = w
        · subst hv
          by_cases hin : v ∈ p.inputs <;> simp [entriesOf, hin, Option.filter]
        · by_cases hin : v ∈ p.inputs <;> simp [entriesOf, hin, hv]

/-! ## The log -/

namespace Decoder

/-- The records of a word after a run: the constants of that value in their order, then the calls that
produced it in theirs. -/
theorem records_after (constants : List (String × Word)) (threshold : UInt64) (calls : List Call)
    (w : Word) :
    ((new constants threshold).after calls).provenance.records w =
      (constants.filter (·.2 = w)).map (fun c => ⟨.constant c.1, []⟩) ++
        calls.filterMap (Call.production? w) := by
  have hcalls : (((historyOf calls).flatMap entriesOf).filter (·.1 = w)).map (·.2) =
      calls.filterMap (Call.production? w) := by
    induction calls with
    | nil => rfl
    | cons c calls ih =>
      have hsplit : (historyOf (c :: calls)).flatMap entriesOf =
          c.registration?.toList.flatMap entriesOf ++ (historyOf calls).flatMap entriesOf := by
        rw [historyOf, List.filterMap_cons, historyOf]
        cases c.registration? <;> simp
      rw [hsplit, List.filter_append, List.map_append, ih, entries_call, List.filterMap_cons]
      cases c.production? w <;> rfl
  rw [after_provenance, records_log, records_empty, List.nil_append, List.filter_append,
    List.map_append, filter_constantEntries, hcalls]

/-- The description of an instruction whose operands are shown by `shown`. -/
def descriptionOf (shown : Word → String) (op : Opcode) (operands results : List Word) : String :=
  op.mnemonic ++
    (if operands = [] then "" else "(" ++ ",".intercalate (operands.map shown) ++ ")") ++
    (if results = [] then "" else " -> " ++ ",".intercalate (results.map Word.literal))

theorem describe_eq (d : Decoder) (r : Reading) {shown : Word → String}
    (h : (d.renderAll r.operands).1 = r.operands.map shown) :
    (d.describe r).1 = descriptionOf shown r.op r.operands r.results := by
  rw [describe, h, Expression.listed_eq, descriptionOf]
  simp only [List.map_eq_nil_iff]
  cases r.results <;> rfl

/-- What one more step of a run does: an instruction is described by the words as they were known
before it, and a step that is shown by name only leaves the decoder as it was. -/
theorem decode_after (constants : List (String × Word)) (threshold : UInt64) (calls : List Call)
    (s : Step) (next : List Word) :
    let d := (new constants threshold).after calls
    let answer := (d.decode s next).1
    if answer.modelled then
      ∃ op, s.opcode? = some op ∧ answer.description =
        descriptionOf (fun w => (d.provenance.render w { threshold }).1) op answer.operands
          answer.results
    else (d.decode s next).2 = d := by
  intro d answer
  cases hread : reading? s next with
  | none =>
    have hdecode := decode_of_unread hread d
    simp only [answer, hdecode, Bool.false_eq_true, if_false]
  | some r =>
    obtain ⟨op, hop, -⟩ := Option.bind_eq_some_iff.mp hread
    have hshown : (d.renderAll r.operands).1 =
        r.operands.map fun w => (d.provenance.render w { threshold }).1 := by
      rw [((tracks_after constants threshold calls).renderAll r.operands).1]
      exact List.map_congr_left fun w _ => (render_fresh constants threshold calls w).symm
    have hdecode := decode_of_reading hread d
    simp only [answer, hdecode, if_true]
    refine ⟨op, hop, ?_⟩
    rw [describe_eq d r hshown, opcode_of_reading hread hop]

/-- The run of a decoder is its log. -/
theorem run_eq_log (constants : List (String × Word)) (threshold : UInt64) (calls : List Call) :
    let d := (new constants threshold).after calls
    (∀ w, d.provenance.records w =
      (constants.filter (·.2 = w)).map (fun c => ⟨.constant c.1, []⟩) ++
        calls.filterMap (Call.production? w)) ∧
    ∀ s next,
      (∀ p, s.production? = some p →
        (d.decode s next).1.modelled ∧ (d.decode s next).1.operands = p.inputs ∧
          (d.decode s next).1.results = (fromTop? next 0).toList) ∧
      if (d.decode s next).1.modelled then
        ∃ op, s.opcode? = some op ∧ (d.decode s next).1.description =
          descriptionOf (fun w => (d.provenance.render w { threshold }).1) op
            (d.decode s next).1.operands (d.decode s next).1.results
      else (d.decode s next).2 = d := by
  intro d
  refine ⟨records_after constants threshold calls, fun s next => ⟨?_, ?_⟩⟩
  · intro p hp
    obtain ⟨r, hread, -, hoperands, hresults⟩ := reading_of_production hp next
    rw [decode_of_reading hread]
    exact ⟨rfl, hoperands, hresults⟩
  · exact decode_after constants threshold calls s next

/-- Three is pushed on four and added to it, and the sum is hashed from memory. -/
def pushAddHash : List Call :=
  [.decode { op := "PUSH1", stack := [.ofUInt64 4] } [.ofUInt64 4, .ofUInt64 3],
    .decode { op := "ADD", stack := [.ofUInt64 4, .ofUInt64 3] } [.ofUInt64 7],
    .decode { op := "SHA3", stack := [.ofUInt64 32, .zero], memory := some [.ofUInt64 7] }
      [.ofUInt64 5]]

/-- The sum is known as that of an unknown word and a constant, and the digest as that of the sum. -/
theorem expand_pushAddHash :
    let p := ((new [("THREE", .ofUInt64 3)] 0).after pushAddHash).provenance
    let sum := .apply .add [.literal (.ofUInt64 4), .constant "THREE"]
    p.expand 0 (.ofUInt64 7) = sum ∧ p.expand 0 (.ofUInt64 5) = .apply .sha3 [sum] := by
  intro p sum
  have hrecords := records_after [("THREE", .ofUInt64 3)] 0 pushAddHash
  obtain ⟨hthree, hfour, hfive, hseven⟩ :
      p.producer? (.ofUInt64 3) = some ⟨.constant "THREE", []⟩ ∧
      p.producer? (.ofUInt64 4) = none ∧
      p.producer? (.ofUInt64 5) = some ⟨.computed .sha3, [.ofUInt64 7]⟩ ∧
      p.producer? (.ofUInt64 7) = some ⟨.computed .add, [.ofUInt64 4, .ofUInt64 3]⟩ := by
    simp only [p, producer?, hrecords]
    decide +kernel
  have hbelow (n : UInt64) : (Word.ofUInt64 n).isBelow 0 = false := by
    unfold Word.isBelow
    split <;> simp
  have hslot (f : Word → Expression) (n : UInt64) :
      (Word.ofUInt64 n).assemble f = f (.ofUInt64 n) := by
    simp [Word.assemble, Word.isWide, Word.ofUInt64, Word.length_bytes_ofBytes,
      length_toBigEndian, slotBytes]
  have hleaves (path : List Word) : p.expandSlot 0 path (.ofUInt64 4) = .literal (.ofUInt64 4) ∧
      p.expandSlot 0 path (.ofUInt64 3) = .constant "THREE" :=
    ⟨expandSlot_leaf (by simp [view, hbelow, hfour]) path,
      expandSlot_leaf (by simp [view, hbelow, hthree]) path⟩
  have hview : p.view 0 (.ofUInt64 7) = .node .add [.ofUInt64 4, .ofUInt64 3] := by
    simp [view, hbelow, hseven]
  have hsum {path : List Word} (hpath : .ofUInt64 7 ∉ path) :
      p.expandSlot 0 path (.ofUInt64 7) = sum := by
    rw [expandSlot_node hview hpath]
    simp [hslot, hleaves, sum]
  have hdigest : p.view 0 (.ofUInt64 5) = .node .sha3 [.ofUInt64 7] := by
    simp [view, hbelow, hfive]
  have hfresh : Word.ofUInt64 7 ∉ [Word.ofUInt64 5] := by decide +kernel
  refine ⟨?_, ?_⟩
  · rw [expand, hslot, hsum List.not_mem_nil]
  · rw [expand, hslot, expandSlot_node hdigest List.not_mem_nil]
    simp [hslot, hsum hfresh]

/-- A sum of the digest and what it is the digest of. -/
def addDigest : Step := { op := "ADD", stack := [.ofUInt64 5, .ofUInt64 7] }

theorem run_eq_log_pushAddHash :
    let d := (new [("THREE", .ofUInt64 3)] 0).after pushAddHash
    let answer := (d.decode addDigest [.ofUInt64 12]).1
    d.provenance.records (.ofUInt64 3) = [⟨.constant "THREE", []⟩, ⟨.pushed (.push 1), []⟩] ∧
    d.provenance.records (.ofUInt64 7) = [⟨.computed .add, [.ofUInt64 4, .ofUInt64 3]⟩] ∧
    d.provenance.records (.ofUInt64 5) = [⟨.computed .sha3, [.ofUInt64 7]⟩] ∧
    answer.modelled ∧ answer.operands = [.ofUInt64 5, .ofUInt64 7] ∧
      answer.results = [.ofUInt64 12] ∧
    answer.description = "ADD(SHA3(ADD(0x4,THREE)),ADD(0x4,THREE)) -> 0xc" := by
  intro d answer
  obtain ⟨hrecords, hsteps⟩ := run_eq_log [("THREE", .ofUInt64 3)] 0 pushAddHash
  have hproduction : addDigest.production? =
      some ⟨.computed .add, [.ofUInt64 5, .ofUInt64 7]⟩ := by decide +kernel
  obtain ⟨hshown, hdescribed⟩ := hsteps addDigest [.ofUInt64 12]
  obtain ⟨hmodelled, hoperands, hresults⟩ := hshown _ hproduction
  rw [if_pos hmodelled] at hdescribed
  obtain ⟨op, hop, hdescription⟩ := hdescribed
  have hadd : addDigest.opcode? = some .add := by decide +kernel
  cases hadd.symm.trans hop
  obtain ⟨hsum, hdigest⟩ := expand_pushAddHash
  rw [hoperands, hresults] at hdescription
  rw [← and_assoc, ← and_assoc]
  refine ⟨?_, hmodelled, hoperands, hresults, ?_⟩
  · simp only [d, hrecords]
    decide +kernel
  · rw [hdescription, descriptionOf]
    simp only [render_fresh, List.map_cons, List.map_nil, hsum, hdigest]
    decide +kernel

end Decoder

end TraceGloss
