import TraceGloss.Proofs.Decoder.Preimages
import TraceGloss.Proofs.Decoder.Truth
import TraceGloss.Proofs.Tracer.Depths

/-
  What a tracer learns from each step, at the edges of frames too.
  A tracer decodes every step before the stack of the one behind it, so before each step its decoder
  is that of the steps so far (`Reaches.decoder_eq`). A step teaches something about the word on top of
  that stack only: nothing if it is not recorded or the word is one of its operands, and nothing if it
  is not a hash or the word has that preimage already (`sameKnowledge_decode_iff`). Depths play no part
  in this. The steps that open a frame, or end one as they should, are not recorded
  (`production?_of_mem_frameNames`), but any other one that ends a frame is taken to have made the
  word on top of the caller's stack.
-/
namespace TraceGloss

/-- Nothing has been learnt from one decoder to the other. -/
structure SameKnowledge (before after : Decoder) : Prop where
  provenance : after.provenance = before.provenance
  preimages : ∀ digest, after.preimage? digest = before.preimage? digest

/-! ## Single steps -/

namespace Decoder

/-- A step adds to the provenance its production of the word on top of the next stack. -/
theorem provenance_decode (d : Decoder) (s : Step) (next : List Word) :
    (d.decode s next).2.provenance =
      match s.production?, fromTop? next 0 with
      | some p, some w => if w ∈ p.inputs then d.provenance else d.provenance.insert w p
      | _, _ => d.provenance := by
  have hlearnt : (d.decode s next).2.provenance =
      (Call.decode s next).registration?.elim d.provenance fun report =>
        d.provenance.register report.outputs report.origin report.inputs := by
    cases hread : reading? s next with
    | none => rw [decode_of_unread hread, Call.registration?, hread]; rfl
    | some r =>
      have hkept : (d.describe r).2.provenance = d.provenance := (d.renderAll_keeps r.operands).2
      rw [decode_of_reading hread, learn_provenance, hkept, Call.registration?, hread]
      rfl
  rw [hlearnt, registration_decode]
  cases s.production? with
  | none => rfl
  | some p => cases fromTop? next 0 <;> rfl

/-- A step teaches a decoder nothing exactly if the word on top of the next stack is no news: an input of
what the step is recorded as, and a digest known to be of the window that it hashes. -/
theorem sameKnowledge_decode_iff (d : Decoder) (s : Step) (next : List Word) :
    SameKnowledge d (d.decode s next).2 ↔
      ∀ w, fromTop? next 0 = some w →
        (∀ p, s.production? = some p → w ∈ p.inputs) ∧
          ∀ window, s.hashed? = some window → d.preimage? w = some window := by
  constructor
  · intro h w htop
    constructor
    · intro p hp
      apply Classical.byContradiction
      intro hnew
      have hrecords := congrArg (·.records w) h.provenance
      simp only [provenance_decode, hp, htop, if_neg hnew, Provenance.records_insert, if_true,
        List.append_right_eq_self, List.cons_ne_nil] at hrecords
    · intro window hwindow
      have hkept := h.preimages w
      have hcall := preimage?_call d (.decode s next) w
      rw [Call.preimage?, if_pos htop, hwindow, Option.some_or] at hcall
      exact hkept.symm.trans hcall
  · intro h
    constructor
    · rw [provenance_decode]
      cases hp : s.production? with
      | none => rfl
      | some p =>
        cases htop : fromTop? next 0 with
        | none => rfl
        | some w => exact if_pos ((h w htop).1 p hp)
    · intro digest
      have hcall := preimage?_call d (.decode s next) digest
      rw [Call.preimage?] at hcall
      refine hcall.trans ?_
      split
      · rename_i htop
        cases hwindow : s.hashed? with
        | none => rfl
        | some window => exact ((h digest htop).2 window hwindow).symm
      · rfl

theorem sameKnowledge_of_unrecorded {s : Step} (h : s.production? = none) (d : Decoder)
    (next : List Word) : SameKnowledge d (d.decode s next).2 := by
  rw [sameKnowledge_decode_iff]
  intro w _
  constructor
  · intro p hp
    rw [h] at hp
    cases hp
  · intro window hwindow
    rw [Step.production?_of_hashed? hwindow] at h
    cases h

end Decoder

/-! ## Steps around frames -/

/-- The spellings of the instructions that open a frame, or end one as they should. -/
def frameNames : List String :=
  messageCalls ++
    ["CREATE", "CREATE2", "STOP", "RETURN", "REVERT", "SELFDESTRUCT", "SUICIDE", "INVALID"]

/-- Whether results of an instruction are recorded. -/
def Opcode.isRecorded (op : Opcode) : Bool :=
  match op.stackEffect with
  | .fixed _ _ true | .push _ | .hash => true
  | _ => false

theorem isRecorded_of_mem_frameNames :
    ∀ name ∈ frameNames, ∀ op ∈ Opcode.ofMnemonic? name, op.isRecorded = false := by
  decide +kernel

theorem isRecorded_of_production? {s : Step} {p : Production} (h : s.production? = some p) :
    ∃ op, s.opcode? = some op ∧ op.isRecorded = true := by
  obtain ⟨op, hop, ⟨inputs, heffect, -⟩ | ⟨width, heffect, -⟩ | ⟨window, heffect, -, -⟩⟩ :=
    production_cases h
  all_goals exact ⟨op, hop, by rw [Opcode.isRecorded, heffect]⟩

theorem production?_of_mem_frameNames {s : Step} (h : s.op ∈ frameNames) :
    s.production? = none := by
  cases hp : s.production? with
  | none => rfl
  | some p =>
    obtain ⟨op, hop, hrecorded⟩ := isRecorded_of_production? hp
    have hunrecorded := isRecorded_of_mem_frameNames s.op h op hop
    rw [hrecorded] at hunrecorded
    cases hunrecorded

/-! ## Runs -/

theorem getElem?_calls (steps : List Step) (i : Nat) :
    (Step.calls steps)[i]? =
      (steps[i]?).map fun s => .decode s ((steps[i + 1]?.map Step.stack).getD []) := by
  induction steps generalizing i with
  | nil => rfl
  | cons s rest ih =>
    cases i with
    | zero => cases rest <;> rfl
    | succ i => exact ih i

namespace Tracer

variable {σ τ : Type}

/-- The decoder of a tracer before step `i` of a trace, whatever became of the frames. -/
def decoderAt (tracer : Tracer σ) (constants : Constants) (steps : List Step) (i : Nat) : Decoder :=
  (Decoder.new constants.entries tracer.config.threshold).after ((Step.calls steps).take i)

theorem decoderAt_succ (tracer : Tracer σ) (constants : Constants) {steps : List Step} {i : Nat}
    {s : Step} (hs : steps[i]? = some s) :
    tracer.decoderAt constants steps (i + 1) =
      ((tracer.decoderAt constants steps i).decode s
        ((steps[i + 1]?.map Step.stack).getD [])).2 := by
  rw [decoderAt, List.take_add_one, getElem?_calls, hs, Decoder.after, List.foldl_append]
  rfl

theorem Moves.decoder_eq {s : Step} {run moved : Run} {m : Move} (h : Moves s run m moved) :
    moved.decoder = run.decoder := by
  cases h <;> rfl

theorem decoder_of_take {tracer : Tracer σ} {keep : Step → Bool} {index : Nat} {s : Step}
    {next : Option Step} {run run' : Run} {supply supply' : Supply σ}
    (h : (tracer.take keep index s next run).run supply = (.ok run', supply')) :
    run'.decoder = (run.decoder.decode s ((next.map Step.stack).getD [])).2 := by
  obtain ⟨moved, hmoves, rfl⟩ := take_ok h
  have hmoved := hmoves.decoder_eq
  split
  · exact hmoved
  · exact hmoved

theorem Reaches.decoder_eq {tracer : Tracer σ} {keep : Step → Bool} {steps : List Step}
    {constants : Constants} {entry : EntryPoint} {materials : Option Materials}
    {diagnostics : Array Diagnostic} {supply supply' : Supply σ} {i : Nat} {run : Run}
    (h : tracer.Reaches keep steps (tracer.startRun constants entry materials diagnostics) supply i
      run supply') : run.decoder = tracer.decoderAt constants steps i := by
  induction h with
  | start => rfl
  | step _ hs htake ih => rw [decoder_of_take htake, ih, decoderAt_succ tracer constants hs]

/-- What a trace knows in the end is what the decoder knows behind its last step. -/
theorem info_of_answer {tracer : Tracer σ} {options : Options τ} {entry : EntryPoint}
    {raw : RawTrace} {supply : Supply σ} {trace : AnnotatedTrace}
    (h : (tracer.traceRaw options entry raw supply).answer = .ok trace) :
    let final := tracer.decoderAt options.constants raw.steps raw.steps.length
    trace.info.provenance = final.provenance ∧ trace.info.preimages = final.preimages := by
  intro final
  obtain ⟨after, hrun⟩ := annotateRaw_of_answer h
  obtain ⟨materials, diagnostics, between, run, hreaches, rfl⟩ := annotateRaw_ok hrun
  have hdecoder : run.decoder = final := hreaches.decoder_eq
  rw [← hdecoder]
  exact ⟨rfl, rfl⟩

/-- What a tracer has learnt before each step, and in the end, is what the steps so far show, each with
the stack of the next one. The steps that open a frame, or end one as they should, add nothing. Any
step, in whichever frame the next one is executed, adds nothing exactly if no word is on top of the
next stack, or that word is an input of what the step is recorded as, if it is, and has the window that
the step hashes, if it does, as its preimage already. -/
theorem learns_traceRaw (tracer : Tracer σ) (options : Options τ) (entry : EntryPoint)
    (raw : RawTrace) (supply : Supply σ) :
    let known := tracer.decoderAt options.constants raw.steps
    (∀ materials diagnostics between i run after,
      tracer.Reaches options.keepStep raw.steps
        (tracer.startRun options.constants entry materials diagnostics) between i run after →
      run.decoder = known i) ∧
    (∀ trace, (tracer.traceRaw options entry raw supply).answer = .ok trace →
      trace.info.provenance = (known raw.steps.length).provenance ∧
        trace.info.preimages = (known raw.steps.length).preimages) ∧
    ∀ i s next, raw.steps[i]? = some s → raw.steps[i + 1]? = some next →
      (s.op ∈ frameNames → SameKnowledge (known i) (known (i + 1))) ∧
      (SameKnowledge (known i) (known (i + 1)) ↔
        ∀ w, fromTop? next.stack 0 = some w →
          (∀ p, s.production? = some p → w ∈ p.inputs) ∧
            ∀ window, s.hashed? = some window → (known i).preimage? w = some window) := by
  intro known
  refine ⟨?_, ?_, ?_⟩
  · intro materials diagnostics between i run after hreaches
    exact hreaches.decoder_eq
  · intro trace h
    exact info_of_answer h
  · intro i s next hs hnext
    have hdecoded : known (i + 1) = ((known i).decode s next.stack).2 := by
      have hsucc := decoderAt_succ tracer options.constants hs
      rwa [hnext] at hsucc
    rw [hdecoded]
    constructor
    · intro hframe
      exact Decoder.sameKnowledge_of_unrecorded (production?_of_mem_frameNames hframe) _ _
    · exact Decoder.sameKnowledge_decode_iff _ _ _

/-- Seven is to be hashed, with less gas than that takes. -/
def haltingHash : Step where
  depth := 2
  op := "SHA3"
  gas := 20
  gasCost := 36
  stack := [Word.ofUInt64 32, Word.zero]
  memory := some [Word.ofUInt64 7]
  error := some "out of gas"

/-- A callee that halts at its hash; behind it a zero tells the caller of the failure. -/
def haltInCallee : RawTrace where
  steps := [{ depth := 1, op := "CALL", stack := List.replicate 7 (Word.ofUInt64 1) }, haltingHash,
    { depth := 1, op := "POP", stack := [Word.zero] }]

/-- So a step can teach something although the next stack belongs to another frame. -/
theorem not_sameKnowledge_across_frames :
    ¬ ∀ (raw : RawTrace) (trace : AnnotatedTrace) (i : Nat) (s next : Step),
      (bare.traceRaw ({} : Options Unit) { address := .zero } raw { state := () }).answer =
        .ok trace →
      raw.steps[i]? = some s → raw.steps[i + 1]? = some next → s.depth ≠ next.depth →
      SameKnowledge (bare.decoderAt Table.empty raw.steps i)
        (bare.decoderAt Table.empty raw.steps (i + 1)) := by
  intro hall
  obtain ⟨trace, hanswer⟩ := exists_answer_bare haltInCallee (by decide)
  have hhash : haltInCallee.steps[1]? = some haltingHash := rfl
  have hsame := hall haltInCallee trace 1 _ _ hanswer hhash rfl (by decide)
  rw [decoderAt_succ bare Table.empty hhash, Decoder.sameKnowledge_decode_iff] at hsame
  obtain ⟨hrecorded, -⟩ := hsame Word.zero rfl
  have hproduced : haltingHash.production? = some ⟨.computed .sha3, [Word.ofUInt64 7]⟩ := by
    decide +kernel
  exact absurd (hrecorded _ hproduced) (by decide)

end Tracer

end TraceGloss
