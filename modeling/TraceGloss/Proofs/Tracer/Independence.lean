import TraceGloss.Proofs.Decoder.Run
import TraceGloss.Proofs.Tracer.Depths

/-
  What settings leave alone.
  Two tracers may differ in constants, threshold, colours and source. As long as neither source fails,
  their runs over one trace go in step: they `Agree` on all that is not text or source, which decoding
  (`Decoder.Agrees.decode`), moving between frames (`move_agree`) and so a whole run (`takeAll_agree`)
  preserve. They fail together, at one step, or give traces that agree (`settings_traceRaw`).
-/
namespace TraceGloss

open Tracing

/-! ## Provenance -/

namespace Origin

/-- Whether a word is known by a name that was given to it. -/
def isConstant : Origin → Bool
  | constant _ => true
  | _ => false

end Origin

namespace Provenance

/-- The productions of a word that a run has shown: all but those of named constants. -/
def traced (p : Provenance) (w : Word) : List Production :=
  (p.records w).filter fun production => !production.origin.isConstant

theorem traced_log (p : Provenance) (entries : List (Word × Production)) (w : Word) :
    (p.log entries).traced w =
      p.traced w ++ ((entries.filter (·.1 = w)).map (·.2)).filter
        fun production => !production.origin.isConstant := by
  unfold traced
  rw [records_log, List.filter_append]

theorem traced_ofConstants (constants : List (String × Word)) :
    (ofConstants constants).traced = fun _ => [] := by
  funext w
  rw [ofConstants_eq, traced_log, filter_constantEntries, traced, records_empty]
  refine List.filter_eq_nil_iff.mpr ?_
  intro production hproduction
  obtain ⟨c, -, rfl⟩ := List.mem_map.mp hproduction
  exact Bool.false_ne_true

theorem traced_register {p q : Provenance} (h : p.traced = q.traced) (r : Registration) :
    (p.register r.outputs r.origin r.inputs).traced =
      (q.register r.outputs r.origin r.inputs).traced := by
  funext w
  rw [register_eq, register_eq, traced_log, traced_log, h]

end Provenance

/-! ## Decoders -/

/-- What is known about a step, without its description. -/
def Decoded.undescribed (decoded : Decoded) : Decoded := { decoded with description := "" }

namespace Decoder

/-- Two decoders that differ in constants and in what they show only. -/
structure Agrees (d e : Decoder) : Prop where
  preimages : d.preimages = e.preimages
  traced : d.provenance.traced = e.provenance.traced

theorem agrees_new (constants constants' : List (String × Word)) (threshold threshold' : UInt64) :
    (new constants threshold).Agrees (new constants' threshold') := by
  refine ⟨rfl, ?_⟩
  show (Provenance.ofConstants constants).traced = (Provenance.ofConstants constants').traced
  rw [Provenance.traced_ofConstants, Provenance.traced_ofConstants]

namespace Agrees

variable {d e : Decoder} (h : d.Agrees e)
include h

theorem learn (r : Reading) : (d.learn r).Agrees (e.learn r) := by
  refine ⟨?_, ?_⟩
  · unfold Decoder.learn
    rw [h.preimages]
  · rw [learn_provenance, learn_provenance]
    cases r.registration? with
    | none => exact h.traced
    | some report => exact Provenance.traced_register h.traced report

theorem describe (r : Reading) : (d.describe r).2.Agrees (e.describe r).2 := by
  have hd := d.renderAll_keeps r.operands
  have he := e.renderAll_keeps r.operands
  refine ⟨?_, ?_⟩
  · show (d.renderAll r.operands).2.preimages = (e.renderAll r.operands).2.preimages
    rw [hd.1, he.1, h.preimages]
  · show (d.renderAll r.operands).2.provenance.traced = (e.renderAll r.operands).2.provenance.traced
    rw [hd.2, he.2, h.traced]

/-- Decoders that agree read the same of a step, and agree behind it. -/
theorem decode (s : Step) (next : List Word) :
    (d.decode s next).1.undescribed = (e.decode s next).1.undescribed ∧
      (d.decode s next).2.Agrees (e.decode s next).2 := by
  cases hread : reading? s next with
  | none =>
    rw [decode_of_unread hread, decode_of_unread hread]
    exact ⟨rfl, h⟩
  | some r =>
    rw [decode_of_reading hread, decode_of_reading hread]
    exact ⟨rfl, (h.describe r).learn r⟩

end Agrees

end Decoder

/-! ## Frames -/

/-- The step without description and source. -/
def AnnotatedStep.facts (a : AnnotatedStep) : AnnotatedStep :=
  { a with description := "", snippet := none, label := none }

/-- The frame without its materials. -/
def Frame.stripped (frame : Frame) : Frame := { frame with materials := none }

namespace Frames

def stripped (frames : Frames) : Frames where
  current := frames.current.stripped
  outer := frames.outer.map Frame.stripped

theorem depth_stripped (frames : Frames) : frames.stripped.depth = frames.depth :=
  List.length_map _

theorem stripped_enter (frames : Frames) (gap : Nat) (frame : Frame) :
    (frames.enter gap frame).stripped = frames.stripped.enter gap frame.stripped := by
  unfold stripped enter
  rw [List.map_append, List.map_replicate, List.map_cons]
  rfl

theorem charge_stripped (frame : Frame) (gas : UInt64) (notes : Array AnnotatedStep) :
    charge frame.stripped gas (notes.map AnnotatedStep.facts) =
      (charge frame gas notes).map AnnotatedStep.facts := by
  unfold charge Frame.stripped
  cases frame.opener with
  | none => rfl
  | some k =>
    refine Array.ext_getElem? ?_
    intro i
    dsimp only
    rw [Array.getElem?_modify, Array.getElem?_map, Array.getElem?_map, Array.getElem?_modify]
    split
    · rw [Option.map_map, Option.map_map]
      rfl
    · rfl

theorem leave?_stripped (gas : UInt64) (n : Nat) (frames : Frames) (notes : Array AnnotatedStep) :
    leave? gas n frames.stripped (notes.map AnnotatedStep.facts) =
      (leave? gas n frames notes).map fun left =>
        (left.1.stripped, left.2.map AnnotatedStep.facts) := by
  induction n generalizing frames notes with
  | zero => rfl
  | succ n ih =>
    match frames with
    | ⟨current, []⟩ => rfl
    | ⟨current, frame :: outer⟩ =>
      show leave? gas n (stripped ⟨frame, outer⟩)
        (charge current.stripped gas (notes.map AnnotatedStep.facts)) = _
      rw [charge_stripped, ih, leave?]

end Frames

/-! ## Runs -/

/-- Whether a diagnostic is about an instruction, and not about missing materials. -/
def Diagnostic.isUnmodelled : Diagnostic → Bool
  | unmodelled .. => true
  | materialsUnavailable .. => false

/-- Two runs that differ in text and source only. -/
structure Run.Agrees (r q : Run) : Prop where
  decoder : r.decoder.Agrees q.decoder
  frames : r.frames.stripped = q.frames.stripped
  steps : r.steps.map AnnotatedStep.facts = q.steps.map AnnotatedStep.facts
  unmodelled : r.diagnostics.filter Diagnostic.isUnmodelled =
    q.diagnostics.filter Diagnostic.isUnmodelled

namespace Run.Agrees

variable {r q : Run} (h : r.Agrees q)
include h

theorem size : r.steps.size = q.steps.size := by
  have hsize := congrArg Array.size h.steps
  rwa [Array.size_map, Array.size_map] at hsize

theorem decode (index : Nat) (s : Step) (next : Option Step) :
    (r.decode index s next).Agrees (q.decode index s next) := by
  obtain ⟨hdecoded, hdecoder⟩ := h.decoder.decode s ((next.map Step.stack).getD [])
  have hmodelled := congrArg Decoded.modelled hdecoded
  refine ⟨hdecoder, h.frames, h.steps, ?_⟩
  unfold Run.decode
  dsimp only [Decoded.undescribed] at hmodelled ⊢
  rw [hmodelled]
  split
  · exact h.unmodelled
  · rw [Array.filter_push, Array.filter_push, h.unmodelled]

/-- Both runs note the same of a step. -/
theorem note {σ ρ : Type} (left : Tracer σ) (right : Tracer ρ) (index : Nat) (s : Step)
    (next : Option Step) :
    (left.note index s next r).facts = (right.note index s next q).facts := by
  obtain ⟨hdecoded, -⟩ := h.decoder.decode s ((next.map Step.stack).getD [])
  have hoperands := congrArg Decoded.operands hdecoded
  have hresults := congrArg Decoded.results hdecoded
  have haddress := congrArg (fun frames => frames.current.address) h.frames
  have hdepth := congrArg Frames.depth h.frames
  rw [Frames.depth_stripped, Frames.depth_stripped] at hdepth
  dsimp only [Decoded.undescribed, Frames.stripped, Frame.stripped] at hoperands hresults haddress
  unfold Tracer.note AnnotatedStep.facts
  dsimp only
  rw [hoperands, hresults, haddress, hdepth]

theorem push {a b : AnnotatedStep} (hab : a.facts = b.facts) :
    Run.Agrees { r with steps := r.steps.push a } { q with steps := q.steps.push b } := by
  refine ⟨h.decoder, h.frames, ?_, h.unmodelled⟩
  dsimp only
  rw [Array.map_push, Array.map_push, h.steps, hab]

end Run.Agrees

namespace Tracing

variable {σ ρ α β γ δ : Type}

/-- Two answers that are the same error, or related results. -/
inductive Alike (R : α → β → Prop) : Except TraceError α → Except TraceError β → Prop
  | ok {a : α} {b : β} (h : R a b) : Alike R (.ok a) (.ok b)
  | error (e : TraceError) : Alike R (.error e) (.error e)

/-- Two computations that answer alike, whatever is in supply. -/
def Agree (R : α → β → Prop) (x : Tracing σ α) (y : Tracing ρ β) : Prop :=
  ∀ supply supply', Alike R (x.run supply).1 (y.run supply').1

theorem Agree.pure {R : α → β → Prop} {a : α} {b : β} (h : R a b) :
    Agree R (Pure.pure a : Tracing σ α) (Pure.pure b : Tracing ρ β) := fun _ _ => .ok h

theorem Agree.bind {R : α → β → Prop} {S : γ → δ → Prop} {x : Tracing σ α} {y : Tracing ρ β}
    {f : α → Tracing σ γ} {g : β → Tracing ρ δ} (h : Agree R x y)
    (hnext : ∀ a b, R a b → Agree S (f a) (g b)) : Agree S (x >>= f) (y >>= g) := by
  intro supply supply'
  have hfirst := h supply supply'
  rw [run_bind, run_bind]
  rcases hx : x.run supply with ⟨a, between⟩
  rcases hy : y.run supply' with ⟨b, between'⟩
  rw [hx, hy] at hfirst
  cases hfirst with
  | ok hab => exact hnext _ _ hab between between'
  | error e => exact .error e

end Tracing

/-- Diagnostics that tell the same about instructions. -/
def SameUnmodelled (ds es : Array Diagnostic) : Prop :=
  ds.filter Diagnostic.isUnmodelled = es.filter Diagnostic.isUnmodelled

namespace Tracer

variable {σ ρ : Type} {left : Tracer σ} {right : Tracer ρ}

/-- Asking for materials, if they are to be had, adds no diagnostic of an instruction. -/
theorem materialsFor_ok {tracer : Tracer σ} (hsource : tracer.source.IsUnfailing)
    (address : Address) (isCreation : Bool) (step : Option Nat) (ds : Array Diagnostic)
    (supply : Supply σ) :
    ∃ found after, (tracer.materialsFor address isCreation step ds).run supply =
      (.ok found, after) ∧ SameUnmodelled found.2 ds := by
  obtain ⟨found, hfound⟩ := Supply.get_of_isUnfailing hsource address isCreation supply
  rw [materialsFor_run]
  rcases hget : supply.get tracer.source address isCreation with ⟨answer, after⟩
  rw [hget] at hfound
  dsimp only at hfound
  rw [hfound]
  cases found with
  | some materials => exact ⟨_, after, rfl, rfl⟩
  | none =>
    refine ⟨_, after, rfl, ?_⟩
    unfold SameUnmodelled
    rw [Array.filter_push, if_neg (by exact Bool.false_ne_true)]

variable (hleft : left.source.IsUnfailing) (hright : right.source.IsUnfailing)
include hleft hright

theorem materialsFor_agree (address : Address) (isCreation : Bool) (step : Option Nat)
    {ds es : Array Diagnostic} (h : SameUnmodelled ds es) :
    Agree (fun found found' => SameUnmodelled found.2 found'.2)
      (left.materialsFor address isCreation step ds)
      (right.materialsFor address isCreation step es) := by
  intro supply supply'
  obtain ⟨found, after, hrun, hsame⟩ :=
    materialsFor_ok hleft address isCreation step ds supply
  obtain ⟨found', after', hrun', hsame'⟩ :=
    materialsFor_ok hright address isCreation step es supply'
  rw [hrun, hrun']
  exact .ok (hsame.trans (h.trans hsame'.symm))

theorem calleeMaterials_agree (index : Nat) (s : Step) {ds es : Array Diagnostic}
    (h : SameUnmodelled ds es) :
    Agree (fun found found' => SameUnmodelled found.2 found'.2)
      (left.calleeMaterials index s ds) (right.calleeMaterials index s es) := by
  unfold calleeMaterials
  cases s.callee? with
  | some address => exact materialsFor_agree hleft hright address false (some index) h
  | none => exact .pure h

/-- Moves between frames agree, and underflow together. -/
theorem move_agree {r q : Run} (h : r.Agrees q) (index : Nat) (s : Step) (m : Move) :
    Agree Run.Agrees (left.move index s r m) (right.move index s q m) := by
  cases m with
  | stop => exact .pure h
  | stay next => exact .pure h
  | into gap next =>
    unfold move
    dsimp only
    rw [openFrame_eq, openFrame_eq, bind_assoc, bind_assoc]
    refine .bind (calleeMaterials_agree hleft hright index s h.unmodelled) ?_
    intro found found' hfound
    rw [pure_bind, pure_bind]
    refine .pure ⟨h.decoder, ?_, h.steps, hfound⟩
    dsimp only
    rw [Frames.stripped_enter, Frames.stripped_enter, h.frames, h.size]
    rfl
  | out levels next =>
    have hr := Frames.leave?_stripped next.gas levels r.frames r.steps
    have hq := Frames.leave?_stripped next.gas levels q.frames q.steps
    rw [h.frames, h.steps, hq] at hr
    unfold move
    dsimp only
    cases hleave : Frames.leave? next.gas levels r.frames r.steps with
    | none =>
      rw [hleave, Option.map_none, Option.map_eq_none_iff] at hr
      rw [hr]
      exact fun _ _ => .error _
    | some left =>
      rw [hleave, Option.map_some, Option.map_eq_some_iff] at hr
      obtain ⟨left', hleave', hsame⟩ := hr
      obtain ⟨hframes, hsteps⟩ := Prod.mk.inj hsame
      rw [hleave']
      exact .pure ⟨h.decoder, hframes.symm, hsteps.symm, h.unmodelled⟩

/-- A step takes runs that agree to runs that agree. -/
theorem take_agree {r q : Run} (h : r.Agrees q) (keep : Step → Bool) (index : Nat) (s : Step)
    (next : Option Step) :
    Agree Run.Agrees (left.take keep index s next r) (right.take keep index s next q) := by
  have hnote := h.note left right index s next
  rw [take_eq, take_eq]
  refine .bind (move_agree hleft hright (h.decode index s next) index s (s.moveTo next)) ?_
  intro moved moved' hmoved
  refine .pure ?_
  by_cases hkept : ((s.moveTo next).isBoundary || keep s) = true
  · rw [if_pos hkept, if_pos hkept]
    exact hmoved.push hnote
  · rw [if_neg hkept, if_neg hkept]
    exact hmoved

theorem takeAll_agree (keep : Step → Bool) (steps : List Step) (index : Nat) {r q : Run}
    (h : r.Agrees q) :
    Agree Run.Agrees (left.takeAll keep index steps r) (right.takeAll keep index steps q) := by
  induction steps generalizing index r q with
  | nil => exact .pure h
  | cons s rest ih =>
    unfold takeAll
    refine .bind (take_agree hleft hright h keep index s rest.head?) ?_
    intro r' q' h'
    exact ih (index + 1) h'

end Tracer

/-! ## Traces -/

/-- Two annotated traces that differ in descriptions and source, and in what is known of constants
and of missing materials. -/
structure AnnotatedTrace.Agrees (t u : AnnotatedTrace) : Prop where
  steps : t.steps.toList.map AnnotatedStep.facts = u.steps.toList.map AnnotatedStep.facts
  gas : t.gas = u.gas
  failed : t.failed = u.failed
  returnValue : t.returnValue = u.returnValue
  preimages : t.info.preimages = u.info.preimages
  traced : t.info.provenance.traced = u.info.provenance.traced
  unmodelled : t.info.diagnostics.filter Diagnostic.isUnmodelled =
    u.info.diagnostics.filter Diagnostic.isUnmodelled

theorem map_facts_relink (previous : Option Nat) (steps : List AnnotatedStep) :
    (relink previous steps).map AnnotatedStep.facts =
      relink previous (steps.map AnnotatedStep.facts) := by
  induction steps generalizing previous with
  | nil => rfl
  | cons s rest ih =>
    rw [relink, List.map_cons, List.map_cons, relink, ih]
    rfl

namespace Tracer

variable {σ ρ τ : Type} {left : Tracer σ} {right : Tracer ρ}

theorem startRun_agrees (left : Tracer σ) (right : Tracer ρ) (constants constants' : Constants)
    (entry : EntryPoint) (materials materials' : Option Materials) {ds es : Array Diagnostic}
    (h : SameUnmodelled ds es) :
    (left.startRun constants entry materials ds).Agrees
      (right.startRun constants' entry materials' es) :=
  ⟨Decoder.agrees_new _ _ _ _, rfl, rfl, h⟩

theorem annotated_agrees (left : Tracer σ) (right : Tracer ρ) (raw : RawTrace) {r q : Run}
    (h : r.Agrees q) :
    (left.annotated (fun _ => true) raw r).Agrees (right.annotated (fun _ => true) raw q) := by
  have hsteps := congrArg Array.toList h.steps
  have hunmodelled := congrArg Array.toList h.unmodelled
  rw [Array.toList_map, Array.toList_map] at hsteps
  rw [Array.toList_filter, Array.toList_filter] at hunmodelled
  refine ⟨?_, rfl, rfl, rfl, h.decoder.preimages, h.decoder.traced, hunmodelled⟩
  rw [steps_annotated_all, steps_annotated_all, map_facts_relink, map_facts_relink, hsteps]

theorem annotateRaw_agree (hleft : left.source.IsUnfailing) (hright : right.source.IsUnfailing)
    (constants constants' : Constants) (keepStep : Step → Bool) (entry : EntryPoint)
    (raw : RawTrace) :
    Agree AnnotatedTrace.Agrees
      (left.annotateRaw ({ constants, keepStep } : Options τ) entry raw)
      (right.annotateRaw ({ constants := constants', keepStep } : Options τ) entry raw) := by
  unfold annotateRaw
  refine .bind (materialsFor_agree hleft hright entry.address entry.isCreation none rfl) ?_
  intro found found' hfound
  have hstart := startRun_agrees left right constants constants' entry found.1 found'.1 hfound
  unfold annotate
  refine .bind (takeAll_agree hleft hright keepStep raw.steps 0 hstart) ?_
  intro r q h
  exact .pure (annotated_agrees left right raw h)

/-- Constants, threshold, highlighting and the source of materials decide how a trace is shown, and
nothing else. Without a filter behind them and without sinks, two tracers whose sources do not fail
underflow at the same step of a trace, or annotate it the same but for descriptions, source, the
constants among what is known of words, and the materials that are missed. -/
theorem settings_traceRaw (left : Tracer σ) (right : Tracer ρ)
    (hleft : left.source.IsUnfailing) (hright : right.source.IsUnfailing)
    (constants constants' : Constants) (keepStep : Step → Bool) (entry : EntryPoint)
    (raw : RawTrace) (supply : Supply σ) (supply' : Supply ρ) :
    (∃ k s, UnderflowsAt raw.steps k ∧ raw.steps[k]? = some s ∧
      (left.traceRaw ({ constants, keepStep } : Options τ) entry raw supply).answer =
        .error (.frameUnderflow k s.pc s.op) ∧
      (right.traceRaw ({ constants := constants', keepStep } : Options τ) entry raw supply').answer =
        .error (.frameUnderflow k s.pc s.op)) ∨
    ∃ t u : AnnotatedTrace,
      (left.traceRaw ({ constants, keepStep } : Options τ) entry raw supply).answer = .ok t ∧
      (right.traceRaw ({ constants := constants', keepStep } : Options τ) entry raw supply').answer =
        .ok u ∧
      t.Agrees u := by
  have hagree := annotateRaw_agree (τ := τ) hleft hright constants constants' keepStep entry raw
    supply supply'
  rw [answer_traceRaw, answer_traceRaw]
  rcases hrun : (left.annotateRaw ({ constants, keepStep } : Options τ) entry raw).run supply with
    ⟨answer, after⟩
  rcases hrun' : (right.annotateRaw ({ constants := constants', keepStep } : Options τ) entry
    raw).run supply' with ⟨answer', after'⟩
  rw [hrun, hrun'] at hagree
  cases hagree with
  | ok h => exact .inr ⟨_, _, handedOut_nil _ _, handedOut_nil _ _, h⟩
  | error e =>
    obtain ⟨k, s, hk, hs, rfl⟩ := underflowsAt_of_filtered hleft hrun
    exact .inl ⟨k, s, hk, hs, rfl, rfl⟩

/-- A tracer that finds materials for every contract, and shows no value as a literal. -/
def lucid : Tracer Unit where
  endpoint tx := .error (.notRecorded tx)
  source := .ofFunction fun _ _ => .ok (some {})
  config := { threshold := 0, highlight := .delimited "<" ">" }

theorem isUnfailing_lucid : lucid.source.IsUnfailing := fun _ _ _ => ⟨some {}, rfl⟩

/-- A call of a contract that meets an instruction without a name and returns. -/
def opaqueCallee : RawTrace where
  steps := [{ depth := 1, op := "PUSH1", gas := 90, gasCost := 3 },
    { depth := 1, op := "CALL", gas := 87, gasCost := 80,
      stack := List.replicate 7 (Word.ofUInt64 1) },
    { depth := 2, op := "opcode 0xc not defined", gas := 60, gasCost := 0 },
    { depth := 1, op := "POP", gas := 50, gasCost := 2, stack := [Word.zero] }]

theorem settings_traceRaw_opaqueCallee :
    bare.source.IsUnfailing ∧ lucid.source.IsUnfailing ∧ ∃ t u : AnnotatedTrace,
      (bare.traceRaw ({} : Options Unit) { address := .zero } opaqueCallee
        { state := () }).answer = .ok t ∧
      (lucid.traceRaw ({ constants := Table.ofList [("ONE", Word.ofUInt64 1)] } : Options Unit)
        { address := .zero } opaqueCallee { state := () }).answer = .ok u ∧
      t.Agrees u := by
  have hfloor : ∀ j, j < opaqueCallee.steps.length →
      depthAt opaqueCallee.steps 0 ≤ depthAt opaqueCallee.steps j := by decide
  rcases settings_traceRaw (τ := Unit) bare lucid isUnfailing_bare isUnfailing_lucid Table.empty
    (Table.ofList [("ONE", Word.ofUInt64 1)]) (fun _ => true) { address := .zero } opaqueCallee
    { state := () } { state := () } with ⟨k, s, hk, -⟩ | hagree
  · have hbelow := hk.below
    have hstays := hfloor (k + 1) hk.next_lt
    omega
  · exact ⟨isUnfailing_bare, isUnfailing_lucid, hagree⟩

end Tracer

end TraceGloss
