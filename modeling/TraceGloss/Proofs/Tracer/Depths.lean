import TraceGloss.Proofs.Tracer.Selection

/-
  Where the steps of a trace are executed.
  With materials always to be had, only the depth column decides whether a trace is annotated: it
  fails behind the step from which it goes below its first depth, and is annotated if there is none.
  Every step then has the depth and the contract that the columns give it (`frames_traceRaw`),
  filters or not. That some frame is always executed is in the type of `Frames`, which has no empty
  stack.
-/
namespace TraceGloss

open Tracing

/-- The instructions that call a contract. -/
def messageCalls : List String := ["CALL", "CALLCODE", "DELEGATECALL", "STATICCALL"]

/-- The contract that executes step `i`: that of the entry at the first depth, and else the one that
was called when the level was opened. No contract is known for a creation, or for a level that was
skipped. -/
def contractAt (entry : Address) (steps : List Step) (i : Nat) : Option Address :=
  if depthAt steps i = depthAt steps 0 then some entry
  else (openerBefore? steps i (depthAt steps i)).bind fun j =>
    if depthAt steps (j + 1) = depthAt steps i then
      (steps[j]?).bind fun s =>
        if s.op ∈ messageCalls then (fromTop? s.stack 1).map Word.toAddress else none
    else none

theorem isCall_of_mem_spellings :
    ∀ x ∈ Opcode.spellings, x.2.isCall = true → x.1 ∈ messageCalls := by decide +kernel

theorem isCall_of_mem_messageCalls :
    ∀ name ∈ messageCalls, (Opcode.ofMnemonic? name).any Opcode.isCall = true := by decide +kernel

theorem callee?_eq (s : Step) :
    s.callee? =
      if s.op ∈ messageCalls then (fromTop? s.stack 1).map Word.toAddress else none := by
  unfold Step.callee? Step.opcode?
  by_cases hmem : s.op ∈ messageCalls
  · have hcall := isCall_of_mem_messageCalls s.op hmem
    rw [if_pos hmem]
    cases hop : Opcode.ofMnemonic? s.op with
    | none =>
      rw [hop] at hcall
      cases hcall
    | some op =>
      rw [hop, Option.any_some] at hcall
      simp only [hcall, if_true]
  · rw [if_neg hmem]
    cases hop : Opcode.ofMnemonic? s.op with
    | none => rfl
    | some op =>
      have hspelling := Opcode.mem_spellings_of_ofMnemonic? hop
      have hother : op.isCall = false := by
        rw [Bool.eq_false_iff]
        exact fun hcall => hmem (isCall_of_mem_spellings _ hspelling hcall)
      simp only [hother]
      rfl

theorem contractAt_eq_frameAt {entry : Address} {steps : List Step} {i : Nat}
    (hfloor : ∀ j, j ≤ i → depthAt steps 0 ≤ depthAt steps j) :
    contractAt entry steps i = (frameAt entry steps i (depthAt steps i)).address := by
  unfold contractAt frameAt
  by_cases hfirst : depthAt steps i = depthAt steps 0
  · have hopener : openerBefore? steps i (depthAt steps i) = none := by
      rw [openerBefore?_eq_none_iff, hfirst]
      exact fun j hj => hfloor j (Nat.le_of_lt hj)
    rw [if_pos hfirst, hopener]
  · rw [if_neg hfirst]
    cases hopener : openerBefore? steps i (depthAt steps i) with
    | none =>
      -- The first step is shallower, so some step has opened the level.
      have hlow := (openerBefore?_eq_none_iff steps _ _).mp hopener 0
      have hstart := hfloor i (Nat.le_refl i)
      have hpositive : 0 < i := Nat.pos_of_ne_zero fun h => hfirst (by rw [h])
      exact absurd (Nat.le_antisymm (hlow hpositive) hstart) hfirst
    | some j =>
      have hcallee : Step.callee? = _ := funext callee?_eq
      simp only [Option.bind_some, hcallee]
      split <;> rfl

/-- A step that is rightly named, with the depth and the contract that the columns give it. -/
structure Placed (entry : Address) (steps : List Step) (a : AnnotatedStep) : Prop where
  step : steps[a.index]? = some a.step
  depthIndex : a.depthIndex = depthAt steps a.index - depthAt steps 0
  address : a.address = contractAt entry steps a.index

section Placed

variable {entry : Address} {steps : List Step}

theorem Noted.placed {m i : Nat} {a : AnnotatedStep} (h : Noted entry steps m i a)
    (hfloor : ∀ j, j < steps.length → depthAt steps 0 ≤ depthAt steps j) :
    Placed entry steps a := by
  obtain ⟨hi, -⟩ := List.getElem?_eq_some_iff.mp h.step
  refine ⟨?_, ?_, ?_⟩
  · rw [h.index]
    exact h.step
  · rw [h.index]
    exact h.depthIndex
  · rw [h.index, contractAt_eq_frameAt fun j hj => hfloor j (by omega)]
    exact h.address

/-- Links do not matter to where a step is. -/
theorem Placed.of_relink {previous : Option Nat} {notes : List AnnotatedStep}
    (h : ∀ a ∈ notes, Placed entry steps a) :
    ∀ a ∈ relink previous notes, Placed entry steps a := by
  intro a ha
  have hmem := List.mem_map_of_mem (f := AnnotatedStep.unlinked) ha
  rw [map_unlinked_relink] at hmem
  obtain ⟨b, hb, hlinks⟩ := List.mem_map.mp hmem
  have hplaced : Placed entry steps b.unlinked :=
    ⟨(h b hb).step, (h b hb).depthIndex, (h b hb).address⟩
  rw [hlinks] at hplaced
  exact ⟨hplaced.step, hplaced.depthIndex, hplaced.address⟩

end Placed

namespace Tracer

variable {σ τ : Type} {tracer : Tracer σ} {options : Options τ} {entry : EntryPoint}
  {raw : RawTrace} {supply supply' : Supply σ}

/-- A trace that is annotated never goes below its first depth, and its steps are placed. -/
theorem placed_of_annotateRaw {trace : AnnotatedTrace}
    (h : (tracer.annotateRaw options entry raw).run supply = (.ok trace, supply')) :
    (∀ j, j < raw.steps.length → depthAt raw.steps 0 ≤ depthAt raw.steps j) ∧
      (∀ a ∈ trace.steps.toList, Placed entry.address raw.steps a) ∧
      ((∀ s, options.keepStep s = true) → (∀ a, options.keepAnnotated a = true) →
        trace.steps.toList.map (·.index) = List.range raw.steps.length) := by
  rw [annotateRaw_filtered, map_eq_pure_bind] at h
  obtain ⟨whole, between, hwhole, hselect⟩ := bind_ok h
  cases hselect
  obtain ⟨notes, hsteps, hlength, hnoted, hfloor⟩ := noted_of_annotateRaw hwhole
  have hnotes : ∀ a ∈ notes, Placed entry.address raw.steps a := by
    intro a ha
    obtain ⟨k, hk⟩ := List.mem_iff_getElem?.mp ha
    exact (hnoted k a hk).placed hfloor
  have hplaced : ∀ a ∈ whole.steps.toList, Placed entry.address raw.steps a := by
    rw [hsteps]
    exact Placed.of_relink hnotes
  refine ⟨hfloor, ?_, ?_⟩
  · apply Placed.of_relink
    intro a ha
    exact hplaced a (List.mem_filter.mp ha).1
  · intro hkeep hkeep'
    have hall : whole.steps.toList.filter (fun a =>
        a.isAmong (isKept options.keepStep raw.steps) && options.keepAnnotated a.unlinked) =
          whole.steps.toList := by
      rw [List.filter_eq_self]
      intro a ha
      rw [hkeep', Bool.and_true, AnnotatedStep.isAmong, isKept, (hplaced a ha).step,
        Option.any_some, hkeep, Bool.or_true]
    have hindex : Numbered notes 0 := Numbered.of_getElem? fun k a hk => (hnoted k a hk).index
    rw [AnnotatedTrace.select, hall, List.toList_toArray, map_relink (fun _ => by rfl), hsteps,
      map_relink (fun _ => by rfl), hindex, hlength, List.range_eq_range']

/-- If materials are always to be had, filters or not, a trace fails only where it underflows. -/
theorem underflowsAt_of_filtered (hsource : tracer.source.IsUnfailing) {e : TraceError}
    (h : (tracer.annotateRaw options entry raw).run supply = (.error e, supply')) :
    ∃ k s, UnderflowsAt raw.steps k ∧ raw.steps[k]? = some s ∧
      e = .frameUnderflow k s.pc s.op := by
  rw [annotateRaw_filtered, map_eq_pure_bind] at h
  rcases bind_error h with hwhole | ⟨whole, between, -, hselect⟩
  · exact underflowsAt_of_annotateRaw hsource hwhole
  · cases hselect

theorem handedOut_ne_frameUnderflow (concurrent : Bool) (sinks : List (Sink τ × τ))
    (trace : AnnotatedTrace) (k : Nat) (pc : UInt64) (op : String) :
    handedOut concurrent sinks trace ≠ .error (.frameUnderflow k pc op) := by
  unfold handedOut
  split
  · intro h
    cases h
  · intro h
    cases h

/-- A trace that stays at or below its first depth is annotated, if materials are always to be had.
-/
theorem exists_annotateRaw (hsource : tracer.source.IsUnfailing) (options : Options τ)
    (entry : EntryPoint) (supply : Supply σ)
    (hfloor : ∀ j, j < raw.steps.length → depthAt raw.steps 0 ≤ depthAt raw.steps j) :
    ∃ trace after, (tracer.annotateRaw options entry raw).run supply = (.ok trace, after) := by
  rcases hrun : (tracer.annotateRaw options entry raw).run supply with ⟨error | trace, after⟩
  · obtain ⟨k, s, hk, -, -⟩ := underflowsAt_of_filtered hsource hrun
    have hbelow := hk.below
    have hstays := hfloor (k + 1) hk.next_lt
    omega
  · exact ⟨trace, after, rfl⟩

variable (tracer)

/-- The bookkeeping of a whole trace, whatever the filters and sinks. It underflows exactly when
some step is shallower than the first one, and names the step before the first such one; else it is
annotated and handed to the sinks, and every step has the depth and the contract of its frame. -/
theorem frames_traceRaw (hsource : tracer.source.IsUnfailing) (options : Options τ)
    (entry : EntryPoint) (raw : RawTrace) (supply : Supply σ) :
    ((∃ k pc op, (tracer.traceRaw options entry raw supply).answer =
        .error (.frameUnderflow k pc op)) ↔
      ∃ j, j < raw.steps.length ∧ depthAt raw.steps j < depthAt raw.steps 0) ∧
    (∀ k pc op, (tracer.traceRaw options entry raw supply).answer =
        .error (.frameUnderflow k pc op) ↔
      UnderflowsAt raw.steps k ∧ ∃ s, raw.steps[k]? = some s ∧ s.pc = pc ∧ s.op = op) ∧
    ((∀ j, j < raw.steps.length → depthAt raw.steps 0 ≤ depthAt raw.steps j) →
      ∃ trace, (tracer.traceRaw options entry raw supply).answer =
          handedOut tracer.config.concurrentSinks options.sinks trace ∧
        (∀ a ∈ trace.steps.toList, Placed entry.address raw.steps a) ∧
        ((∀ s, options.keepStep s = true) → (∀ a, options.keepAnnotated a = true) →
          trace.steps.toList.map (·.index) = List.range raw.steps.length)) := by
  have hnames : ∀ k pc op, (tracer.traceRaw options entry raw supply).answer =
      .error (.frameUnderflow k pc op) ↔
        UnderflowsAt raw.steps k ∧ ∃ s, raw.steps[k]? = some s ∧ s.pc = pc ∧ s.op = op := by
    intro k pc op
    rw [answer_traceRaw]
    rcases hrun : (tracer.annotateRaw options entry raw).run supply with ⟨error | trace, after⟩
    · obtain ⟨l, s, hl, hs, rfl⟩ := underflowsAt_of_filtered hsource hrun
      constructor
      · intro h
        cases h
        exact ⟨hl, s, hs, rfl, rfl⟩
      · rintro ⟨hk, s', hs', rfl, rfl⟩
        cases hl.unique hk
        rw [hs] at hs'
        cases hs'
        rfl
    · constructor
      · intro h
        exact absurd h (handedOut_ne_frameUnderflow _ _ _ _ _ _)
      · rintro ⟨hk, -⟩
        obtain ⟨hfloor, -, -⟩ := placed_of_annotateRaw hrun
        have hbelow := hk.below
        have hstays := hfloor (k + 1) hk.next_lt
        omega
  refine ⟨?_, hnames, ?_⟩
  · rw [← exists_underflowsAt_iff]
    constructor
    · rintro ⟨k, pc, op, h⟩
      exact ⟨k, ((hnames k pc op).mp h).1⟩
    · rintro ⟨k, hk⟩
      have hs := List.getElem?_eq_getElem (Nat.lt_of_succ_lt hk.next_lt)
      exact ⟨k, _, _, (hnames k _ _).mpr ⟨hk, _, hs, rfl, rfl⟩⟩
  · intro hfloor
    obtain ⟨trace, after, hrun⟩ := exists_annotateRaw hsource options entry supply hfloor
    obtain ⟨-, hplaced, hwhole⟩ := placed_of_annotateRaw hrun
    exact ⟨trace, by rw [answer_traceRaw, hrun]; rfl, hplaced, hwhole⟩

/-- A tracer that knows no transaction and no source. -/
def bare : Tracer Unit where
  endpoint tx := .error (.notRecorded tx)
  source := .ofFunction noMaterials

theorem isUnfailing_bare : bare.source.IsUnfailing := fun _ _ _ => ⟨none, rfl⟩

theorem exists_answer_bare (raw : RawTrace)
    (hfloor : ∀ j, j < raw.steps.length → depthAt raw.steps 0 ≤ depthAt raw.steps j) :
    ∃ trace, (bare.traceRaw ({} : Options Unit) { address := .zero } raw
      { state := () }).answer = .ok trace := by
  obtain ⟨trace, after, hrun⟩ := exists_annotateRaw isUnfailing_bare ({} : Options Unit)
    { address := .zero } { state := () } hfloor
  exact ⟨trace, by rw [answer_traceRaw, hrun]; exact handedOut_nil _ trace⟩

/-- A call whose callee returns past its caller. -/
def returnPastCaller : RawTrace where
  steps := [{ depth := 2, op := "CALL" }, { depth := 3, pc := 7, op := "RETURN" },
    { depth := 1, pc := 9, op := "STOP" }]

theorem frames_traceRaw_returnPastCaller :
    bare.source.IsUnfailing ∧
      (bare.traceRaw ({} : Options Unit) { address := .zero } returnPastCaller
        { state := () }).answer = .error (.frameUnderflow 1 7 "RETURN") := by
  have hunderflow : UnderflowsAt returnPastCaller.steps 1 :=
    ⟨by decide, by decide, by decide⟩
  have hframes := frames_traceRaw bare isUnfailing_bare ({} : Options Unit) { address := .zero }
    returnPastCaller { state := () }
  exact ⟨isUnfailing_bare, (hframes.2.1 1 7 "RETURN").mpr ⟨hunderflow, _, rfl, rfl, rfl⟩⟩

end Tracer

end TraceGloss
