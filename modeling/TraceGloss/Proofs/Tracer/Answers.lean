import TraceGloss.Proofs.Tracer.Bookkeeping

/-
  From a run to an answer.
  `annotateRaw` is the part of a trace that computes: it finds the materials of the entry and takes
  all steps. Sinks come behind it and can only refuse what it found (`answer_traceRaw`). Where it
  succeeds the run has reached its end (`annotateRaw_ok`); where it fails, materials failed or the
  frames underflowed at a step that was reached (`annotateRaw_error`). Without filters that makes a
  note of every step (`noted_of_annotateRaw`), linked by `relink`, which changes links only.
-/
namespace TraceGloss

open Tracing

/-- A source that always has an answer. -/
def MaterialsSource.IsUnfailing {σ : Type} (source : MaterialsSource σ) : Prop :=
  ∀ address isCreation state, ∃ found, (source.fetch address isCreation state).1 = .ok found

theorem Supply.get_of_isUnfailing {σ : Type} {source : MaterialsSource σ}
    (h : source.IsUnfailing) (address : Address) (isCreation : Bool) (supply : Supply σ) :
    ∃ found, (supply.get source address isCreation).1 = .ok found := by
  cases hhand : supply.atHand? address isCreation with
  | some found => exact ⟨found, by rw [get_of_atHand source hhand]⟩
  | none =>
    rw [(get_of_missing source hhand).1]
    exact h address isCreation supply.state

/-- What the sinks make of a trace: the trace itself, or the failure of a sink. -/
def handedOut {τ : Type} (concurrent : Bool) (sinks : List (Sink τ × τ)) (trace : AnnotatedTrace) :
    Except TraceError AnnotatedTrace :=
  match (deliver trace concurrent sinks).1 with
  | .ok _ => .ok trace
  | .error cause => .error (.sink cause)

theorem handedOut_nil {τ : Type} (concurrent : Bool) (trace : AnnotatedTrace) :
    handedOut concurrent ([] : List (Sink τ × τ)) trace = .ok trace := by
  have hturns : ∀ n,
      Nat.repeat (List.map (Delivery.advance trace)) n ([] : List (Delivery τ)) = [] := by
    intro n
    induction n with
    | zero => rfl
    | succ n ih => rw [Nat.repeat, ih, List.map_nil]
  cases concurrent
  · rfl
  · simp only [handedOut, deliver, deliverInTurns, List.map_nil, hturns]
    rfl

theorem handedOut_eq_ok {τ : Type} {concurrent : Bool} {sinks : List (Sink τ × τ)}
    {trace found : AnnotatedTrace} (h : handedOut concurrent sinks trace = .ok found) :
    found = trace := by
  unfold handedOut at h
  split at h
  · cases h
    rfl
  · cases h

namespace Tracer

variable {σ τ : Type} (tracer : Tracer σ)

/-- A trace as it is computed, before the sinks are served. -/
def annotateRaw (options : Options τ) (entry : EntryPoint) (raw : RawTrace) :
    Tracing σ AnnotatedTrace := do
  let found ← tracer.materialsFor entry.address entry.isCreation none #[]
  tracer.annotate options entry raw found

theorem answer_traceRaw (options : Options τ) (entry : EntryPoint) (raw : RawTrace)
    (supply : Supply σ) :
    (tracer.traceRaw options entry raw supply).answer =
      ((tracer.annotateRaw options entry raw).run supply).1.bind
        (handedOut tracer.config.concurrentSinks options.sinks) := by
  rw [traceRaw, annotateRaw, run_bind]
  rcases (tracer.materialsFor entry.address entry.isCreation none #[]).run supply with
    ⟨error | found, between⟩
  · rfl
  · dsimp only
    rcases (tracer.annotate options entry raw found).run between with ⟨error | trace, after⟩ <;> rfl

variable {tracer} {options : Options τ} {entry : EntryPoint} {raw : RawTrace}
  {supply supply' : Supply σ}

/-- A trace that is computed is that of a run over all steps. -/
theorem annotateRaw_ok {trace : AnnotatedTrace}
    (h : (tracer.annotateRaw options entry raw).run supply = (.ok trace, supply')) :
    ∃ materials diagnostics between run,
      tracer.Reaches options.keepStep raw.steps
        (tracer.startRun options.constants entry materials diagnostics) between
        raw.steps.length run supply' ∧
      trace = tracer.annotated options.keepAnnotated raw run := by
  obtain ⟨⟨materials, diagnostics⟩, between, -, hannotate⟩ := bind_ok h
  obtain ⟨run, after, htake, hannotated⟩ := bind_ok hannotate
  cases hannotated
  have hends := takeAll_ends tracer options.keepStep raw.steps
    (tracer.startRun options.constants entry materials diagnostics) between
  rw [htake] at hends
  cases hends with
  | ok hreaches => exact ⟨materials, diagnostics, between, run, hreaches, rfl⟩

/-- A trace fails when materials do, or at a step that leaves the outermost frame. -/
theorem annotateRaw_error {e : TraceError}
    (h : (tracer.annotateRaw options entry raw).run supply = (.error e, supply')) :
    (∃ address isCreation cause between, e = .materialsFailed address cause ∧
        (Supply.get tracer.source address isCreation between).1 = .error cause) ∨
      ∃ materials diagnostics between index s run after levels next,
        tracer.Reaches options.keepStep raw.steps
          (tracer.startRun options.constants entry materials diagnostics) between index run after ∧
        raw.steps[index]? = some s ∧ s.moveTo raw.steps[index + 1]? = .out levels next ∧
        Frames.leave? next.gas levels run.frames run.steps = none ∧
        e = .frameUnderflow index s.pc s.op := by
  rcases bind_error h with hfound | ⟨⟨materials, diagnostics⟩, between, -, hannotate⟩
  · left
    rw [materialsFor_run] at hfound
    split at hfound
    · cases hfound
    · cases hfound
    · rename_i cause _ hget
      cases hfound
      exact ⟨entry.address, entry.isCreation, cause, supply, rfl, by rw [hget]⟩
  · rcases bind_error hannotate with htake | ⟨run, after, -, hannotated⟩
    · have hends := takeAll_ends tracer options.keepStep raw.steps
        (tracer.startRun options.constants entry materials diagnostics) between
      rw [htake] at hends
      cases hends with
      | error before hs hstep =>
        rename_i index s run after
        rcases move_error (take_error hstep) with ⟨address, cause, he, hget⟩ |
          ⟨levels, next, hmove, he, hleave⟩
        · exact .inl ⟨address, false, cause, after, he, hget⟩
        · exact .inr ⟨materials, diagnostics, between, index, s, run, after, levels, next, before,
            hs, hmove, hleave, he⟩
    · cases hannotated

/-- What a trace answers, it has computed. -/
theorem annotateRaw_of_answer {trace : AnnotatedTrace}
    (h : (tracer.traceRaw options entry raw supply).answer = .ok trace) :
    ∃ after, (tracer.annotateRaw options entry raw).run supply = (.ok trace, after) := by
  rw [answer_traceRaw] at h
  rcases hrun : (tracer.annotateRaw options entry raw).run supply with ⟨error | found, after⟩
  · rw [hrun] at h
    cases h
  · rw [hrun] at h
    rw [handedOut_eq_ok h]
    exact ⟨after, rfl⟩

end Tracer

/-! ## Links -/

/-- The step before it is linked. -/
def AnnotatedStep.unlinked (s : AnnotatedStep) : AnnotatedStep := { s with previous := none }

/-- Linking changes nothing but the links. -/
theorem map_unlinked_relink (previous : Option Nat) (steps : List AnnotatedStep) :
    (relink previous steps).map AnnotatedStep.unlinked = steps.map AnnotatedStep.unlinked := by
  induction steps generalizing previous with
  | nil => rfl
  | cons s rest ih =>
    rw [relink, List.map_cons, List.map_cons, ih]
    rfl

/-- What does not look at links is the same of linked steps. -/
theorem map_relink {β : Type} {f : AnnotatedStep → β} (hf : ∀ s, f s.unlinked = f s)
    (previous : Option Nat) (steps : List AnnotatedStep) :
    (relink previous steps).map f = steps.map f := by
  have hunlinked : f ∘ AnnotatedStep.unlinked = f := funext hf
  have hmap := congrArg (List.map f) (map_unlinked_relink previous steps)
  rw [List.map_map, List.map_map, hunlinked] at hmap
  exact hmap

/-- Links from before do not matter. -/
theorem relink_map_unlinked (previous : Option Nat) (steps : List AnnotatedStep) :
    relink previous (steps.map AnnotatedStep.unlinked) = relink previous steps := by
  induction steps generalizing previous with
  | nil => rfl
  | cons s rest ih =>
    rw [List.map_cons, relink, relink, ih]
    rfl

/-! ## Without filters -/

namespace Tracer

variable {σ τ : Type} {tracer : Tracer σ} {entry : EntryPoint} {raw : RawTrace}
  {supply supply' : Supply σ}

theorem steps_annotated_all (tracer : Tracer σ) (raw : RawTrace) (run : Run) :
    (tracer.annotated (fun _ => true) raw run).steps.toList = relink none run.steps.toList := by
  have hall : run.steps.toList.filter (fun _ => true) = run.steps.toList :=
    List.filter_eq_self.mpr fun _ _ => rfl
  rw [annotated, hall]

/-- A trace without filters holds a note of every step, and no step is shallower than the first one.
-/
theorem noted_of_annotateRaw {constants : Constants} {sinks : List (Sink τ × τ)}
    {trace : AnnotatedTrace}
    (h : (tracer.annotateRaw { constants, sinks } entry raw).run supply = (.ok trace, supply')) :
    ∃ notes : List AnnotatedStep, trace.steps.toList = relink none notes ∧
      notes.length = raw.steps.length ∧
      (∀ k a, notes[k]? = some a →
        Noted entry.address raw.steps (raw.steps.length - 1) k a) ∧
      ∀ j, j < raw.steps.length → depthAt raw.steps 0 ≤ depthAt raw.steps j := by
  obtain ⟨materials, diagnostics, between, run, hreaches, rfl⟩ := annotateRaw_ok h
  obtain ⟨hsize, hnoted, hfloor⟩ := hreaches.noted
  refine ⟨run.steps.toList, steps_annotated_all tracer raw run, hsize, ?_, hfloor⟩
  intro k a hk
  rw [Array.getElem?_toList] at hk
  exact hnoted k a hk

/-- If materials are always to be had, a trace without filters fails only where it underflows. -/
theorem underflowsAt_of_annotateRaw (hsource : tracer.source.IsUnfailing) {constants : Constants}
    {sinks : List (Sink τ × τ)} {e : TraceError}
    (h : (tracer.annotateRaw { constants, sinks } entry raw).run supply = (.error e, supply')) :
    ∃ k s, UnderflowsAt raw.steps k ∧ raw.steps[k]? = some s ∧
      e = .frameUnderflow k s.pc s.op := by
  rcases annotateRaw_error h with ⟨address, isCreation, cause, between, -, hget⟩ |
    ⟨materials, diagnostics, between, k, s, run, after, levels, next, hreaches, hs, hmove, hleave,
      he⟩
  · obtain ⟨found, hfound⟩ := Supply.get_of_isUnfailing hsource address isCreation between
    rw [hget] at hfound
    cases hfound
  · obtain ⟨hk, -⟩ := List.getElem?_eq_some_iff.mp hs
    have hfollows := hreaches.follows hk
    have hlevels := (Frames.leave?_eq_none_iff _ _ _ _).mp hleave
    rw [Frames.length_levels, hfollows.frames.depth] at hlevels
    have hfloor := hfollows.frames.floor k (Nat.le_refl k)
    obtain ⟨hlast, hlt, hout⟩ := of_moveTo_eq_out hs hmove
    exact ⟨k, s, ⟨hlast, by omega, hfollows.frames.floor⟩, hs, he⟩

end Tracer

end TraceGloss
