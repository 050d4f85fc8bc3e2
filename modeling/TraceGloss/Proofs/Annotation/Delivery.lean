import TraceGloss.Proofs.Annotation.Calls
import TraceGloss.Tracer.Basic

/-
  Sinks do not see each other.
  `takeTurns` serves sinks in turns of any order. At every moment the number of turns that a sink has
  had says how many of its calls it has received (`Delivery.reached_repeat`), whatever became of the
  others. So all orders that bring every sink to its end come to the same (`verdict_eq`), and among
  them the two in which `deliver` serves sinks (`deliver_eq`). The failure that is reported is that of
  the first sink in the list that fails, and not the first to happen (`deliver_isolated`).
-/
namespace TraceGloss

/-! ## Turns -/

/-- The first of several turns comes before the others. -/
theorem repeat_succ_first {α : Type} (f : α → α) (n : Nat) (a : α) :
    Nat.repeat f (n + 1) a = Nat.repeat f n (f a) := by
  induction n with
  | zero => rfl
  | succ n ih => exact congrArg f ih

namespace Delivery

variable {τ : Type} (trace : AnnotatedTrace)

theorem repeat_advance_ended {d : Delivery τ} (h : d.outcome.isSome) (n : Nat) :
    Nat.repeat (advance trace) n d = d := by
  induction n with
  | zero => rfl
  | succ n ih =>
    rw [Nat.repeat, ih, advance]
    split
    · rfl
    · rename_i hnone
      rw [hnone] at h
      cases h

/-- A delivery to which the first `n` of some calls were made, and which ends with the last of them:
with a failure or without one. -/
structure Reached (sink : Sink τ) (state : τ) (calls : List Callback) (failure : Option SinkError)
    (n : Nat) (d : Delivery τ) : Prop where
  state : d.state = sink.after state (calls.take n)
  outcome : d.outcome = if calls.length ≤ n then some (SinkError.answer failure) else none

namespace Reached

variable {sink : Sink τ} {state next : τ} {calls : List Callback} {call : Callback}
  {failure : Option SinkError} {n : Nat}

theorem start (pending : List AnnotatedStep) (h : calls ≠ []) :
    Reached sink state calls failure 0 { sink, state, pending } := by
  refine ⟨rfl, ?_⟩
  rw [if_neg]
  rwa [Nat.le_zero, List.length_eq_zero_iff]

/-- The last call, with the answer to it. -/
theorem last {given : Except SinkError Unit} (pending : List AnnotatedStep)
    (h : sink.receive state call = (given, next)) :
    Reached sink state [call] (SinkError.of? given) (n + 1)
      { sink, state := next, pending, outcome := some given } := by
  refine ⟨?_, ?_⟩
  · rw [List.take_of_length_le (Nat.le_add_left 1 n)]
    exact congrArg Prod.snd h.symm
  · rw [SinkError.answer_of?, if_pos]
    exact Nat.le_add_left 1 n

/-- One more call in front. -/
theorem cons {d : Delivery τ} (h : sink.receive state call = (.ok (), next))
    (hrest : Reached sink next calls failure n d) :
    Reached sink state (call :: calls) failure (n + 1) d := by
  refine ⟨?_, ?_⟩
  · rw [hrest.state, List.take_succ_cons, Sink.after, Sink.after, List.foldl_cons, h]
  · rw [hrest.outcome, List.length_cons]
    simp only [Nat.add_le_add_iff_right]

end Reached

theorem advance_last (sink : Sink τ) (state : τ) :
    advance trace { sink, state, pending := [] } =
      { sink, state := (sink.receive state (.onTrace trace)).2, pending := [],
        outcome := some (sink.receive state (.onTrace trace)).1 } := rfl

theorem advance_step (sink : Sink τ) (state : τ) (step : AnnotatedStep)
    (rest : List AnnotatedStep) :
    advance trace { sink, state, pending := step :: rest } =
      match sink.receive state (.onStep step trace.info) with
      | (.ok _, state) => { sink, state, pending := rest }
      | (.error error, state) =>
        { sink, state, pending := step :: rest, outcome := some (.error error) } := rfl

/-- After any number of turns a sink has received as many calls, or all that it receives; then it has
ended, with its first refusal if there was one. -/
theorem reached_repeat (sink : Sink τ) (state : τ) (pending : List AnnotatedStep) (n : Nat) :
    Reached sink state (sink.received state (trace.callsFrom pending))
      (sink.failure? state (trace.callsFrom pending)) n
      (Nat.repeat (advance trace) n { sink, state, pending }) := by
  induction pending generalizing state n with
  | nil =>
    have hdue : trace.callsFrom [] = [.onTrace trace] := rfl
    rw [hdue]
    cases n with
    | zero => exact .start [] (sink.received_ne_nil state _ [])
    | succ n =>
      rw [repeat_succ_first, advance_last, repeat_advance_ended trace (by rfl)]
      rcases hanswer : sink.receive state (.onTrace trace) with ⟨error | _, next⟩
      · rw [Sink.received_of_refused [] hanswer, Sink.failure?_of_refused [] hanswer]
        exact .last [] hanswer
      · rw [Sink.received_of_accepted [] hanswer, Sink.failure?_of_accepted [] hanswer]
        exact .last [] hanswer
  | cons step rest ih =>
    have hdue : trace.callsFrom (step :: rest) =
        .onStep step trace.info :: trace.callsFrom rest := rfl
    rw [hdue]
    cases n with
    | zero => exact .start _ (sink.received_ne_nil state _ _)
    | succ n =>
      rw [repeat_succ_first, advance_step]
      rcases hanswer : sink.receive state (.onStep step trace.info) with ⟨error | _, next⟩
      · rw [repeat_advance_ended trace (by rfl), Sink.received_of_refused _ hanswer,
          Sink.failure?_of_refused _ hanswer]
        exact .last _ hanswer
      · rw [Sink.received_of_accepted _ hanswer, Sink.failure?_of_accepted _ hanswer]
        exact .cons hanswer (ih next n)

variable {trace}

theorem Reached.ended {sink : Sink τ} {state : τ} {calls : List Callback}
    {failure : Option SinkError} {n : Nat} {d : Delivery τ}
    (h : Reached sink state calls failure n d) (hended : d.outcome.isSome) :
    d.failure? = failure ∧ d.state = sink.after state calls := by
  have houtcome := h.outcome
  have hstate := h.state
  split at houtcome
  · rename_i hall
    rw [List.take_of_length_le hall] at hstate
    refine ⟨?_, hstate⟩
    rw [failure?, houtcome]
    cases failure <;> rfl
  · rw [houtcome] at hended
    cases hended

end Delivery

section Deliver

variable {τ : Type} (trace : AnnotatedTrace)

/-- Serves sinks in turns of any order: the sink at the place that has the turn gets the next call due
to it, if one is. -/
def takeTurns (turns : List Nat) (sinks : List (Delivery τ)) : List (Delivery τ) :=
  turns.foldl (fun sinks i => sinks.modify i (Delivery.advance trace)) sinks

/-- What is answered when sinks have been served. -/
def verdict (served : List (Delivery τ)) : Except SinkError Unit × List τ :=
  (SinkError.answer (served.findSome? Delivery.failure?), served.map (·.state))

theorem getElem?_takeTurns (turns : List Nat) (sinks : List (Delivery τ)) (i : Nat) :
    (takeTurns trace turns sinks)[i]? =
      (sinks[i]?).map (Nat.repeat (Delivery.advance trace) (turns.count i)) := by
  induction turns generalizing sinks with
  | nil => exact (Option.map_id_apply ..).symm
  | cons j turns ih =>
    have hfirst := ih (sinks.modify j (Delivery.advance trace))
    have hturns : ∀ d : Delivery τ, Nat.repeat (Delivery.advance trace) (turns.count i)
        (if j = i then Delivery.advance trace d else d) =
          Nat.repeat (Delivery.advance trace) ((j :: turns).count i) d := by
      intro d
      by_cases hij : j = i
      · rw [if_pos hij, hij, List.count_cons_self, repeat_succ_first]
      · rw [if_neg hij, List.count_cons_of_ne hij]
    rw [List.getElem?_modify] at hfirst
    refine Eq.trans hfirst ?_
    cases sinks[i]? with
    | none => rfl
    | some d => exact congrArg some (hturns d)

theorem getElem?_takeTurns_start (turns : List Nat) (sinks : List (Sink τ × τ)) (i : Nat) :
    (takeTurns trace turns (sinks.map (Delivery.start trace)))[i]? =
      (sinks[i]?).map fun s =>
        Nat.repeat (Delivery.advance trace) (turns.count i) (Delivery.start trace s) := by
  rw [getElem?_takeTurns, List.getElem?_map, Option.map_map]
  rfl

variable {trace}

/-- When sinks have had turns, however many each, and all have ended, then each has received what it
receives alone, and the first failure in the list is reported. -/
theorem verdict_eq (turns : Nat → Nat) {sinks : List (Sink τ × τ)} {served : List (Delivery τ)}
    (h : ∀ i, served[i]? = (sinks[i]?).map fun s =>
      Nat.repeat (Delivery.advance trace) (turns i) (Delivery.start trace s))
    (hended : ∀ d ∈ served, d.outcome.isSome) :
    verdict served =
      (SinkError.answer (sinks.findSome? fun s => s.1.failure? s.2 trace.callbacks),
        sinks.map fun s => s.1.after s.2 (s.1.received s.2 trace.callbacks)) := by
  have hpairs : served.map (fun d => (d.failure?, d.state)) = sinks.map fun s =>
      (s.1.failure? s.2 trace.callbacks, s.1.after s.2 (s.1.received s.2 trace.callbacks)) := by
    apply List.ext_getElem?
    intro i
    rw [List.getElem?_map, List.getElem?_map]
    cases hs : sinks[i]? with
    | none =>
      rw [h i, hs]
      rfl
    | some s =>
      have hd := h i
      rw [hs, Option.map_some] at hd
      have hreached := Delivery.reached_repeat trace s.1 s.2 trace.steps.toList (turns i)
      obtain ⟨hfailure, hstate⟩ := hreached.ended (hended _ (List.mem_of_getElem? hd))
      rw [hd, Option.map_some, Option.map_some]
      exact congrArg some (Prod.ext hfailure hstate)
  have hfailures : served.findSome? Delivery.failure? =
      sinks.findSome? fun s => s.1.failure? s.2 trace.callbacks := by
    have hfirst := congrArg (List.findSome? Prod.fst) hpairs
    rwa [List.findSome?_map, List.findSome?_map] at hfirst
  have hstates := congrArg (List.map Prod.snd) hpairs
  rw [List.map_map, List.map_map] at hstates
  rw [verdict, hfailures]
  exact Prod.ext rfl hstates

/-- Enough turns for all calls bring a sink to its end. -/
theorem ended_of_turns (s : Sink τ × τ) {n : Nat} (h : trace.steps.size < n) :
    (Nat.repeat (Delivery.advance trace) n (Delivery.start trace s)).outcome.isSome := by
  have hreached := Delivery.reached_repeat trace s.1 s.2 trace.steps.toList n
  have hdue := trace.length_callbacks
  have hlength := s.1.length_received_le s.2 trace.callbacks
  have houtcome := hreached.outcome
  rw [if_pos (by exact (by omega : (s.1.received s.2 trace.callbacks).length ≤ n))] at houtcome
  exact Option.isSome_of_eq_some houtcome

theorem ended_takeTurns {turns : List Nat} {sinks : List (Sink τ × τ)}
    (h : ∀ i < sinks.length, trace.steps.size < turns.count i) :
    ∀ d ∈ takeTurns trace turns (sinks.map (Delivery.start trace)), d.outcome.isSome := by
  intro d hd
  obtain ⟨i, hi⟩ := List.mem_iff_getElem?.mp hd
  rw [getElem?_takeTurns_start] at hi
  obtain ⟨s, hs, rfl⟩ := Option.map_eq_some_iff.mp hi
  obtain ⟨hlt, -⟩ := List.getElem?_eq_some_iff.mp hs
  exact ended_of_turns s (h i hlt)

/-- At every moment a sink has received as many of its calls as it has had turns. -/
theorem state_takeTurns (turns : List Nat) (sinks : List (Sink τ × τ)) (i : Nat) :
    ((takeTurns trace turns (sinks.map (Delivery.start trace)))[i]?).map (·.state) =
      (sinks[i]?).map fun s =>
        s.1.after s.2 ((s.1.received s.2 trace.callbacks).take (turns.count i)) := by
  rw [getElem?_takeTurns_start, Option.map_map]
  congr 1
  funext s
  exact (Delivery.reached_repeat trace s.1 s.2 trace.steps.toList (turns.count i)).state

theorem repeat_map {α : Type} (f : α → α) (n : Nat) (l : List α) :
    Nat.repeat (List.map f) n l = l.map (Nat.repeat f n) := by
  induction n with
  | zero => exact (List.map_id' l).symm
  | succ n ih =>
    rw [Nat.repeat, ih, List.map_map]
    rfl

theorem deliver_eq_verdict (trace : AnnotatedTrace) (concurrent : Bool)
    (sinks : List (Sink τ × τ)) :
    deliver trace concurrent sinks =
      verdict ((sinks.map (Delivery.start trace)).map (Delivery.finish trace)) := by
  have hserved : (if concurrent then deliverInTurns trace (sinks.map (Delivery.start trace))
      else deliverInOrder trace (sinks.map (Delivery.start trace))) =
        (sinks.map (Delivery.start trace)).map (Delivery.finish trace) := by
    cases concurrent with
    | false => rfl
    | true => exact repeat_map ..
  rw [deliver, hserved, verdict]
  cases ((sinks.map (Delivery.start trace)).map (Delivery.finish trace)).findSome?
    Delivery.failure? <;> rfl

theorem deliver_eq (trace : AnnotatedTrace) (concurrent : Bool) (sinks : List (Sink τ × τ)) :
    deliver trace concurrent sinks =
      (SinkError.answer (sinks.findSome? fun s => s.1.failure? s.2 trace.callbacks),
        sinks.map fun s => s.1.after s.2 (s.1.received s.2 trace.callbacks)) := by
  rw [deliver_eq_verdict]
  apply verdict_eq fun _ => trace.steps.size + 1
  · intro i
    rw [List.map_map, List.getElem?_map]
    rfl
  · intro d hd
    rw [List.map_map] at hd
    obtain ⟨s, -, rfl⟩ := List.mem_map.mp hd
    exact ended_of_turns s (Nat.lt_succ_self _)

/-- What is seen when sinks are observed while a trace is delivered to them. -/
structure Delivered (trace : AnnotatedTrace) (sinks : List (Sink τ × τ))
    (result : Except SinkError Unit × List (τ × List Callback)) : Prop where
  /-- Every sink has received the calls up to the first that it refused, whatever other sinks did. -/
  received : result.2 = sinks.map fun s =>
    (s.1.after s.2 (s.1.received s.2 trace.callbacks), s.1.received s.2 trace.callbacks)
  whole : ∀ s ∈ sinks, (s.1.received s.2 trace.callbacks).countP Callback.isOnTrace =
    if ∃ k < trace.steps.size, (s.1.refusal? s.2 trace.callbacks k).isSome then 0 else 1
  ok_iff : result.1 = .ok () ↔ ∀ s ∈ sinks, ∀ k, s.1.refusal? s.2 trace.callbacks k = none
  /-- Of several sinks that fail, the first in the list is reported. -/
  error_iff : ∀ error, result.1 = .error error ↔ ∃ before s behind,
    sinks = before ++ s :: behind ∧
      (∀ other ∈ before, ∀ k, other.1.refusal? other.2 trace.callbacks k = none) ∧
      s.1.failure? s.2 trace.callbacks = some error

/-- What sinks make of a trace when each is served alone. -/
theorem delivered_alone (trace : AnnotatedTrace) (sinks : List (Sink τ × τ)) :
    Delivered trace sinks
      (SinkError.answer (sinks.findSome? fun s => s.1.failure? s.2 trace.callbacks),
        sinks.map fun s =>
          (s.1.after s.2 (s.1.received s.2 trace.callbacks), s.1.received s.2 trace.callbacks)) := by
  refine ⟨rfl, fun s _ => s.1.countP_received s.2 trace, ?_, ?_⟩
  · simp only [← Sink.failure?_eq_none_iff]
    rw [← List.findSome?_eq_none_iff]
    exact SinkError.answer_eq_ok_iff
  · intro error
    simp only [← Sink.failure?_eq_none_iff]
    rw [SinkError.answer_eq_error_iff, List.findSome?_eq_some_iff]
    constructor
    · rintro ⟨before, s, behind, hsplit, hfails, hbefore⟩
      exact ⟨before, s, behind, hsplit, hbefore, hfails⟩
    · rintro ⟨before, s, behind, hsplit, hbefore, hfails⟩
      exact ⟨before, s, behind, hsplit, hfails, hbefore⟩

/-- A sink that records its calls, before the first. -/
def observed (s : Sink τ × τ) : Sink (τ × List Callback) × (τ × List Callback) :=
  (s.1.recorded, s.2, [])

theorem after_observed (s : Sink τ × τ) (calls : List Callback) :
    (observed s).1.after (observed s).2 calls = (s.1.after s.2 calls, calls) :=
  s.1.after_recorded s.2 [] calls

theorem received_observed (s : Sink τ × τ) (calls : List Callback) :
    (observed s).1.received (observed s).2 calls = s.1.received s.2 calls :=
  s.1.received_recorded s.2 [] calls

/-- Recording changes nothing for a sink, and lists what it receives. -/
theorem observed_alone (trace : AnnotatedTrace) (sinks : List (Sink τ × τ)) :
    ((sinks.map observed).findSome? fun s => s.1.failure? s.2 trace.callbacks) =
        sinks.findSome? (fun s => s.1.failure? s.2 trace.callbacks) ∧
      ((sinks.map observed).map fun s => s.1.after s.2 (s.1.received s.2 trace.callbacks)) =
        sinks.map fun s =>
          (s.1.after s.2 (s.1.received s.2 trace.callbacks), s.1.received s.2 trace.callbacks) := by
  refine ⟨?_, ?_⟩
  · rw [List.findSome?_map]
    congr 1
    funext s
    exact s.1.failure?_recorded s.2 [] trace.callbacks
  · rw [List.map_map]
    apply List.map_congr_left
    intro s _
    show (observed s).1.after (observed s).2 ((observed s).1.received _ trace.callbacks) = _
    rw [received_observed, after_observed]

end Deliver

/-! ## Traces -/

/-- A trace that fails before it is delivered leaves all sinks alone. -/
theorem Tracer.sinks_of_error {σ τ : Type} (tracer : Tracer σ) (options : Options τ)
    (entry : EntryPoint) (raw : RawTrace) (supply : Supply σ) {error : TraceError}
    (h : (tracer.traceRaw options entry raw supply).answer = .error error)
    (hother : ∀ cause, error ≠ .sink cause) :
    (tracer.traceRaw options entry raw supply).sinks = options.sinks.map (·.2) := by
  revert h
  unfold traceRaw
  rcases (tracer.materialsFor entry.address entry.isCreation none #[]).run supply with
    ⟨failure | found, between⟩
  · exact fun _ => rfl
  · dsimp only
    rcases (tracer.annotate options entry raw found).run between with ⟨failure | trace, after⟩
    · exact fun _ => rfl
    · intro h
      dsimp only at h
      split at h
      · cases h
      · rename_i cause _
        cases h
        exact absurd rfl (hother cause)

/-- Sinks are served apart from one another. Whichever way a trace is delivered to them, at once, in the
order of the list or in turns of any order, each receives the calls for it up to the first that it
refuses, and the first failure in the list is the answer. At every moment of any order a sink has
received as many of its calls as it has had turns. A trace that fails for other reasons makes no
calls. -/
theorem deliver_isolated {τ : Type} (trace : AnnotatedTrace) (sinks : List (Sink τ × τ)) :
    (∀ concurrent,
      Delivered trace sinks (deliver trace concurrent (sinks.map observed)) ∧
      deliver trace concurrent sinks =
        ((deliver trace concurrent (sinks.map observed)).1,
          (deliver trace concurrent (sinks.map observed)).2.map (·.1))) ∧
    (∀ turns : List Nat,
      let served := takeTurns trace turns ((sinks.map observed).map (Delivery.start trace))
      (∀ i : Nat, (served[i]?).map (·.state) = (sinks[i]?).map fun s =>
        let calls := (s.1.received s.2 trace.callbacks).take (turns.count i)
        (s.1.after s.2 calls, calls)) ∧
      ((∀ d ∈ served, d.outcome.isSome) → Delivered trace sinks (verdict served)) ∧
      ((∀ i < sinks.length, trace.steps.size < turns.count i) →
        ∀ d ∈ served, d.outcome.isSome)) ∧
    SinkError.panicked.message = "trace sink panicked" ∧
    ∀ {σ : Type} (tracer : Tracer σ) (options : Options (τ × List Callback)) (entry : EntryPoint)
      (raw : RawTrace) (supply : Supply σ) (error : TraceError),
      options.sinks = sinks.map observed →
      (tracer.traceRaw options entry raw supply).answer = .error error →
      (∀ cause, error ≠ .sink cause) →
      (tracer.traceRaw options entry raw supply).sinks = sinks.map fun s => (s.2, []) := by
  obtain ⟨hfailures, hstates⟩ := observed_alone trace sinks
  refine ⟨?_, ?_, rfl, ?_⟩
  · intro concurrent
    rw [deliver_eq, deliver_eq, hfailures, hstates, List.map_map]
    exact ⟨delivered_alone trace sinks, rfl⟩
  · intro turns served
    refine ⟨?_, ?_, ?_⟩
    · intro i
      rw [state_takeTurns, List.getElem?_map, Option.map_map]
      congr 1
      funext s
      rw [Function.comp_apply, received_observed, after_observed]
    · intro hended
      rw [verdict_eq turns.count (getElem?_takeTurns_start trace turns _) hended, hfailures, hstates]
      exact delivered_alone trace sinks
    · intro hturns
      apply ended_takeTurns
      rwa [List.length_map]
  · intro σ tracer options entry raw supply error hsinks h hother
    rw [tracer.sinks_of_error options entry raw supply h hother, hsinks, List.map_map]
    rfl

/-- A sink that cannot keep what it is given. -/
def fullDisk : Sink Unit where
  onStep _ _ state := (.ok (), state)
  onTrace _ state := (.error (.failed "disk full"), state)

/-- A sink that gives up at the second step. -/
def impatient : Sink Unit where
  onStep step _ state := (if step.index = 1 then .error .panicked else .ok (), state)
  onTrace _ state := (.ok (), state)

def twoSteps : AnnotatedTrace where
  steps := #[{ index := 0 }, { index := 1 }]

/-- The impatient sink fails first, but comes later in the list. -/
theorem deliver_isolated_fullDisk :
    let sinks := [(fullDisk, ()), (impatient, ()), (Sink.idle, ())]
    let served := takeTurns twoSteps [1, 1, 2, 1, 0, 2, 0, 2, 0]
      ((sinks.map observed).map (Delivery.start twoSteps))
    (∀ d ∈ served, d.outcome.isSome) ∧
      (verdict served).1 = .error (.failed "disk full") ∧
      (deliver twoSteps true (sinks.map observed)).1 = .error (.failed "disk full") ∧
      (verdict served).2.map (fun state => state.2.length) = [3, 2, 3] := by
  intro sinks served
  obtain ⟨hdelivers, hturns, -⟩ := deliver_isolated twoSteps sinks
  obtain ⟨-, hdelivered, henough⟩ := hturns [1, 1, 2, 1, 0, 2, 0, 2, 0]
  have hended : ∀ d ∈ served, d.outcome.isSome := henough (by decide)
  have hfirst : ∃ before s behind, sinks = before ++ s :: behind ∧
      (∀ other ∈ before, ∀ k, other.1.refusal? other.2 twoSteps.callbacks k = none) ∧
      s.1.failure? s.2 twoSteps.callbacks = some (.failed "disk full") :=
    ⟨[], (fullDisk, ()), [(impatient, ()), (Sink.idle, ())], rfl, by simp, rfl⟩
  refine ⟨hended, ((hdelivered hended).error_iff _).mpr hfirst,
    ((hdelivers true).1.error_iff _).mpr hfirst, ?_⟩
  rw [(hdelivered hended).received]
  rfl

end TraceGloss
