import TraceGloss.Proofs.Tracer.Depths
import TraceGloss.Proofs.Tracer.Nesting

/-
  What a message call is charged with when gas is counted by frames.
  The tracer takes the gas of the caller behind a sub-call from the gas of the callee before it. With
  one count of gas for all frames that is what the sub-call used up. Where every frame has its own
  count (`FrameGas`) the caller goes on with what it kept back as well, and the charge is short of
  that amount: it is right only if nothing was kept back or nothing used up (`callCost_traceRaw`).
-/
namespace TraceGloss

/-- The gas around the frame that step `c` opens and step `e` leaves, counted by frames: the callee
starts with `given`, and behind it the caller has what it `kept` back and what is `left`. -/
structure FrameGas (steps : List Step) (c e kept given left : Nat) : Prop where
  given_eq : (gasAt steps (c + 1)).toNat = given
  left_le : left ≤ given
  resumed_eq : (gasAt steps (e + 1)).toNat = kept + left

namespace Tracer

variable {σ τ : Type}

/-- A step whose frame is left is charged with the difference of two entries of the gas column. -/
theorem cost_of_isExit {tracer : Tracer σ} {constants : Constants} {sinks : List (Sink τ × τ)}
    {entry : EntryPoint} {raw : RawTrace} {supply : Supply σ} {trace : AnnotatedTrace}
    (h : (tracer.traceRaw { constants, sinks } entry raw supply).answer = .ok trace) {c e : Nat}
    (hexit : IsExit raw.steps c e) :
    (trace.steps[c]?).map (·.cost) =
      some ((gasAt raw.steps (c + 1)).toNat - (gasAt raw.steps (e + 1)).toNat) := by
  obtain ⟨after, hrun⟩ := annotateRaw_of_answer h
  obtain ⟨notes, hsteps, hlength, hnoted, -⟩ := noted_of_annotateRaw hrun
  have hnext := hexit.next_lt
  have hbehind := hexit.behind
  have hc : c < notes.length := by omega
  have hnote := hnoted c _ (List.getElem?_eq_getElem hc)
  have hcost := costSeen_of_opens raw.steps (m := raw.steps.length - 1) (by omega) hexit.opens
  rw [hexit.exitBefore?_eq] at hcost
  have hcosts : trace.steps.toList.map (·.cost) = notes.map (·.cost) := by
    rw [hsteps, map_relink (fun _ => by rfl)]
  rw [← Array.getElem?_toList, ← List.getElem?_map, hcosts, List.getElem?_map,
    List.getElem?_eq_getElem hc, Option.map_some, hnote.cost, hcost]

/-- A call is charged with what its sub-call used up less what the caller kept back, or with nothing if
that is more. -/
theorem callCost_traceRaw (tracer : Tracer σ) (constants : Constants) (sinks : List (Sink τ × τ))
    (entry : EntryPoint) (raw : RawTrace) (supply : Supply σ) (trace : AnnotatedTrace)
    (h : (tracer.traceRaw { constants, sinks } entry raw supply).answer = .ok trace)
    {c e kept given left : Nat} (hexit : IsExit raw.steps c e)
    (hgas : FrameGas raw.steps c e kept given left) :
    ∃ call, trace.steps[c]? = some call ∧
      call.cost + min kept (given - left) = given - left ∧
      (call.cost = given - left ↔ kept = 0 ∨ left = given) := by
  obtain ⟨call, hcall, hcost⟩ := Option.map_eq_some_iff.mp (cost_of_isExit h hexit)
  have hle := hgas.left_le
  rw [hgas.given_eq, hgas.resumed_eq] at hcost
  exact ⟨call, hcall, by omega, by omega⟩

/-- A call that keeps 100 gas back; of the 800 it gives, 700 are left. -/
def keptBack : RawTrace where
  steps := [{ depth := 1, op := "CALL", gas := 1000, gasCost := 100 },
    { depth := 2, op := "SLOAD", gas := 800, gasCost := 100 },
    { depth := 2, op := "STOP", gas := 700 },
    { depth := 1, op := "POP", gas := 800, gasCost := 2 }]

theorem isExit_keptBack : IsExit keptBack.steps 0 2 where
  opens := by decide
  behind := by decide
  next_lt := by decide
  leaves := by decide
  stays := by
    intro j hfrom hto
    have hj : j = 1 := by omega
    subst hj
    decide

theorem frameGas_keptBack : FrameGas keptBack.steps 0 2 100 800 700 := ⟨rfl, by decide, rfl⟩

theorem callCost_traceRaw_keptBack :
    ∃ trace, (bare.traceRaw ({} : Options Unit) { address := .zero } keptBack
        { state := () }).answer = .ok trace ∧
      IsExit keptBack.steps 0 2 ∧ FrameGas keptBack.steps 0 2 100 800 700 ∧
      ∃ call, trace.steps[0]? = some call ∧ call.cost = 0 := by
  obtain ⟨trace, hanswer⟩ := exists_answer_bare keptBack (by decide)
  obtain ⟨call, hcall, hcost, -⟩ := callCost_traceRaw bare Table.empty [] { address := .zero }
    keptBack { state := () } trace hanswer isExit_keptBack frameGas_keptBack
  exact ⟨trace, hanswer, isExit_keptBack, frameGas_keptBack, call, hcall, by omega⟩

/-- So a message call is not always charged with what its sub-call used up, not even where no level
is skipped. -/
theorem not_callCost_eq_consumed :
    ¬ ∀ (raw : RawTrace) (trace : AnnotatedTrace) (s : Step) (c e kept given left : Nat),
      (bare.traceRaw ({} : Options Unit) { address := .zero } raw { state := () }).answer =
        .ok trace →
      raw.steps[c]? = some s → s.op ∈ messageCalls → IsExit raw.steps c e →
      depthAt raw.steps (c + 1) = depthAt raw.steps c + 1 →
      depthAt raw.steps (e + 1) = depthAt raw.steps c →
      FrameGas raw.steps c e kept given left →
      (trace.steps[c]?).map (·.cost) = some (given - left) := by
  intro hall
  obtain ⟨trace, hanswer⟩ := exists_answer_bare keptBack (by decide)
  have hclaimed := hall keptBack trace _ 0 2 100 800 700 hanswer rfl (by decide) isExit_keptBack
    (by decide) (by decide) frameGas_keptBack
  have hcharged := cost_of_isExit hanswer isExit_keptBack
  have hnothing : (gasAt keptBack.steps 1).toNat - (gasAt keptBack.steps 3).toNat = 0 := by decide
  rw [hclaimed, hnothing] at hcharged
  cases hcharged

end Tracer

end TraceGloss
