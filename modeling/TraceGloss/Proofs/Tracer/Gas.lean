import TraceGloss.Proofs.Tracer.Depths

/-
  What every step of a whole trace is charged with.
  The tracer goes through the steps once and puts the cost on an opener when its frame is left. What
  comes of it is a formula over the depth and gas columns, which looks ahead as far as it must
  (`costs_traceRaw`).
-/
namespace TraceGloss

open Tracing

/-- The gas that step `i` of a trace is charged with: none if nothing follows it or if it leaves its
frame, what the next step's line says if it stays, and if it opens a frame what went into the frame
and did not come back, or what the next line says if the frame is never left. -/
def chargedCost (steps : List Step) (i : Nat) : Nat := costSeen steps (steps.length - 1) i

namespace Tracer

variable {σ τ : Type}

/-- Every step of a trace without filters is charged what the columns say. -/
theorem costs_traceRaw (tracer : Tracer σ) (constants : Constants) (sinks : List (Sink τ × τ))
    (entry : EntryPoint) (raw : RawTrace) (supply : Supply σ) (trace : AnnotatedTrace)
    (h : (tracer.traceRaw { constants, sinks } entry raw supply).answer = .ok trace) :
    trace.steps.toList.map (·.cost) =
      (List.range raw.steps.length).map (chargedCost raw.steps) := by
  obtain ⟨after, hrun⟩ := annotateRaw_of_answer h
  obtain ⟨notes, hsteps, hlength, hnoted, -⟩ := noted_of_annotateRaw hrun
  rw [hsteps, map_relink (fun _ => by rfl)]
  apply List.ext_getElem
  · rw [List.length_map, List.length_map, List.length_range, hlength]
  · intro k hk hk'
    rw [List.length_map] at hk
    rw [List.getElem_map, List.getElem_map, List.getElem_range]
    exact (hnoted k _ (List.getElem?_eq_getElem hk)).cost

/-- A call whose callee creates a contract two levels too deep, and which both end at once. -/
def nestedCreation : RawTrace where
  steps := [{ depth := 1, op := "PUSH1", gas := 100, gasCost := 3 },
    { depth := 1, op := "CALL", gas := 97, gasCost := 90 },
    { depth := 2, op := "CREATE", gas := 60, gasCost := 32 },
    { depth := 5, op := "RETURN", gas := 20, gasCost := 1 },
    { depth := 1, op := "POP", gas := 11, gasCost := 2 },
    { depth := 1, op := "JUMPDEST", gas := 9, gasCost := 1 }]

theorem costs_traceRaw_nestedCreation :
    ∃ trace, (bare.traceRaw ({} : Options Unit) { address := .zero } nestedCreation
        { state := () }).answer = .ok trace ∧
      trace.steps.toList.map (·.cost) = [90, 49, 9, 0, 1, 0] := by
  have hfloor : ∀ j, j < nestedCreation.steps.length →
      depthAt nestedCreation.steps 0 ≤ depthAt nestedCreation.steps j := by decide
  obtain ⟨trace, after, hrun⟩ := exists_annotateRaw isUnfailing_bare ({} : Options Unit)
    { address := .zero } { state := () } hfloor
  have hanswer : (bare.traceRaw ({} : Options Unit) { address := .zero } nestedCreation
      { state := () }).answer = .ok trace := by
    rw [answer_traceRaw, hrun]
    exact handedOut_nil _ trace
  have hcosts := costs_traceRaw bare Table.empty [] { address := .zero } nestedCreation
    { state := () } trace hanswer
  have hcharged : (List.range nestedCreation.steps.length).map (chargedCost nestedCreation.steps) =
      [90, 49, 9, 0, 1, 0] := by decide
  rw [hcharged] at hcosts
  exact ⟨trace, hanswer, hcosts⟩

end Tracer

end TraceGloss
