import TraceGloss.Proofs.Tracer.Depths

/-
  Finding one's way in an annotated trace.
  A trace is in order if the steps that it keeps go on in the recorded trace. Bisection then finds each of
  them by its index (`bisect_eq`), and nothing else (`stepAt?_eq_some_iff`). Linking leaves each step with
  the index of the one before it (`previous_relink`), so links are found as well. Whatever the filters,
  what a tracer answers is in order and linked (`navigates_traceRaw`).
-/
namespace TraceGloss

open Tracing

/-! ## Order -/

/-- Steps that go on in the recorded trace. -/
def InOrder (steps : List AnnotatedStep) : Prop := steps.Pairwise fun a b => a.index < b.index

theorem InOrder.lt {steps : Array AnnotatedStep} (h : InOrder steps.toList) {i j : Nat}
    {a b : AnnotatedStep} (ha : steps[i]? = some a) (hb : steps[j]? = some b) (hij : i < j) :
    a.index < b.index := by
  obtain ⟨hi, rfl⟩ := Array.getElem?_eq_some_iff.mp ha
  obtain ⟨hj, rfl⟩ := Array.getElem?_eq_some_iff.mp hb
  exact List.pairwise_iff_getElem.mp h i j hi hj hij

namespace AnnotatedTrace

section Bisection

variable {steps : Array AnnotatedStep} (hsteps : InOrder steps.toList) {place : Nat}
  {a : AnnotatedStep} (ha : steps[place]? = some a)
include hsteps ha

/-- What is at a place has a higher index than a step, or there is nothing at it, exactly if the place is
behind the step. -/
theorem isBehind_iff (middle : Nat) :
    (∀ b, steps[middle]? = some b → a.index < b.index) ↔ place < middle := by
  constructor
  · intro hbehind
    apply Classical.byContradiction
    intro hge
    have hplace := (Array.getElem?_eq_some_iff.mp ha).1
    have hb : steps[middle]? = some steps[middle] := Array.getElem?_eq_getElem (by omega)
    have hlt := hbehind _ hb
    rcases Nat.lt_or_eq_of_le (Nat.le_of_not_lt hge) with hbefore | rfl
    · exact Nat.lt_asymm hlt (hsteps.lt hb ha hbefore)
    · rw [hb] at ha
      cases ha
      exact Nat.lt_irrefl _ hlt
  · intro hlt b hb
    exact hsteps.lt ha hb hlt

/-- Bisection goes on in the half that holds the step. -/
theorem bisect_halve {low size : Nat} (hsize : 1 < size) :
    bisect steps a.index low size =
      bisect steps a.index (if place < low + size / 2 then low else low + size / 2)
        (size - size / 2) := by
  have hside := isBehind_iff hsteps ha (low + size / 2)
  rw [bisect, if_pos hsize]
  dsimp only
  congr 1
  cases hmiddle : steps[low + size / 2]? with
  | none =>
    rw [hmiddle] at hside
    rw [if_pos rfl, if_pos (hside.mp nofun)]
  | some b =>
    rw [hmiddle] at hside
    simp only [Option.some.injEq, forall_eq'] at hside
    simp only [decide_eq_true_eq, hside]

/-- Bisection keeps the place of a step between its bounds, and so ends at it. -/
theorem bisect_eq {low size : Nat} (hlow : low ≤ place) (hhigh : place < low + size) :
    bisect steps a.index low size = place := by
  induction size using Nat.strongRecOn generalizing low with
  | ind size ih =>
    by_cases hsize : 1 < size
    · rw [bisect_halve hsteps ha hsize]
      split
      · exact ih _ (by omega) hlow (by omega)
      · exact ih _ (by omega) (by omega) (by omega)
    · rw [bisect, if_neg hsize]
      omega

end Bisection

variable {t : AnnotatedTrace}

/-- A step is found by its index exactly if it was kept. -/
theorem stepAt?_eq_some_iff (h : InOrder t.steps.toList) {index : Nat} {a : AnnotatedStep} :
    t.stepAt? index = some a ↔ a ∈ t.steps ∧ a.index = index := by
  rw [stepAt?, Option.filter_eq_some_iff]
  constructor
  · rintro ⟨hfound, hindex⟩
    exact ⟨Array.mem_of_getElem? hfound, beq_iff_eq.mp hindex⟩
  · rintro ⟨hmem, rfl⟩
    obtain ⟨place, hplace, hat⟩ := Array.mem_iff_getElem.mp hmem
    have ha : t.steps[place]? = some a := Array.getElem?_eq_some_iff.mpr ⟨hplace, hat⟩
    rw [bisect_eq h ha (Nat.zero_le _) (by omega)]
    exact ⟨ha, beq_self_eq_true _⟩

end AnnotatedTrace

/-! ## Links -/

/-- The first step is linked to what is before all of them. -/
theorem previous_relink_zero {previous : Option Nat} {notes : List AnnotatedStep}
    {a : AnnotatedStep} (h : (relink previous notes)[0]? = some a) : a.previous = previous := by
  cases notes with
  | nil => cases h
  | cons s rest =>
    cases h
    rfl

/-- Every other step is linked to the one before it. -/
theorem previous_relink_succ {previous : Option Nat} {notes : List AnnotatedStep} {k : Nat}
    {a b : AnnotatedStep} (ha : (relink previous notes)[k]? = some a)
    (hb : (relink previous notes)[k + 1]? = some b) : b.previous = some a.index := by
  induction notes generalizing previous k with
  | nil => cases ha
  | cons s rest ih =>
    cases k with
    | zero =>
      cases ha
      exact previous_relink_zero hb
    | succ k => exact ih ha hb

namespace Tracer

variable {σ τ : Type} {tracer : Tracer σ} {options : Options τ} {entry : EntryPoint}
  {raw : RawTrace} {supply supply' : Supply σ} {trace : AnnotatedTrace}

/-- What the filters keep goes on as the recorded trace does. -/
theorem inOrder_of_annotateRaw
    (h : (tracer.annotateRaw options entry raw).run supply = (.ok trace, supply')) :
    InOrder trace.steps.toList := by
  rw [annotateRaw_filtered, map_eq_pure_bind] at h
  obtain ⟨whole, between, hwhole, hselect⟩ := bind_ok h
  cases hselect
  obtain ⟨notes, hsteps, -, hnoted, -⟩ := noted_of_annotateRaw hwhole
  have hindices : Numbered notes 0 := Numbered.of_getElem? fun k a hk => (hnoted k a hk).index
  rw [InOrder, ← List.pairwise_map (R := (· < ·)) (f := AnnotatedStep.index)]
  rw [AnnotatedTrace.select, List.toList_toArray, map_relink (fun _ => by rfl), hsteps]
  have hsublist := (List.filter_sublist (l := relink none notes)
    (p := fun a => a.isAmong (isKept options.keepStep raw.steps) &&
      options.keepAnnotated a.unlinked)).map AnnotatedStep.index
  rw [map_relink (fun _ => by rfl) none notes, hindices] at hsublist
  exact List.Pairwise.sublist hsublist List.pairwise_lt_range'

theorem linked_of_annotateRaw
    (h : (tracer.annotateRaw options entry raw).run supply = (.ok trace, supply')) :
    ∃ notes, trace.steps.toList = relink none notes := by
  obtain ⟨materials, diagnostics, between, run, -, rfl⟩ := annotateRaw_ok h
  exact ⟨_, List.toList_toArray⟩

/-- Going back and forth in a trace, whatever the filters. The steps of a trace are steps of the recorded
one, in order. A step is found by its index if it was kept, and no other is. The first step has none
before it, and every other one is linked to the step before it, which is found as well. -/
theorem navigates_traceRaw (h : (tracer.traceRaw options entry raw supply).answer = .ok trace) :
    (trace.steps.toList.map (·.index)).Pairwise (· < ·) ∧
    (∀ a ∈ trace.steps, raw.steps[a.index]? = some a.step) ∧
    (∀ index a, trace.stepAt? index = some a ↔ a ∈ trace.steps ∧ a.index = index) ∧
    (∀ a, trace.steps[0]? = some a → a.previous = none ∧ trace.previous? a = none) ∧
    ∀ k a b, trace.steps[k]? = some a → trace.steps[k + 1]? = some b →
      b.previous = some a.index ∧ trace.previous? b = some a := by
  obtain ⟨after, hrun⟩ := annotateRaw_of_answer h
  have horder := inOrder_of_annotateRaw hrun
  obtain ⟨notes, hnotes⟩ := linked_of_annotateRaw hrun
  obtain ⟨-, hplaced, -⟩ := placed_of_annotateRaw hrun
  have hlinked : ∀ k : Nat, trace.steps[k]? = (relink none notes)[k]? := by
    intro k
    rw [← hnotes, Array.getElem?_toList]
  refine ⟨List.pairwise_map.mpr horder, ?_, ?_, ?_, ?_⟩
  · intro a ha
    exact (hplaced a (Array.mem_toList_iff.mpr ha)).step
  · intro index a
    exact AnnotatedTrace.stepAt?_eq_some_iff horder
  · intro a ha
    rw [hlinked] at ha
    have hprevious := previous_relink_zero ha
    exact ⟨hprevious, by rw [AnnotatedTrace.previous?, hprevious, Option.bind_none]⟩
  · intro k a b ha hb
    have hmem : a ∈ trace.steps := Array.mem_of_getElem? ha
    rw [hlinked] at ha hb
    have hprevious := previous_relink_succ ha hb
    refine ⟨hprevious, ?_⟩
    rw [AnnotatedTrace.previous?, hprevious, Option.bind_some,
      AnnotatedTrace.stepAt?_eq_some_iff horder]
    exact ⟨hmem, rfl⟩

/-- Additions are of no interest. -/
def sparingAdditions : Options Unit where
  keepAnnotated a := a.step.op != "ADD"

/-- An addition between two other steps. -/
def pushAddStop : RawTrace where
  steps := [{ depth := 1, op := "PUSH1" }, { depth := 1, op := "ADD" }, { depth := 1, op := "STOP" }]

theorem navigates_traceRaw_pushAddStop :
    ∃ trace, (bare.traceRaw sparingAdditions { address := .zero } pushAddStop
        { state := () }).answer = .ok trace ∧
      (∀ index a, trace.stepAt? index = some a ↔ a ∈ trace.steps ∧ a.index = index) ∧
      ∀ k a b, trace.steps[k]? = some a → trace.steps[k + 1]? = some b →
        b.previous = some a.index ∧ trace.previous? b = some a := by
  have hfloor : ∀ j, j < pushAddStop.steps.length →
      depthAt pushAddStop.steps 0 ≤ depthAt pushAddStop.steps j := by decide
  obtain ⟨trace, after, hrun⟩ := exists_annotateRaw isUnfailing_bare sparingAdditions
    { address := .zero } { state := () } hfloor
  have hanswer : (bare.traceRaw sparingAdditions { address := .zero } pushAddStop
      { state := () }).answer = .ok trace := by
    rw [answer_traceRaw, hrun]
    exact handedOut_nil _ trace
  obtain ⟨-, -, hfound, -, hlinks⟩ := navigates_traceRaw hanswer
  exact ⟨trace, hanswer, hfound, hlinks⟩

end Tracer

end TraceGloss
