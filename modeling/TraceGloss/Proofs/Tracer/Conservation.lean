import Mathlib.Algebra.BigOperators.Intervals
import Mathlib.Algebra.BigOperators.Ring.Finset
import TraceGloss.Proofs.Tracer.Gas
import TraceGloss.Proofs.Tracer.Nesting

/-
  Gas is conserved.
  In a trace that is `Balanced` the gas column tells what is spent between two steps. The steps of the
  entry frame are charged with all of it, except for what opening a frame takes from the caller
  (`Balanced.sum_entryFrame`): a sub-call counts as one step. All steps together are charged with the
  gas inside a frame once for the frame and once for the steps inside (`Balanced.sum_charged`). Both
  hold of what a tracer puts out (`conserves_gas`). Sums are over the integers.
-/
namespace TraceGloss

open Tracing

/-- The gas left before a step, as an integer. -/
def gasLeft (steps : List Step) (i : Nat) : ℤ := (gasAt steps i).toNat

/-- What the gas column loses from step `i` to the next one. -/
def spent (steps : List Step) (i : Nat) : ℤ := gasLeft steps i - gasLeft steps (i + 1)

/-- The steps of a trace that open a frame. -/
def openers (steps : List Step) : Finset Nat := {c ∈ Finset.range steps.length | Opens steps c}

theorem mem_openers {steps : List Step} {c : Nat} : c ∈ openers steps ↔ Opens steps c := by
  unfold openers
  rw [Finset.mem_filter, Finset.mem_range]
  constructor
  · exact fun h => h.2
  · intro h
    have hnext := h.next_lt
    exact ⟨by omega, h⟩

/-- What the entry frame spends at step `i`, frames opened there included. -/
def spentInEntryFrame (steps : List Step) (i : Nat) : ℤ :=
  if depthAt steps i = depthAt steps 0 then
    chargedCost steps i + if Opens steps i then spent steps i else 0
  else 0

/-- A last part that is nought can be left out of a sum. -/
theorem sum_range_pred {f : Nat → ℤ} {n : Nat} (h : f (n - 1) = 0) :
    ∑ i ∈ Finset.range n, f i = ∑ i ∈ Finset.range (n - 1), f i := by
  cases n with
  | zero => rfl
  | succ n =>
    rw [Nat.add_sub_cancel] at h ⊢
    rw [Finset.sum_range_succ, h, add_zero]

/-- A trace of properly nested frames whose gas never grows, and which has the price of every step
that stays in its frame. -/
structure Balanced (steps : List Step) : Prop extends Nested steps where
  spends : ∀ k, k + 1 < steps.length → gasAt steps (k + 1) ≤ gasAt steps k
  priced : ∀ k, k + 1 < steps.length → depthAt steps k = depthAt steps (k + 1) →
    gasCostAt steps (k + 1) = (gasAt steps k).toNat - (gasAt steps (k + 1)).toNat

namespace Balanced

variable {steps : List Step} (h : Balanced steps)
include h

theorem length_pos : 0 < steps.length := List.length_pos_of_ne_nil h.nonempty

theorem gasLeft_le {i j : Nat} (hij : i ≤ j) (hj : j < steps.length) :
    gasLeft steps j ≤ gasLeft steps i := by
  induction j, hij using Nat.le_induction with
  | base => exact le_refl _
  | succ j hij ih =>
    have hspends := UInt64.le_iff_toNat_le.mp (h.spends j hj)
    have hbefore := ih (by omega)
    unfold gasLeft at hbefore ⊢
    omega

/-! ## Single costs -/

theorem chargedCost_of_stays {i : Nat} (hi : i + 1 < steps.length)
    (hstays : depthAt steps i = depthAt steps (i + 1)) :
    (chargedCost steps i : ℤ) = spent steps i := by
  have hcost := costSeen_of_not_opens steps (m := steps.length - 1) (i := i) (by omega) (by omega)
  have hprice := h.priced i hi hstays
  have hspends := UInt64.le_iff_toNat_le.mp (h.spends i hi)
  rw [if_pos hstays.symm] at hcost
  unfold chargedCost spent gasLeft
  omega

omit h in
theorem chargedCost_of_leaves {i : Nat} (hi : Leaves steps i) : (chargedCost steps i : ℤ) = 0 := by
  obtain ⟨hnext, hleaves⟩ := hi
  have hcost := costSeen_of_not_opens steps (m := steps.length - 1) (i := i) (by omega) (by omega)
  rw [if_neg (by omega)] at hcost
  unfold chargedCost
  omega

theorem chargedCost_of_opens {c : Nat} (hc : Opens steps c) :
    (chargedCost steps c : ℤ) =
      gasLeft steps (c + 1) - gasLeft steps (exitOf steps c + 1) := by
  have hexit := h.isExit_exitOf hc
  have hnext := hc.next_lt
  have hcost := costSeen_of_opens steps (m := steps.length - 1) (by omega) hc
  have hbehind := hexit.behind
  have hspends := h.gasLeft_le (i := c + 1) (by omega) hexit.next_lt
  unfold gasLeft at hspends ⊢
  rw [hexit.exitBefore?_eq] at hcost
  rw [chargedCost, hcost]
  exact Int.ofNat_sub (by omega)

omit h in
theorem chargedCost_last : (chargedCost steps (steps.length - 1) : ℤ) = 0 := by
  unfold chargedCost
  rw [costSeen_last steps (Nat.le_refl _)]
  rfl

omit h in
theorem stays_or_leaves_or_opens {i : Nat} (hi : i + 1 < steps.length) :
    depthAt steps i = depthAt steps (i + 1) ∨ Leaves steps i ∨ Opens steps i := by
  unfold Leaves Opens
  omega

/-! ## The entry frame -/

theorem spentInEntryFrame_of_stays {i : Nat} (hi : i + 1 < steps.length)
    (hentry : depthAt steps i = depthAt steps 0)
    (hstays : depthAt steps i = depthAt steps (i + 1)) :
    spentInEntryFrame steps i = gasLeft steps i - gasLeft steps (i + 1) := by
  have hcloses : ¬ Opens steps i := by
    unfold Opens
    omega
  unfold spentInEntryFrame
  rw [if_pos hentry, if_neg hcloses, h.chargedCost_of_stays hi hstays, add_zero, spent]

theorem spentInEntryFrame_of_isExit {c e : Nat} (hexit : IsExit steps c e)
    (hentry : depthAt steps c = depthAt steps 0) :
    spentInEntryFrame steps c = gasLeft steps c - gasLeft steps (e + 1) := by
  have hcost := h.chargedCost_of_opens hexit.opens
  rw [hexit.exitOf_eq] at hcost
  unfold spentInEntryFrame spent
  rw [if_pos hentry, if_pos hexit.opens, hcost]
  omega

omit h in
/-- Inside a frame that the entry frame opens, the entry frame spends nothing. -/
theorem sum_inside {c e : Nat} (hexit : IsExit steps c e)
    (hentry : depthAt steps c = depthAt steps 0) :
    ∑ i ∈ Finset.Ico (c + 1) (e + 1), spentInEntryFrame steps i = 0 := by
  have hopens := hexit.opens
  refine Finset.sum_eq_zero ?_
  intro i hi
  obtain ⟨hfrom, hto⟩ := Finset.mem_Ico.mp hi
  have hdeeper := hexit.inside (i := i) (by omega) (by omega)
  unfold Opens at hopens
  exact if_neg (by omega)

/-- Up to a step of the entry frame, that frame has spent what the gas column lost. The step before
stays in the frame, or leaves one that the entry frame has opened. -/
theorem sum_spentInEntryFrame {m : Nat} (hm : m < steps.length)
    (hlevel : depthAt steps m = depthAt steps 0) :
    ∑ i ∈ Finset.range m, spentInEntryFrame steps i = gasLeft steps 0 - gasLeft steps m := by
  induction m using Nat.strong_induction_on with
  | _ m ih =>
    match m, hm, hlevel with
    | 0, _, _ => rw [Finset.sum_range_zero, sub_self]
    | m + 1, hm, hlevel =>
      by_cases hstays : depthAt steps m = depthAt steps (m + 1)
      · have hsum := ih m (Nat.lt_succ_self m) (by omega) (by omega)
        have hspent := h.spentInEntryFrame_of_stays hm (by omega) hstays
        rw [Finset.sum_range_succ, hsum, hspent]
        omega
      · have hfloor := h.floor m (by omega)
        have hexit := h.isExit_entryOf (e := m) ⟨hm, by omega⟩
        have hbehind := hexit.behind
        have hback := (h.depthAt_exit hexit).2
        have hentry : depthAt steps (entryOf steps m) = depthAt steps 0 := by omega
        have hsum := ih (entryOf steps m) (by omega) (by omega) hentry
        have hspent := h.spentInEntryFrame_of_isExit hexit hentry
        have hsplit := Finset.sum_range_add_sum_Ico (spentInEntryFrame steps)
          (show entryOf steps m + 1 ≤ m + 1 by omega)
        rw [← hsplit, sum_inside hexit hentry, Finset.sum_range_succ, hsum, hspent]
        omega

/-- The steps of the entry frame are charged with all that is spent, but for what opening frames takes
from the caller. -/
theorem sum_entryFrame :
    ∑ i ∈ Finset.range steps.length with depthAt steps i = depthAt steps 0,
        (chargedCost steps i : ℤ) =
      (gasLeft steps 0 - gasLeft steps (steps.length - 1)) -
        ∑ c ∈ openers steps with depthAt steps c = depthAt steps 0, spent steps c := by
  have hlength := h.length_pos
  have hlast : spentInEntryFrame steps (steps.length - 1) = 0 := by
    unfold spentInEntryFrame
    rw [if_pos h.returns, if_neg not_opens_last, chargedCost_last, add_zero]
  have hall : ∑ i ∈ Finset.range steps.length, spentInEntryFrame steps i =
      gasLeft steps 0 - gasLeft steps (steps.length - 1) := by
    rw [sum_range_pred hlast]
    exact h.sum_spentInEntryFrame (by omega) h.returns
  have hopeners : ∑ c ∈ openers steps with depthAt steps c = depthAt steps 0, spent steps c =
      ∑ i ∈ Finset.range steps.length with depthAt steps i = depthAt steps 0,
        if Opens steps i then spent steps i else 0 := by
    rw [openers, Finset.filter_comm, ← Finset.sum_filter]
  rw [hopeners, eq_sub_iff_add_eq, ← Finset.sum_add_distrib, Finset.sum_filter]
  exact hall

/-! ## All frames -/

/-- Every frame is left at one step, and every step that leaves a frame leaves one. -/
theorem sum_leaves (f : Nat → ℤ) :
    ∑ e ∈ Finset.range steps.length with Leaves steps e, f e =
      ∑ c ∈ openers steps, f (exitOf steps c) := by
  refine Finset.sum_nbij' (entryOf steps) (exitOf steps) ?_ ?_ ?_ ?_ ?_
  · intro e he
    have hleaves := (Finset.mem_filter.mp he).2
    exact mem_openers.mpr (h.isExit_entryOf hleaves).opens
  · intro c hc
    have hexit := h.isExit_exitOf (mem_openers.mp hc)
    have hnext := hexit.next_lt
    exact Finset.mem_filter.mpr ⟨Finset.mem_range.mpr (by omega), h.leaves_of_isExit hexit⟩
  · intro e he
    have hleaves := (Finset.mem_filter.mp he).2
    exact (h.isExit_entryOf hleaves).exitOf_eq
  · intro c hc
    exact h.entryOf_eq (h.isExit_exitOf (mem_openers.mp hc))
  · intro e he
    have hleaves := (Finset.mem_filter.mp he).2
    rw [(h.isExit_entryOf hleaves).exitOf_eq]

/-- The cost of a single step is what the gas column loses there, except around frames. -/
theorem chargedCost_eq {i : Nat} (hi : i + 1 < steps.length) :
    (chargedCost steps i : ℤ) =
      spent steps i - (if Leaves steps i then spent steps i else 0) +
        if Opens steps i then
          gasLeft steps (i + 1) - gasLeft steps (exitOf steps i + 1) - spent steps i
        else 0 := by
  rcases stays_or_leaves_or_opens hi with hstays | hleaves | hopens
  · have hcost := h.chargedCost_of_stays hi hstays
    rw [if_neg (by unfold Leaves; omega), if_neg (by unfold Opens; omega), hcost]
    omega
  · have hcost := chargedCost_of_leaves hleaves
    rw [if_pos hleaves, if_neg fun hopens => hopens.not_leaves hleaves, hcost]
    omega
  · have hcost := h.chargedCost_of_opens hopens
    rw [if_neg hopens.not_leaves, if_pos hopens, hcost]
    omega

/-- All steps together are charged with all that is spent; the gas spent inside a frame counts once
more, and what opening the frame takes does not. -/
theorem sum_charged :
    ∑ i ∈ Finset.range steps.length, (chargedCost steps i : ℤ) =
      (gasLeft steps 0 - gasLeft steps (steps.length - 1)) +
        ∑ c ∈ openers steps,
          ((gasLeft steps (c + 1) - gasLeft steps (exitOf steps c)) - spent steps c) := by
  have hspent : ∑ i ∈ Finset.range (steps.length - 1), spent steps i =
      gasLeft steps 0 - gasLeft steps (steps.length - 1) :=
    Finset.sum_range_sub' (gasLeft steps) (steps.length - 1)
  have hleft : ∑ i ∈ Finset.range (steps.length - 1), (if Leaves steps i then spent steps i else 0) =
      ∑ c ∈ openers steps, spent steps (exitOf steps c) := by
    rw [← h.sum_leaves (spent steps), Finset.sum_filter]
    exact (sum_range_pred (if_neg not_leaves_last)).symm
  have hopened : ∑ i ∈ Finset.range (steps.length - 1), (if Opens steps i then
        gasLeft steps (i + 1) - gasLeft steps (exitOf steps i + 1) - spent steps i else 0) =
      ∑ c ∈ openers steps,
        (gasLeft steps (c + 1) - gasLeft steps (exitOf steps c + 1) - spent steps c) := by
    rw [openers, Finset.sum_filter]
    exact (sum_range_pred (if_neg not_opens_last)).symm
  have hall : ∑ i ∈ Finset.range (steps.length - 1), (chargedCost steps i : ℤ) =
      ∑ i ∈ Finset.range (steps.length - 1),
        (spent steps i - (if Leaves steps i then spent steps i else 0) +
          if Opens steps i then
            gasLeft steps (i + 1) - gasLeft steps (exitOf steps i + 1) - spent steps i
          else 0) := by
    refine Finset.sum_congr rfl ?_
    intro i hi
    have hi := Finset.mem_range.mp hi
    exact h.chargedCost_eq (by omega)
  rw [sum_range_pred chargedCost_last, hall, Finset.sum_add_distrib, Finset.sum_sub_distrib, hspent,
    hleft, hopened, sub_add_eq_add_sub, add_sub_assoc, ← Finset.sum_sub_distrib]
  congr 1
  refine Finset.sum_congr rfl ?_
  intro c _
  unfold spent
  omega

end Balanced

/-! ## Traces -/

namespace Tracer

variable {σ τ : Type}

/-- The levels and costs in a trace without filters are those of the columns. -/
theorem charges_of_annotateRaw {tracer : Tracer σ} {constants : Constants}
    {sinks : List (Sink τ × τ)} {entry : EntryPoint} {raw : RawTrace} {supply after : Supply σ}
    {trace : AnnotatedTrace}
    (h : (tracer.annotateRaw { constants, sinks } entry raw).run supply = (.ok trace, after)) :
    trace.steps.toList.map (fun a => (a.depthIndex, a.cost)) =
      (List.range raw.steps.length).map fun i =>
        (depthAt raw.steps i - depthAt raw.steps 0, chargedCost raw.steps i) := by
  obtain ⟨notes, hsteps, hlength, hnoted, -⟩ := noted_of_annotateRaw h
  rw [hsteps, map_relink (fun _ => by rfl)]
  refine List.ext_getElem ?_ ?_
  · rw [List.length_map, List.length_map, List.length_range, hlength]
  · intro k hk hk'
    rw [List.length_map] at hk
    have hnote := hnoted k _ (List.getElem?_eq_getElem hk)
    rw [List.getElem_map, List.getElem_map, List.getElem_range, hnote.depthIndex, hnote.cost,
      chargedCost]

/-- What all steps of a trace cost together. -/
theorem totalCost_of_charges {trace : AnnotatedTrace} {n : Nat} {level cost : Nat → Nat}
    (h : trace.steps.toList.map (fun a => (a.depthIndex, a.cost)) =
      (List.range n).map fun i => (level i, cost i)) :
    (trace.totalCost : ℤ) = ∑ i ∈ Finset.range n, (cost i : ℤ) := by
  have hcosts : trace.steps.toList.map (·.cost) = (List.range n).map cost := by
    have hsnd := congrArg (List.map Prod.snd) h
    rw [List.map_map, List.map_map] at hsnd
    exact hsnd
  have hsum : trace.totalCost = ∑ i ∈ Finset.range n, cost i := by
    unfold AnnotatedTrace.totalCost
    rw [← List.foldl_map (f := fun a : AnnotatedStep => a.cost) (g := fun n cost => n + cost),
      ← List.sum_eq_foldl, hcosts]
    rfl
  rw [hsum, Nat.cast_sum]

/-- What the steps of the entry frame cost together. -/
theorem entryCost_of_charges {trace : AnnotatedTrace} {n : Nat} {level cost : Nat → Nat}
    (h : trace.steps.toList.map (fun a => (a.depthIndex, a.cost)) =
      (List.range n).map fun i => (level i, cost i)) :
    ((((trace.steps.toList.filter (·.depthIndex = 0)).map (·.cost)).sum : Nat) : ℤ) =
      ∑ i ∈ Finset.range n with level i = 0, (cost i : ℤ) := by
  have hcosts : (trace.steps.toList.filter (·.depthIndex = 0)).map (·.cost) =
      ((List.range n).filter (fun i => level i = 0)).map cost := by
    have hfilter := congrArg (fun l => (l.filter (fun charge => charge.1 = 0)).map Prod.snd) h
    rw [List.filter_map, List.filter_map, List.map_map, List.map_map] at hfilter
    exact hfilter
  have hsum : ((trace.steps.toList.filter (·.depthIndex = 0)).map (·.cost)).sum =
      ∑ i ∈ Finset.range n with level i = 0, cost i := by
    rw [hcosts]
    rfl
  rw [hsum, Nat.cast_sum]

/-- The costs of a balanced trace without filters. The steps of the entry frame cost what the gas
column loses in all, less what it loses where they open frames. All steps together cost what the
column loses in all, and for each frame what it loses inside, up to the last step there, less what it
loses where the frame is opened. -/
theorem conserves_gas (tracer : Tracer σ) (constants : Constants) (sinks : List (Sink τ × τ))
    (entry : EntryPoint) (raw : RawTrace) (supply : Supply σ) (hbalanced : Balanced raw.steps) :
    (tracer.source.IsUnfailing → ∃ trace,
      (tracer.traceRaw { constants, sinks } entry raw supply).answer =
        handedOut tracer.config.concurrentSinks sinks trace) ∧
    ∀ trace, (tracer.traceRaw { constants, sinks } entry raw supply).answer = .ok trace →
      ((((trace.steps.toList.filter (·.depthIndex = 0)).map (·.cost)).sum : Nat) : ℤ) =
        (gasLeft raw.steps 0 - gasLeft raw.steps (raw.steps.length - 1)) -
          ∑ c ∈ openers raw.steps with depthAt raw.steps c = depthAt raw.steps 0,
            (gasLeft raw.steps c - gasLeft raw.steps (c + 1)) ∧
      (trace.totalCost : ℤ) =
        (gasLeft raw.steps 0 - gasLeft raw.steps (raw.steps.length - 1)) +
          ∑ c ∈ openers raw.steps,
            ((gasLeft raw.steps (c + 1) - gasLeft raw.steps (exitOf raw.steps c)) -
              (gasLeft raw.steps c - gasLeft raw.steps (c + 1))) ∧
      ∀ c ∈ openers raw.steps, IsExit raw.steps c (exitOf raw.steps c) := by
  refine ⟨?_, ?_⟩
  · intro hsource
    obtain ⟨trace, after, hrun⟩ := exists_annotateRaw hsource { constants, sinks } entry supply
      hbalanced.floor
    refine ⟨trace, ?_⟩
    rw [answer_traceRaw, hrun]
    rfl
  · intro trace h
    obtain ⟨after, hrun⟩ := annotateRaw_of_answer h
    have hcharges := charges_of_annotateRaw hrun
    refine ⟨?_, ?_, ?_⟩
    · have hentry : ∀ i ∈ Finset.range raw.steps.length,
          (depthAt raw.steps i - depthAt raw.steps 0 = 0 ↔
            depthAt raw.steps i = depthAt raw.steps 0) := by
        intro i hi
        have hfloor := hbalanced.floor i (Finset.mem_range.mp hi)
        omega
      rw [entryCost_of_charges hcharges, Finset.filter_congr hentry]
      exact hbalanced.sum_entryFrame
    · rw [totalCost_of_charges hcharges]
      exact hbalanced.sum_charged
    · intro c hc
      exact hbalanced.isExit_exitOf (mem_openers.mp hc)

/-- A call whose callee calls in turn, with gas spent at every level. -/
def nestedCalls : RawTrace where
  steps := [{ depth := 1, op := "PUSH1", gas := 100, gasCost := 0 },
    { depth := 1, op := "CALL", gas := 97, gasCost := 3 },
    { depth := 2, op := "CALL", gas := 60, gasCost := 37 },
    { depth := 3, op := "RETURN", gas := 40, gasCost := 20 },
    { depth := 2, op := "RETURN", gas := 30, gasCost := 10 },
    { depth := 1, op := "POP", gas := 20, gasCost := 10 },
    { depth := 1, op := "STOP", gas := 18, gasCost := 2 }]

theorem balanced_nestedCalls : Balanced nestedCalls.steps := by
  have hlevel : ∀ k < 6,
      depthAt nestedCalls.steps (k + 1) ≤ depthAt nestedCalls.steps k + 1 ∧
        depthAt nestedCalls.steps k ≤ depthAt nestedCalls.steps (k + 1) + 1 := by decide
  have hspends : ∀ k < 6, gasAt nestedCalls.steps (k + 1) ≤ gasAt nestedCalls.steps k := by decide
  have hpriced : ∀ k < 6, depthAt nestedCalls.steps k = depthAt nestedCalls.steps (k + 1) →
      gasCostAt nestedCalls.steps (k + 1) =
        (gasAt nestedCalls.steps k).toNat - (gasAt nestedCalls.steps (k + 1)).toNat := by decide
  exact {
    nonempty := by decide
    level := fun k hk => hlevel k (Nat.lt_of_succ_lt_succ hk)
    floor := by decide
    returns := by decide
    spends := fun k hk => hspends k (Nat.lt_of_succ_lt_succ hk)
    priced := fun k hk => hpriced k (Nat.lt_of_succ_lt_succ hk) }

theorem conserves_gas_nestedCalls :
    Balanced nestedCalls.steps ∧
      ∃ trace, (bare.traceRaw ({} : Options Unit) { address := .zero } nestedCalls
          { state := () }).answer = .ok trace ∧
        ((trace.steps.toList.filter (·.depthIndex = 0)).map (·.cost)).sum = 45 ∧
        trace.totalCost = 55 := by
  have hconserves := conserves_gas bare Table.empty ([] : List (Sink Unit × Unit))
    { address := .zero } nestedCalls { state := () } balanced_nestedCalls
  obtain ⟨hdelivers, hsums⟩ := hconserves
  obtain ⟨trace, hanswer⟩ := hdelivers isUnfailing_bare
  rw [handedOut_nil] at hanswer
  obtain ⟨hentry, htotal, -⟩ := hsums trace hanswer
  have hentryGas : (gasLeft nestedCalls.steps 0 -
        gasLeft nestedCalls.steps (nestedCalls.steps.length - 1)) -
      ∑ c ∈ openers nestedCalls.steps with
          depthAt nestedCalls.steps c = depthAt nestedCalls.steps 0,
        (gasLeft nestedCalls.steps c - gasLeft nestedCalls.steps (c + 1)) = 45 := by decide
  have htotalGas : (gasLeft nestedCalls.steps 0 -
        gasLeft nestedCalls.steps (nestedCalls.steps.length - 1)) +
      ∑ c ∈ openers nestedCalls.steps,
        ((gasLeft nestedCalls.steps (c + 1) -
            gasLeft nestedCalls.steps (exitOf nestedCalls.steps c)) -
          (gasLeft nestedCalls.steps c - gasLeft nestedCalls.steps (c + 1))) = 55 := by decide
  rw [hentryGas] at hentry
  rw [htotalGas] at htotal
  exact ⟨balanced_nestedCalls, trace, hanswer, by omega, by omega⟩

end Tracer

end TraceGloss
