import TraceGloss.Proofs.Tracer.Columns

/-
  Frames that nest.
  A trace is `Nested` if its depth changes by one level at a time, and ends where it started without
  going below. Then every step that opens a frame has an exit, the last step inside that frame
  (`Nested.isExit_exitOf`), every step that leaves a frame is the exit of the step that opened it
  (`Nested.isExit_entryOf`), and of no other step (`Nested.entryOf_eq`).
-/
namespace TraceGloss

/-- Step `c` opens a frame. -/
def Opens (steps : List Step) (c : Nat) : Prop := depthAt steps c < depthAt steps (c + 1)

/-- Step `e` leaves a frame. -/
def Leaves (steps : List Step) (e : Nat) : Prop :=
  e + 1 < steps.length ∧ depthAt steps (e + 1) < depthAt steps e

instance (steps : List Step) : DecidablePred (Opens steps) := fun c => by
  unfold Opens
  infer_instance

instance (steps : List Step) : DecidablePred (Leaves steps) := fun e => by
  unfold Leaves
  infer_instance

/-- Step `e` is the last one inside the frame that step `c` opens. -/
structure IsExit (steps : List Step) (c e : Nat) : Prop where
  opens : Opens steps c
  behind : c < e
  next_lt : e + 1 < steps.length
  leaves : depthAt steps (e + 1) < depthAt steps (c + 1)
  stays : ∀ j, c < j → j < e → depthAt steps (c + 1) ≤ depthAt steps (j + 1)

/-- The exit of the frame that step `c` opens, if it is left. -/
def exitOf (steps : List Step) (c : Nat) : Nat :=
  (exitBefore? steps (steps.length - 1) c).getD 0

/-- The step that opened the frame in which step `e` is executed, if there is one. -/
def entryOf (steps : List Step) (e : Nat) : Nat :=
  (openerBefore? steps e (depthAt steps e)).getD 0

section Columns

variable (steps : List Step)

theorem exitBefore?_eq_some_iff (m i j : Nat) :
    exitBefore? steps m i = some j ↔
      i < j ∧ j < m ∧ depthAt steps (j + 1) < depthAt steps (i + 1) ∧
        ∀ k, i < k → k < j → depthAt steps (i + 1) ≤ depthAt steps (k + 1) := by
  unfold exitBefore?
  rw [List.find?_range_eq_some, List.mem_range, decide_eq_true_eq]
  simp only [Bool.not_eq_true', decide_eq_false_iff_not, not_and, Nat.not_lt]
  constructor
  · rintro ⟨⟨hij, hleft⟩, hj, hfirst⟩
    exact ⟨hij, hj, hleft, fun k hik hkj => hfirst k hkj hik⟩
  · rintro ⟨hij, hj, hleft, hfirst⟩
    exact ⟨⟨hij, hleft⟩, hj, fun k hkj hik => hfirst k hik hkj⟩

variable {steps}

theorem depthAt_of_length_le {i : Nat} (h : steps.length ≤ i) : depthAt steps i = 0 := by
  unfold depthAt
  rw [List.getElem?_eq_none h]
  rfl

theorem Opens.next_lt {c : Nat} (h : Opens steps c) : c + 1 < steps.length := by
  apply Nat.lt_of_not_le
  intro hle
  have hnone := depthAt_of_length_le hle
  unfold Opens at h
  omega

theorem Opens.not_leaves {c : Nat} (h : Opens steps c) : ¬ Leaves steps c := by
  unfold Opens at h
  unfold Leaves
  omega

theorem not_opens_last : ¬ Opens steps (steps.length - 1) := by
  intro h
  have hnext := h.next_lt
  omega

theorem not_leaves_last : ¬ Leaves steps (steps.length - 1) := by
  unfold Leaves
  omega

theorem IsExit.exitBefore?_eq {c e : Nat} (h : IsExit steps c e) :
    exitBefore? steps (steps.length - 1) c = some e := by
  have hnext := h.next_lt
  exact (exitBefore?_eq_some_iff steps _ c e).mpr ⟨h.behind, by omega, h.leaves, h.stays⟩

theorem IsExit.exitOf_eq {c e : Nat} (h : IsExit steps c e) : exitOf steps c = e := by
  rw [exitOf, h.exitBefore?_eq, Option.getD_some]

/-- Between a step that opens a frame and its exit the frame is not left. -/
theorem IsExit.inside {c e i : Nat} (h : IsExit steps c e) (hci : c < i) (hie : i ≤ e) :
    depthAt steps (c + 1) ≤ depthAt steps i := by
  by_cases hfirst : i = c + 1
  · exact Nat.le_of_eq (congrArg (depthAt steps) hfirst.symm)
  · have hstays := h.stays (i - 1) (by omega) (by omega)
    rwa [Nat.sub_add_cancel (by omega)] at hstays

end Columns

/-- A trace of properly nested frames. -/
structure Nested (steps : List Step) : Prop where
  nonempty : steps ≠ []
  level : ∀ k, k + 1 < steps.length →
    depthAt steps (k + 1) ≤ depthAt steps k + 1 ∧ depthAt steps k ≤ depthAt steps (k + 1) + 1
  floor : ∀ k, k < steps.length → depthAt steps 0 ≤ depthAt steps k
  returns : depthAt steps (steps.length - 1) = depthAt steps 0

namespace Nested

variable {steps : List Step} (h : Nested steps)
include h

theorem depthAt_next_of_opens {c : Nat} (hc : Opens steps c) :
    depthAt steps (c + 1) = depthAt steps c + 1 := by
  have hlevel := h.level c hc.next_lt
  unfold Opens at hc
  omega

/-- The step behind the exit of a frame is as deep as the step that opened the frame. -/
theorem depthAt_exit {c e : Nat} (he : IsExit steps c e) :
    depthAt steps e = depthAt steps (c + 1) ∧ depthAt steps (e + 1) = depthAt steps c := by
  have hopens := h.depthAt_next_of_opens he.opens
  have hinside := he.inside he.behind (Nat.le_refl e)
  have hlevel := h.level e he.next_lt
  have hleaves := he.leaves
  omega

theorem isExit_exitOf {c : Nat} (hc : Opens steps c) : IsExit steps c (exitOf steps c) := by
  have hnext := hc.next_lt
  cases hexit : exitBefore? steps (steps.length - 1) c with
  | some e =>
    obtain ⟨hbehind, he, hleaves, hstays⟩ := (exitBefore?_eq_some_iff steps _ c e).mp hexit
    rw [exitOf, hexit, Option.getD_some]
    exact ⟨hc, hbehind, by omega, hleaves, hstays⟩
  | none =>
    -- The trace ends outside of the frame, so it cannot stay inside.
    have hstays := (exitBefore?_eq_none_iff steps _ c).mp hexit (steps.length - 2)
    have hlength : steps.length - 2 + 1 = steps.length - 1 := by omega
    have hfloor := h.floor c (by omega)
    have hreturns := h.returns
    rw [hlength] at hstays
    unfold Opens at hc
    by_cases hlast : c + 1 = steps.length - 1
    · rw [hlast] at hc
      omega
    · have := hstays (by omega) (by omega)
      omega

theorem isExit_entryOf {e : Nat} (he : Leaves steps e) : IsExit steps (entryOf steps e) e := by
  obtain ⟨hnext, hleaves⟩ := he
  have hfloor := h.floor (e + 1) hnext
  have hlevel := (h.level e hnext).2
  cases hentry : openerBefore? steps e (depthAt steps e) with
  | some c =>
    obtain ⟨hbehind, hopens, hbetween⟩ := (openerBefore?_eq_some_iff steps _ _ c).mp hentry
    have hup := (h.level c (by omega)).1
    have hfirst : depthAt steps e ≤ depthAt steps (c + 1) := by
      by_cases hc : c + 1 = e
      · exact Nat.le_of_eq (congrArg (depthAt steps) hc.symm)
      · exact hbetween (c + 1) (by omega) (by omega)
    rw [entryOf, hentry, Option.getD_some]
    refine ⟨?_, hbehind, hnext, by omega, ?_⟩
    · unfold Opens
      omega
    · intro j hcj hje
      by_cases hj : j + 1 = e
      · rw [hj]
        omega
      · have := hbetween (j + 1) (by omega) (by omega)
        omega
  | none =>
    have hlow := (openerBefore?_eq_none_iff steps _ _).mp hentry 0
    by_cases hzero : e = 0
    · rw [hzero] at hleaves hfloor
      omega
    · have := hlow (by omega)
      omega

theorem leaves_of_isExit {c e : Nat} (he : IsExit steps c e) : Leaves steps e := by
  have hdepth := h.depthAt_exit he
  have hleaves := he.leaves
  exact ⟨he.next_lt, by omega⟩

/-- A step is the exit of one frame only. -/
theorem entryOf_eq {c e : Nat} (he : IsExit steps c e) : entryOf steps e = c := by
  have hopens := he.opens
  obtain ⟨hdepth, -⟩ := h.depthAt_exit he
  have hopener : openerBefore? steps e (depthAt steps e) = some c := by
    rw [openerBefore?_eq_some_iff, hdepth]
    exact ⟨he.behind, hopens, fun j hcj hje => he.inside hcj (Nat.le_of_lt hje)⟩
  rw [entryOf, hopener, Option.getD_some]

end Nested

end TraceGloss
