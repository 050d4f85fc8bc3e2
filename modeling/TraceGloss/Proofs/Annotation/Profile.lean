import Mathlib.Data.List.Induction
import TraceGloss.Annotation.Profile
import TraceGloss.Proofs.Table.Entries

/-
  Gas profiles regroup steps.
  A step counts in the entry of its own mnemonic and in no other (`get?_record`), so an entry holds
  the number and the cost of the steps with its mnemonic (`get?_ofSteps`). Each step adds one to the
  number of steps and its cost to all gas (`steps_record`, `total_record`). The ranking has every
  entry once (`mem_ranked_iff`, `nodup_ranked`) and in strict order (`pairwise_ranked`). Taken
  together, a profile is a regrouping of its steps that loses nothing and does not depend on their
  order (`ofSteps_regroups`).
-/
namespace TraceGloss

namespace OpGas

/-- The gas of two lots of steps. -/
instance : Add OpGas := ⟨fun a b => ⟨a.count + b.count, a.total + b.total⟩⟩

theorem zero_add (g : OpGas) : ⟨0, 0⟩ + g = g := by
  show OpGas.mk (0 + g.count) (0 + g.total) = g
  rw [Nat.zero_add, Nat.zero_add]

/-- The number and the cost of steps, if there are any. -/
def ofSteps? (steps : List AnnotatedStep) : Option OpGas :=
  if steps = [] then none else some ⟨steps.length, (steps.map (·.cost)).sum⟩

theorem ofSteps?_append (xs ys : List AnnotatedStep) :
    ofSteps? (xs ++ ys) = Option.merge (· + ·) (ofSteps? xs) (ofSteps? ys) := by
  cases xs with
  | nil =>
    show ofSteps? ys = Option.merge _ none (ofSteps? ys)
    cases ofSteps? ys <;> rfl
  | cons x xs =>
    cases ys with
    | nil =>
      rw [List.append_nil]
      rfl
    | cons y ys =>
      have hsome : (x :: xs) ++ (y :: ys) ≠ [] := nofun
      rw [ofSteps?, if_neg hsome, List.length_append, List.map_append, List.sum_append]
      rfl

theorem ofSteps?_perm {xs ys : List AnnotatedStep} (h : xs.Perm ys) : ofSteps? xs = ofSteps? ys := by
  have hnil : xs = [] ↔ ys = [] := by
    rw [← List.length_eq_zero_iff, h.length_eq, List.length_eq_zero_iff]
  simp only [ofSteps?, hnil, h.length_eq, (h.map _).sum_nat]

end OpGas

namespace GasProfile

/-- The steps with a mnemonic. -/
def stepsOf (op : String) (steps : List AnnotatedStep) : List AnnotatedStep :=
  steps.filter (·.step.op = op)

theorem stepsOf_eq_nil_iff {op : String} {steps : List AnnotatedStep} :
    stepsOf op steps = [] ↔ op ∉ steps.map (·.step.op) := by
  simp [stepsOf, List.filter_eq_nil_iff]

/-! ## One step -/

theorem get?_record (p : GasProfile) (s : AnnotatedStep) (op : String) :
    (p.record s).get? op =
      if op = s.step.op then some ((p.get? op).getD ⟨0, 0⟩ + ⟨1, s.cost⟩) else p.get? op := by
  rw [get?, record, Table.get?_insert]
  split
  · rename_i hop
    rw [hop]
    rfl
  · rfl

theorem steps_eq_sum (p : GasProfile) : p.steps = (p.byOp.values.map (·.count)).sum := by
  rw [steps, List.sum_eq_foldl_nat, List.foldl_map]

theorem total_eq_sum (p : GasProfile) : p.total = (p.byOp.values.map (·.total)).sum := by
  rw [total, List.sum_eq_foldl_nat, List.foldl_map]

/-- What adds up over lots of steps grows by the share of the step. -/
theorem sum_record (p : GasProfile) (s : AnnotatedStep) {f : OpGas → Nat} (hzero : f ⟨0, 0⟩ = 0)
    (hadd : ∀ a b, f (a + b) = f a + f b) :
    ((p.record s).byOp.values.map f).sum = (p.byOp.values.map f).sum + f ⟨1, s.cost⟩ := by
  have hsum := Table.sum_values_insert f p.byOp s.step.op
    ((p.byOp.get? s.step.op).getD ⟨0, 0⟩ + ⟨1, s.cost⟩)
  have hbefore : ((p.byOp.get? s.step.op).map f).getD 0 =
      f ((p.byOp.get? s.step.op).getD ⟨0, 0⟩) := by
    cases p.byOp.get? s.step.op with
    | none => exact hzero.symm
    | some before => rfl
  have hrecord : (p.record s).byOp =
      p.byOp.insert s.step.op ((p.byOp.get? s.step.op).getD ⟨0, 0⟩ + ⟨1, s.cost⟩) := rfl
  rw [hadd, hbefore] at hsum
  rw [hrecord]
  omega

theorem steps_record (p : GasProfile) (s : AnnotatedStep) : (p.record s).steps = p.steps + 1 := by
  rw [steps_eq_sum, steps_eq_sum]
  exact sum_record p s rfl fun _ _ => rfl

theorem total_record (p : GasProfile) (s : AnnotatedStep) :
    (p.record s).total = p.total + s.cost := by
  rw [total_eq_sum, total_eq_sum]
  exact sum_record p s rfl fun _ _ => rfl

/-! ## All steps -/

theorem ofSteps_concat (steps : List AnnotatedStep) (s : AnnotatedStep) :
    ofSteps (steps ++ [s]) = (ofSteps steps).record s := by
  rw [ofSteps, List.foldl_concat, ofSteps]

theorem steps_ofSteps (steps : List AnnotatedStep) : (ofSteps steps).steps = steps.length := by
  induction steps using List.reverseRecOn with
  | nil => rfl
  | append_singleton steps s ih => rw [ofSteps_concat, steps_record, ih, List.length_append]; rfl

theorem total_ofSteps (steps : List AnnotatedStep) :
    (ofSteps steps).total = (steps.map (·.cost)).sum := by
  induction steps using List.reverseRecOn with
  | nil => rfl
  | append_singleton steps s ih =>
    rw [ofSteps_concat, total_record, ih, List.map_append, List.sum_append, List.map_singleton,
      List.sum_singleton]

/-- An entry is the gas of the steps with its mnemonic. -/
theorem get?_ofSteps (steps : List AnnotatedStep) (op : String) :
    (ofSteps steps).get? op = OpGas.ofSteps? (stepsOf op steps) := by
  induction steps using List.reverseRecOn with
  | nil => rfl
  | append_singleton steps s ih =>
    have hsplit : stepsOf op (steps ++ [s]) = stepsOf op steps ++ stepsOf op [s] :=
      List.filter_append ..
    rw [ofSteps_concat, get?_record, ih, hsplit, OpGas.ofSteps?_append]
    by_cases hop : op = s.step.op
    · have hown : stepsOf op [s] = [s] := List.filter_eq_self.mpr (by simp [hop])
      have hone : OpGas.ofSteps? [s] = some ⟨1, s.cost⟩ := by simp [OpGas.ofSteps?]
      rw [if_pos hop, hown, hone]
      cases OpGas.ofSteps? (stepsOf op steps) with
      | none => exact congrArg some (OpGas.zero_add _)
      | some before => rfl
    · have hnone : stepsOf op [s] = [] := List.filter_eq_nil_iff.mpr (by simp [Ne.symm hop])
      rw [if_neg hop, hnone]
      cases OpGas.ofSteps? (stepsOf op steps) <;> rfl

theorem isSome_get?_ofSteps (steps : List AnnotatedStep) (op : String) :
    ((ofSteps steps).get? op).isSome ↔ op ∈ steps.map (·.step.op) := by
  rw [get?_ofSteps, OpGas.ofSteps?, ← not_iff_not, ← stepsOf_eq_nil_iff]
  split <;> simp_all

/-- The order of the steps does not matter. -/
theorem ofSteps_perm {xs ys : List AnnotatedStep} (h : xs.Perm ys) : ofSteps xs = ofSteps ys := by
  have hbyOp : (ofSteps xs).byOp = (ofSteps ys).byOp := by
    refine Table.ext_get? fun op => ?_
    show (ofSteps xs).get? op = (ofSteps ys).get? op
    rw [get?_ofSteps, get?_ofSteps]
    exact OpGas.ofSteps?_perm (h.filter _)
  exact congrArg mk hbyOp

/-- Steps behind others add to their entries. -/
theorem get?_ofSteps_append (xs ys : List AnnotatedStep) (op : String) :
    (ofSteps (xs ++ ys)).get? op =
      Option.merge (· + ·) ((ofSteps xs).get? op) ((ofSteps ys).get? op) := by
  rw [get?_ofSteps, get?_ofSteps, get?_ofSteps, ← OpGas.ofSteps?_append]
  exact congrArg OpGas.ofSteps? (List.filter_append ..)

/-! ## The ranking -/

/-- Whether an entry has a rank above another: more gas, or as much and a smaller mnemonic. -/
def Outranks (a b : String × OpGas) : Prop :=
  b.2.total < a.2.total ∨ a.2.total = b.2.total ∧ a.1 < b.1

theorem ranksBefore_iff {a b : String × OpGas} :
    ranksBefore a b = true ↔ b.2.total < a.2.total ∨ a.2.total = b.2.total ∧ a.1 ≤ b.1 := by
  simp [ranksBefore]

theorem ranksBefore_trans (a b c : String × OpGas) (hab : ranksBefore a b = true)
    (hbc : ranksBefore b c = true) : ranksBefore a c = true := by
  rw [ranksBefore_iff] at *
  rcases hab with hab | ⟨hab, hname⟩ <;> rcases hbc with hbc | ⟨hbc, hname'⟩
  · exact .inl (by omega)
  · exact .inl (by omega)
  · exact .inl (by omega)
  · exact .inr ⟨hab.trans hbc, String.le_trans hname hname'⟩

theorem ranksBefore_total (a b : String × OpGas) : (ranksBefore a b || ranksBefore b a) = true := by
  rw [Bool.or_eq_true, ranksBefore_iff, ranksBefore_iff]
  rcases Nat.lt_trichotomy a.2.total b.2.total with h | h | h
  · exact .inr (.inl h)
  · rcases String.le_total a.1 b.1 with hname | hname
    · exact .inl (.inr ⟨h, hname⟩)
    · exact .inr (.inr ⟨h.symm, hname⟩)
  · exact .inl (.inl h)

theorem mem_ranked_iff (p : GasProfile) (e : String × OpGas) :
    e ∈ p.ranked ↔ p.get? e.1 = some e.2 := by
  rw [ranked, List.mem_mergeSort]
  exact p.byOp.mem_entries_iff e.1 e.2

theorem nodup_ranked (p : GasProfile) : (p.ranked.map (·.1)).Nodup :=
  ((List.mergeSort_perm p.byOp.entries ranksBefore).map _).nodup_iff.mpr p.byOp.nodup_keys

/-- Entries of different mnemonics never share a rank. -/
theorem pairwise_ranked (p : GasProfile) : p.ranked.Pairwise Outranks := by
  have hsorted : p.ranked.Pairwise fun a b => ranksBefore a b = true :=
    List.pairwise_mergeSort ranksBefore_trans ranksBefore_total _
  have hdistinct : p.ranked.Pairwise fun a b => a.1 ≠ b.1 := List.pairwise_map.mp p.nodup_ranked
  refine hsorted.imp₂ ?_ hdistinct
  intro a b hab hne
  refine (ranksBefore_iff.mp hab).imp_right fun ⟨htotal, hle⟩ => ⟨htotal, ?_⟩
  exact String.not_le.mp fun hge => hne (String.le_antisymm hle hge)

/-- A profile regroups its steps. An entry holds the number and the summed cost of the steps with its
mnemonic, and there is one for each mnemonic that occurs; all entries together hold every step and all
cost. Steps in another order have the same profile, and the entries of two lots of steps add up. The
ranking lists each mnemonic that occurs once, with its entry, by cost downwards and then by mnemonic. -/
theorem ofSteps_regroups :
    (∀ steps : List AnnotatedStep,
      (∀ op, (ofSteps steps).get? op =
        if op ∈ steps.map (·.step.op) then
          some ⟨(stepsOf op steps).length, ((stepsOf op steps).map (·.cost)).sum⟩
        else none) ∧
      (ofSteps steps).total = (steps.map (·.cost)).sum ∧
      (ofSteps steps).steps = steps.length ∧
      (∀ op, ((ofSteps steps).ranked.map (·.1)).count op =
        if op ∈ steps.map (·.step.op) then 1 else 0) ∧
      (∀ e ∈ (ofSteps steps).ranked, (ofSteps steps).get? e.1 = some e.2) ∧
      (ofSteps steps).ranked.Pairwise Outranks) ∧
    (∀ xs ys : List AnnotatedStep, xs.Perm ys → ofSteps xs = ofSteps ys) ∧
    ∀ (xs ys : List AnnotatedStep) (op : String), (ofSteps (xs ++ ys)).get? op =
      Option.merge (· + ·) ((ofSteps xs).get? op) ((ofSteps ys).get? op) := by
  refine ⟨fun steps => ⟨fun op => ?_, total_ofSteps steps, steps_ofSteps steps, fun op => ?_,
    fun e he => (mem_ranked_iff _ e).mp he, pairwise_ranked _⟩, fun xs ys => ofSteps_perm,
    get?_ofSteps_append⟩
  · rw [get?_ofSteps, OpGas.ofSteps?]
    simp only [stepsOf_eq_nil_iff, ite_not]
  · have hmem : op ∈ (ofSteps steps).ranked.map (·.1) ↔ op ∈ steps.map (·.step.op) := by
      rw [← isSome_get?_ofSteps, Option.isSome_iff_exists, List.mem_map]
      constructor
      · rintro ⟨e, he, rfl⟩
        exact ⟨e.2, (mem_ranked_iff _ e).mp he⟩
      · rintro ⟨g, hg⟩
        exact ⟨(op, g), (mem_ranked_iff _ (op, g)).mpr hg, rfl⟩
    rw [(nodup_ranked _).count]
    simp only [hmem]

/-- Two steps with one mnemonic around one of another that costs as much as both. -/
theorem ofSteps_regroups_tied :
    let push (cost : Nat) : AnnotatedStep := { step := { op := "PUSH1" }, cost }
    let load : AnnotatedStep := { step := { op := "MLOAD" }, cost := 6 }
    [push 2, load, push 4].Perm [load, push 4, push 2] ∧
      ofSteps [push 2, load, push 4] = ofSteps [load, push 4, push 2] ∧
      (ofSteps [push 2, load, push 4]).ranked = [("MLOAD", ⟨1, 6⟩), ("PUSH1", ⟨2, 6⟩)] ∧
      (ofSteps [push 2, load, push 4]).get? "PUSH1" = some ⟨2, 6⟩ := by
  intro push load
  have hperm : [push 2, load, push 4].Perm [load, push 4, push 2] := by decide
  have hentries : (ofSteps [push 2, load, push 4]).byOp.entries =
      [("MLOAD", ⟨1, 6⟩), ("PUSH1", ⟨2, 6⟩)] := by decide +kernel
  have hranked : (ofSteps [push 2, load, push 4]).ranked =
      [("MLOAD", ⟨1, 6⟩), ("PUSH1", ⟨2, 6⟩)] := by
    rw [ranked, hentries]
    exact List.mergeSort_of_pairwise (by decide +kernel)
  obtain ⟨hregroups, hsame, -⟩ := ofSteps_regroups
  obtain ⟨-, -, -, -, hlisted, -⟩ := hregroups [push 2, load, push 4]
  have hlast : ("PUSH1", ⟨2, 6⟩) ∈ (ofSteps [push 2, load, push 4]).ranked := by
    rw [hranked]
    exact List.mem_of_mem_getLast? rfl
  exact ⟨hperm, hsame _ _ hperm, hranked, hlisted _ hlast⟩

end GasProfile

end TraceGloss
