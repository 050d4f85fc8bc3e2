import Mathlib.Data.Set.Card
import TraceGloss.Proofs.Provenance.History

/-
  What a revision stands for.
  A provenance that grew from constants and registrations is `Counted`: the words it stores are those
  with a producer, no record of a word has the word among its inputs, and the revision is the number
  of stored words. One more record keeps that if it does not explain its word by itself
  (`counted_insert`), and a history has no other records (`forall_mem_snapshotEntries`), so every
  snapshot is counted (`counted_snapshot`). Later snapshots only append records
  (`records_snapshot_of_le`). Taken together, the revision tells the producers of a history apart
  (`revision_identifies_producers`).
-/
namespace TraceGloss.Provenance

/-- What every provenance of a history is like. -/
structure Counted (p : Provenance) : Prop where
  inhabits : p.Inhabits
  notMem_inputs : ∀ w, ∀ r ∈ p.records w, w ∉ r.inputs
  revision_eq : p.revision = p.size

/-! ## One record -/

/-- A word that is new takes one more place. -/
theorem size_insert (p : Provenance) (w : Word) (production : Production) :
    (p.insert w production).size = if p.productions.contains w then p.size else p.size + 1 := by
  show (p.productions.alter w _).size = _
  split
  · rename_i h
    have hmem : w ∈ p.productions := h
    exact Std.HashMap.size_alter_eq_self_of_mem hmem (by cases p.productions[w]? <;> rfl)
  · rename_i h
    have hnew : w ∉ p.productions := h
    exact Std.HashMap.size_alter_eq_add_one hnew (by cases p.productions[w]? <;> rfl)

theorem counted_empty : empty.Counted := by
  refine ⟨inhabits_empty, ?_, rfl⟩
  intro w r hr
  rw [records_empty] at hr
  cases hr

/-- The revision moves with the size. -/
theorem counted_insert {p : Provenance} (hp : p.Counted) {w : Word} {production : Production}
    (h : w ∉ production.inputs) : (p.insert w production).Counted := by
  refine ⟨inhabits_insert hp.inhabits w production, ?_, ?_⟩
  · intro v r hr
    rw [records_insert] at hr
    split at hr
    · rename_i hv
      rcases List.mem_append.mp hr with hr | hr
      · exact hp.notMem_inputs v r hr
      · rw [List.mem_singleton.mp hr, hv]
        exact h
    · exact hp.notMem_inputs v r hr
  · rw [size_insert, ← hp.revision_eq]
    rfl

/-! ## A history -/

theorem counted_log {p : Provenance} (hp : p.Counted) {entries : List (Word × Production)}
    (h : ∀ e ∈ entries, e.1 ∉ e.2.inputs) : (p.log entries).Counted := by
  induction entries generalizing p with
  | nil => exact hp
  | cons e entries ih =>
    obtain ⟨hfirst, hrest⟩ := List.forall_mem_cons.mp h
    exact ih (counted_insert hp hfirst) hrest

/-- The entries of the constants and the first registrations of a history. -/
def snapshotEntries (constants : List (String × Word)) (history : List Registration) (n : Nat) :
    List (Word × Production) :=
  constantEntries constants ++ (history.take n).flatMap entriesOf

/-- Constants have no inputs, and an output among the inputs has no entry. -/
theorem forall_mem_snapshotEntries (constants : List (String × Word)) (history : List Registration)
    (n : Nat) : ∀ e ∈ snapshotEntries constants history n, e.1 ∉ e.2.inputs := by
  intro e he
  rcases List.mem_append.mp he with he | he
  · obtain ⟨c, -, rfl⟩ := List.mem_map.mp he
    exact List.not_mem_nil
  · obtain ⟨r, -, he⟩ := List.mem_flatMap.mp he
    obtain ⟨w, hw, rfl⟩ := List.mem_map.mp he
    exact of_decide_eq_true (List.mem_filter.mp hw).2

variable (constants : List (String × Word)) (history : List Registration)

theorem counted_snapshot (n : Nat) : (snapshot constants history n).Counted := by
  rw [snapshot_eq]
  exact counted_log counted_empty (forall_mem_snapshotEntries constants history n)

/-- Records are appended, and none is replaced or removed. -/
theorem records_snapshot_of_le {m n : Nat} (h : m ≤ n) (w : Word) :
    (snapshot constants history m).records w <+: (snapshot constants history n).records w := by
  obtain ⟨entries, heq⟩ := snapshot_eq_log_of_le constants history h
  rw [heq, records_log]
  exact List.prefix_append _ _

theorem producer?_eq_of_prefix {p q : Provenance} {w : Word} (h : p.records w <+: q.records w)
    {r : Production} (hr : p.producer? w = some r) : q.producer? w = some r := by
  obtain ⟨later, hlater⟩ := h
  obtain ⟨rest, hrest⟩ := List.head?_eq_some_iff.mp hr
  rw [producer?, ← hlater, hrest]
  rfl

/-! ## Counting producers -/

theorem Counted.contains_iff {p : Provenance} (hp : p.Counted) (w : Word) :
    p.productions.contains w = true ↔ p.records w ≠ [] := by
  rw [hp.inhabits w, producer?, Option.isSome_iff_ne_none]
  exact not_congr List.head?_eq_none_iff

/-- The size is the number of words that have a producer. -/
theorem Counted.size_eq_ncard {p : Provenance} (hp : p.Counted) :
    p.size = {w | (p.producer? w).isSome}.ncard := by
  have hset : {w | (p.producer? w).isSome} = (p.productions.keys.toFinset : Set Word) := by
    ext w
    rw [List.coe_toFinset, Set.mem_ofPred_eq, Set.mem_ofPred_eq, Std.HashMap.mem_keys,
      ← Std.HashMap.contains_iff_mem, hp.inhabits w]
  rw [hset, Set.ncard_coe_finset, List.toFinset_card_of_nodup Std.HashMap.nodup_keys,
    Std.HashMap.length_keys]
  rfl

/-- The revision identifies the producers. In every snapshot of a history each stored word has a
record, none of its records has the word among its inputs, and the revision is the number of stored
words, which are those with a producer. A later snapshot keeps the first record of a word. So two
snapshots have one revision if and only if every word has the same producer in both. -/
theorem revision_identifies_producers :
    (∀ n w, (snapshot constants history n).productions.contains w = true ↔
      (snapshot constants history n).records w ≠ []) ∧
    (∀ n w, ∀ r ∈ (snapshot constants history n).records w, w ∉ r.inputs) ∧
    (∀ m n w r, m ≤ n → (snapshot constants history m).producer? w = some r →
      (snapshot constants history n).producer? w = some r) ∧
    (∀ n, (snapshot constants history n).revision = (snapshot constants history n).size ∧
      (snapshot constants history n).size =
        {w | ((snapshot constants history n).producer? w).isSome}.ncard) ∧
    ∀ m n, (snapshot constants history m).revision = (snapshot constants history n).revision ↔
      ∀ w, (snapshot constants history m).producer? w =
        (snapshot constants history n).producer? w := by
  have hcounted := counted_snapshot constants history
  refine ⟨fun n w => (hcounted n).contains_iff w, fun n => (hcounted n).notMem_inputs, ?_,
    fun n => ⟨(hcounted n).revision_eq, (hcounted n).size_eq_ncard⟩, fun m n => ⟨?_, ?_⟩⟩
  · intro m n w r h hr
    exact producer?_eq_of_prefix (records_snapshot_of_le constants history h w) hr
  · exact producer?_snapshot constants history
  · intro h
    rw [(hcounted m).revision_eq, (hcounted n).revision_eq, (hcounted m).size_eq_ncard,
      (hcounted n).size_eq_ncard]
    simp only [h]

/-- A history in which a word is pushed twice and then is an output and an input of one instruction. -/
def pushedAgain : List Registration :=
  [⟨[.ofUInt64 5, .ofUInt64 5], .pushed (.push 1), []⟩,
    ⟨[.ofUInt64 9, .ofUInt64 5], .computed .add, [.ofUInt64 5, .zero]⟩]

/-- Of the addition one output gains its first record and the other, an input, none. -/
theorem revision_identifies_producers_pushedAgain :
    let sum : Production := ⟨.computed .add, [.ofUInt64 5, .zero]⟩
    let literal : Production := ⟨.pushed (.push 1), []⟩
    (sum ∈ (snapshot [] pushedAgain 2).records (.ofUInt64 9) ∧ Word.ofUInt64 9 ∉ sum.inputs) ∧
      ((snapshot [] pushedAgain 1).producer? (.ofUInt64 5) = some literal ∧
        (snapshot [] pushedAgain 2).producer? (.ofUInt64 5) = some literal) ∧
      (snapshot [] pushedAgain 1).revision ≠ (snapshot [] pushedAgain 2).revision := by
  intro sum literal
  have hrecords (n : Nat) (w : Word) : (snapshot [] pushedAgain n).records w =
      (((pushedAgain.take n).flatMap entriesOf).filter (·.1 = w)).map (·.2) := by
    rw [snapshot_eq, records_log, records_empty]
    rfl
  obtain ⟨-, happart, hkept, -, hrevision⟩ := revision_identifies_producers [] pushedAgain
  have hsum : sum ∈ (snapshot [] pushedAgain 2).records (.ofUInt64 9) := by
    rw [hrecords]
    decide
  have hliteral : (snapshot [] pushedAgain 1).producer? (.ofUInt64 5) = some literal := by
    rw [producer?, hrecords]
    decide
  refine ⟨⟨hsum, happart 2 _ sum hsum⟩,
    ⟨hliteral, hkept 1 2 _ literal (by decide) hliteral⟩, fun heq => ?_⟩
  have hsame := (hrevision 1 2).mp heq (.ofUInt64 9)
  rw [producer?, producer?, hrecords, hrecords] at hsame
  exact absurd hsame (by decide)

end TraceGloss.Provenance
