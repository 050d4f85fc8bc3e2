import TraceGloss.Provenance.Basic

/-
  Histories of a provenance.
  Every provenance is a log: constants and registrations append productions in order
  (`ofConstants_eq`, `register_eq`), and a `snapshot` is the log of a part of one history
  (`snapshot_eq`), whose records it lists word by word (`records_log`). A log `Extends` what it was appended to: the revision never falls, and while it
  stands no word changes its producer (`producer?_snapshot`). So the revision of a snapshot says
  which producers it has.
-/
namespace TraceGloss

/-- One report of what an instruction produced. -/
structure Registration where
  outputs : List Word
  origin : Origin
  inputs : List Word

namespace Provenance

/-- Appends productions in order. -/
def log (p : Provenance) (entries : List (Word × Production)) : Provenance :=
  entries.foldl (fun p e => p.insert e.1 e.2) p

/-- The entries that constants add. -/
def constantEntries (constants : List (String × Word)) : List (Word × Production) :=
  constants.map fun c => (c.2, ⟨.constant c.1, []⟩)

/-- The entries that a registration adds: none for an output among the inputs. -/
def entriesOf (r : Registration) : List (Word × Production) :=
  (r.outputs.filter (· ∉ r.inputs)).map fun w => (w, ⟨r.origin, r.inputs⟩)

/-- A provenance some way through a history: the constants and the first `n` registrations. -/
def snapshot (constants : List (String × Word)) (history : List Registration) (n : Nat) :
    Provenance :=
  (history.take n).foldl (fun p r => p.register r.outputs r.origin r.inputs)
    (ofConstants constants)

/-! ## Logs -/

theorem log_append (p : Provenance) (xs ys : List (Word × Production)) :
    p.log (xs ++ ys) = (p.log xs).log ys := List.foldl_append

theorem ofConstants_eq (constants : List (String × Word)) :
    ofConstants constants = empty.log (constantEntries constants) := by
  simp only [ofConstants, log, constantEntries, List.foldl_map]

theorem register_eq (p : Provenance) (r : Registration) :
    p.register r.outputs r.origin r.inputs = p.log (entriesOf r) := by
  rw [register, log, entriesOf, List.foldl_map, List.foldl_filter]
  congr 1
  funext q w
  by_cases h : w ∈ r.inputs <;> simp [h]

theorem registrations_eq (p : Provenance) (rs : List Registration) :
    rs.foldl (fun p r => p.register r.outputs r.origin r.inputs) p =
      p.log (rs.flatMap entriesOf) := by
  induction rs generalizing p with
  | nil => rfl
  | cons r rs ih => rw [List.foldl_cons, ih, register_eq, List.flatMap_cons, log_append]

theorem snapshot_eq (constants : List (String × Word)) (history : List Registration) (n : Nat) :
    snapshot constants history n =
      empty.log (constantEntries constants ++ (history.take n).flatMap entriesOf) := by
  rw [snapshot, registrations_eq, ofConstants_eq, log_append]

theorem snapshot_succ (constants : List (String × Word)) {history : List Registration} {n : Nat}
    {r : Registration} (h : history[n]? = some r) :
    snapshot constants history (n + 1) =
      (snapshot constants history n).register r.outputs r.origin r.inputs := by
  rw [snapshot, List.take_add_one, h, List.foldl_append]
  rfl

/-- A later snapshot is an earlier one with more entries. -/
theorem snapshot_eq_log_of_le (constants : List (String × Word)) (history : List Registration)
    {m n : Nat} (h : m ≤ n) :
    ∃ entries, snapshot constants history n = (snapshot constants history m).log entries := by
  have hsplit : history.take n = history.take m ++ (history.take n).drop m := by
    have := List.take_append_drop m (history.take n)
    rw [List.take_take, Nat.min_eq_left h] at this
    exact this.symm
  refine ⟨((history.take n).drop m).flatMap entriesOf, ?_⟩
  rw [snapshot_eq, snapshot_eq, ← log_append, List.append_assoc, ← List.flatMap_append, ← hsplit]

/-! ## Records -/

/-- A log keeps the records of a word and appends its entries for that word in order. -/
theorem records_log (p : Provenance) (entries : List (Word × Production)) (w : Word) :
    (p.log entries).records w = p.records w ++ (entries.filter (·.1 = w)).map (·.2) := by
  induction entries generalizing p with
  | nil => simp [log]
  | cons e entries ih =>
    have hrest := ih (p.insert e.1 e.2)
    rw [log, List.foldl_cons, ← log, hrest, records_insert, List.filter_cons]
    by_cases h : e.1 = w
    · simp [h]
    · simp [h, Ne.symm h]

theorem filter_constantEntries (constants : List (String × Word)) (w : Word) :
    ((constantEntries constants).filter (·.1 = w)).map (·.2) =
      (constants.filter (·.2 = w)).map fun c => ⟨.constant c.1, []⟩ := by
  rw [constantEntries, List.filter_map, List.map_map]
  rfl

/-! ## Revisions -/

/-- Every word that has an entry has a production. -/
def Inhabits (p : Provenance) : Prop := ∀ w, p.productions.contains w = (p.producer? w).isSome

theorem inhabits_empty : empty.Inhabits := by
  intro w
  rw [producer?, records_empty]
  simp [empty]

theorem contains_insert (p : Provenance) (w v : Word) (production : Production) :
    (p.insert w production).productions.contains v = (v == w || p.productions.contains v) := by
  rw [insert, Std.HashMap.contains_alter]
  by_cases h : w = v
  · subst h
    cases p.productions[w]? <;> simp
  · simp [h, Ne.symm h]

theorem inhabits_insert {p : Provenance} (hp : p.Inhabits) (w : Word) (production : Production) :
    (p.insert w production).Inhabits := by
  intro v
  rw [contains_insert, producer?_insert]
  by_cases h : v = w
  · simp [h]
  · simp [h, hp v]

/-- What a provenance keeps when productions are appended: its revision, unless a word gains its
first producer. -/
structure Extends (p q : Provenance) : Prop where
  inhabits : q.Inhabits
  revision_le : p.revision ≤ q.revision
  producer?_eq : q.revision = p.revision → ∀ w, q.producer? w = p.producer? w

theorem Extends.refl {p : Provenance} (hp : p.Inhabits) : p.Extends p :=
  ⟨hp, Nat.le_refl _, fun _ _ => rfl⟩

theorem Extends.trans {p q r : Provenance} (h1 : p.Extends q) (h2 : q.Extends r) : p.Extends r := by
  refine ⟨h2.inhabits, Nat.le_trans h1.revision_le h2.revision_le, ?_⟩
  intro h w
  have hle1 := h1.revision_le
  have hle2 := h2.revision_le
  rw [h2.producer?_eq (by omega) w, h1.producer?_eq (by omega) w]

theorem extends_insert {p : Provenance} (hp : p.Inhabits) (w : Word) (production : Production) :
    p.Extends (p.insert w production) := by
  have hrevision : (p.insert w production).revision =
      if (p.producer? w).isSome then p.revision else p.revision + 1 := by
    rw [insert, hp w]
  refine ⟨inhabits_insert hp w production, ?_, ?_⟩
  · rw [hrevision]
    split <;> omega
  · intro h v
    cases hw : p.producer? w with
    | none => simp [hrevision, hw] at h
    | some found =>
      rw [producer?_insert]
      by_cases hv : v = w
      · simp [hv, hw]
      · simp [hv]

theorem extends_log {p : Provenance} (hp : p.Inhabits) (entries : List (Word × Production)) :
    p.Extends (p.log entries) := by
  induction entries generalizing p with
  | nil => exact .refl hp
  | cons e entries ih =>
    have hstep := extends_insert hp e.1 e.2
    exact hstep.trans (ih hstep.inhabits)

theorem inhabits_snapshot (constants : List (String × Word)) (history : List Registration)
    (n : Nat) : (snapshot constants history n).Inhabits := by
  rw [snapshot_eq]
  exact (extends_log inhabits_empty _).inhabits

theorem extends_snapshot (constants : List (String × Word)) (history : List Registration)
    {m n : Nat} (h : m ≤ n) :
    (snapshot constants history m).Extends (snapshot constants history n) := by
  obtain ⟨entries, heq⟩ := snapshot_eq_log_of_le constants history h
  rw [heq]
  exact extends_log (inhabits_snapshot constants history m) entries

/-- Snapshots of one history at one revision agree on every producer. -/
theorem producer?_snapshot (constants : List (String × Word)) (history : List Registration)
    {m n : Nat}
    (h : (snapshot constants history m).revision = (snapshot constants history n).revision)
    (w : Word) :
    (snapshot constants history m).producer? w = (snapshot constants history n).producer? w := by
  rcases Nat.le_total m n with hle | hle
  · exact ((extends_snapshot constants history hle).producer?_eq h.symm w).symm
  · exact (extends_snapshot constants history hle).producer?_eq h w

end Provenance

end TraceGloss
