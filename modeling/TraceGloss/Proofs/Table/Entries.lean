import Mathlib.Algebra.GroupWithZero.Nat
import Mathlib.Data.List.Nodup
import TraceGloss.Table

/-
  The entries of a table.
  The entries are the bindings that look-up finds (`mem_entries_iff`), one for each key
  (`nodup_keys`), so tables that answer every look-up alike are the same (`ext_get?`). A sum over the
  values moves by what an insertion binds, less what it replaces (`sum_values_insert`).
-/
namespace TraceGloss.Table

variable {κ ν : Type} [LT κ] [LinearKey κ]

theorem ne_of_lt {a b : κ} (h : a < b) : a ≠ b := fun heq => LinearKey.irrefl b (heq ▸ h)

theorem nodup_keys (t : Table κ ν) : t.keys.Nodup := by
  rw [keys, List.nodup_iff_pairwise_ne, List.pairwise_map]
  exact t.sorted.imp ne_of_lt

variable [DecidableEq κ]

/-- A key below all others is not bound. -/
theorem lookup_eq_none_of_lt {k : κ} {entries : List (κ × ν)} (h : ∀ e ∈ entries, k < e.1) :
    entries.lookup k = none := by
  rw [List.lookup_eq_none_iff]
  exact fun e he => bne_iff_ne.mpr (ne_of_lt (h e he))

theorem mem_iff_lookup {entries : List (κ × ν)} (hsorted : entries.Pairwise fun a b => a.1 < b.1)
    (k : κ) (v : ν) : (k, v) ∈ entries ↔ entries.lookup k = some v := by
  induction entries with
  | nil => exact ⟨nofun, nofun⟩
  | cons e rest ih =>
    obtain ⟨key, value⟩ := e
    obtain ⟨hfirst, hrest⟩ := List.pairwise_cons.mp hsorted
    by_cases hk : k = key
    · subst hk
      have hnone : (k, v) ∉ rest := fun hmem => LinearKey.irrefl k (hfirst _ hmem)
      rw [List.lookup_cons_self, List.mem_cons, or_iff_left hnone, Prod.mk.injEq, Option.some.injEq]
      exact ⟨fun h => h.2.symm, fun h => ⟨rfl, h.symm⟩⟩
    · have hother : (k, v) ≠ (key, value) := fun heq => hk (congrArg Prod.fst heq)
      rw [List.lookup_cons, beq_false_of_ne hk, List.mem_cons, or_iff_right hother, ih hrest]

theorem mem_entries_iff (t : Table κ ν) (k : κ) (v : ν) :
    (k, v) ∈ t.entries ↔ t.get? k = some v :=
  mem_iff_lookup t.sorted k v

/-- Tables with the same bindings are the same. -/
theorem ext_get? {s t : Table κ ν} (h : ∀ k, s.get? k = t.get? k) : s = t := by
  have hmem : ∀ e, e ∈ s.entries ↔ e ∈ t.entries := by
    rintro ⟨k, v⟩
    rw [mem_entries_iff, mem_entries_iff, h k]
  have hnodup (u : Table κ ν) : u.entries.Nodup := u.nodup_keys.of_map Prod.fst
  have hperm : s.entries.Perm t.entries :=
    (List.perm_ext_iff_of_nodup (hnodup s) (hnodup t)).mpr hmem
  refine ext (List.Perm.eq_of_pairwise ?_ s.sorted t.sorted hperm)
  intro a b _ _ hab hba
  exact absurd (LinearKey.trans hab hba) (LinearKey.irrefl a.1)

/-! ## Sums over values -/

variable [DecidableLT κ] (f : ν → Nat)

/-- A value that is bound comes in, and the one that it replaces goes. -/
theorem sum_place (k : κ) (v : ν) {entries : List (κ × ν)}
    (hsorted : entries.Pairwise fun a b => a.1 < b.1) :
    ((place k v entries).map fun e => f e.2).sum + ((entries.lookup k).map f).getD 0 =
      (entries.map fun e => f e.2).sum + f v := by
  induction entries with
  | nil => simp [place]
  | cons e rest ih =>
    obtain ⟨key, value⟩ := e
    obtain ⟨hfirst, hrest⟩ := List.pairwise_cons.mp hsorted
    rw [place]
    split
    · rename_i hk
      -- All keys are behind the new one.
      have hnone : ((key, value) :: rest).lookup k = none := by
        refine lookup_eq_none_of_lt (List.forall_mem_cons.mpr ⟨hk, fun e he => ?_⟩)
        exact LinearKey.trans hk (hfirst e he)
      rw [hnone, List.map_cons, List.sum_cons, Option.map_none, Option.getD_none]
      dsimp only
      omega
    · split
      · rename_i hk
        have hsum := ih hrest
        have hlookup : ((key, value) :: rest).lookup k = rest.lookup k := by
          rw [List.lookup_cons, beq_false_of_ne (ne_of_lt hk).symm]
        rw [hlookup, List.map_cons, List.sum_cons, List.map_cons, List.sum_cons]
        omega
      · rename_i hk hk'
        obtain rfl : k = key := LinearKey.connected hk hk'
        rw [List.lookup_cons_self, List.map_cons, List.sum_cons, List.map_cons, List.sum_cons,
          Option.map_some, Option.getD_some]
        dsimp only
        omega

theorem sum_values_insert (t : Table κ ν) (k : κ) (v : ν) :
    ((t.insert k v).values.map f).sum + ((t.get? k).map f).getD 0 = (t.values.map f).sum + f v := by
  rw [values, values, List.map_map, List.map_map]
  exact sum_place f k v t.sorted

end TraceGloss.Table
