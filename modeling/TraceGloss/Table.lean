import TraceGloss.Account

/-
  Tables in key order.
  A `Table` is a finite map kept as its list of entries in strictly increasing key order, so that
  two tables with the same bindings are the same table. Storage deltas, named constants, code
  tables and gas profiles are tables. `get?_insert` says what an insertion does.
-/
namespace TraceGloss

/-- The order on keys is strict and linear. -/
class LinearKey (κ : Type) [LT κ] : Prop where
  irrefl (a : κ) : ¬ a < a
  trans {a b c : κ} : a < b → b < c → a < c
  connected {a b : κ} : ¬ a < b → ¬ b < a → a = b

theorem lt_bytes_irrefl (a : List UInt8) : ¬ a < a := List.lt_irrefl a

theorem lt_bytes_trans {a b c : List UInt8} (h : a < b) (k : b < c) : a < c :=
  List.lt_trans h k

theorem eq_of_not_lt_bytes {a b : List UInt8} (h : ¬ a < b) (k : ¬ b < a) : a = b :=
  List.le_antisymm (by simpa using k) (by simpa using h)

instance : LinearKey String where
  irrefl := String.lt_irrefl
  trans := String.lt_trans
  connected h k := String.le_antisymm (String.not_lt.mp k) (String.not_lt.mp h)

instance : LinearKey Word where
  irrefl w := lt_bytes_irrefl w.bytes
  trans := lt_bytes_trans
  connected h k := Word.ext (eq_of_not_lt_bytes h k)

instance {n : Nat} : LinearKey (FixedBytes n) where
  irrefl a := lt_bytes_irrefl a.bytes
  trans := lt_bytes_trans
  connected h k := FixedBytes.ext (eq_of_not_lt_bytes h k)

/-- A finite map as its entries in key order. -/
structure Table (κ ν : Type) [LT κ] where
  entries : List (κ × ν)
  sorted : entries.Pairwise fun a b => a.1 < b.1

namespace Table

variable {κ ν : Type} [LT κ]

theorem ext {s t : Table κ ν} (h : s.entries = t.entries) : s = t := by
  cases s; cases t; cases h; rfl

instance [DecidableEq κ] [DecidableEq ν] : DecidableEq (Table κ ν) := fun s t =>
  decidable_of_iff (s.entries = t.entries) ⟨ext, fun h => h ▸ rfl⟩

def empty : Table κ ν := ⟨[], List.Pairwise.nil⟩

instance : Inhabited (Table κ ν) := ⟨empty⟩

def keys (t : Table κ ν) : List κ := t.entries.map (·.1)

def values (t : Table κ ν) : List ν := t.entries.map (·.2)

def get? [DecidableEq κ] (t : Table κ ν) (k : κ) : Option ν := t.entries.lookup k

/-- Binds `k` to `v` in a list of entries in key order; an older binding of `k` goes. -/
def place [DecidableLT κ] (k : κ) (v : ν) : List (κ × ν) → List (κ × ν)
  | [] => [(k, v)]
  | (key, val) :: rest =>
    if k < key then (k, v) :: (key, val) :: rest
    else if key < k then (key, val) :: place k v rest
    else (k, v) :: rest

theorem mem_place [DecidableLT κ] {k : κ} {v : ν} {l : List (κ × ν)} {e : κ × ν}
    (h : e ∈ place k v l) : e = (k, v) ∨ e ∈ l := by
  induction l with
  | nil => exact Or.inl (List.mem_singleton.mp h)
  | cons head rest ih =>
    obtain ⟨key, val⟩ := head
    simp only [place] at h
    split at h
    · simpa using h
    · split at h
      · rcases List.mem_cons.mp h with h | h
        · exact Or.inr (h ▸ List.mem_cons_self)
        · exact (ih h).imp id (List.mem_cons_of_mem _)
      · rcases List.mem_cons.mp h with h | h
        · exact Or.inl h
        · exact Or.inr (List.mem_cons_of_mem _ h)

theorem sorted_place [DecidableLT κ] [LinearKey κ] (k : κ) (v : ν) {l : List (κ × ν)}
    (h : l.Pairwise fun a b => a.1 < b.1) : (place k v l).Pairwise fun a b => a.1 < b.1 := by
  induction l with
  | nil => exact List.pairwise_singleton _ _
  | cons head rest ih =>
    obtain ⟨key, val⟩ := head
    obtain ⟨hkey, hrest⟩ := List.pairwise_cons.mp h
    simp only [place]
    split
    · rename_i hk
      refine List.pairwise_cons.mpr ⟨fun e he => ?_, h⟩
      rcases List.mem_cons.mp he with rfl | he
      · exact hk
      · exact LinearKey.trans hk (hkey e he)
    · split
      · rename_i hk
        refine List.pairwise_cons.mpr ⟨fun e he => ?_, ih hrest⟩
        rcases mem_place he with rfl | he
        · exact hk
        · exact hkey e he
      · rename_i h₁ h₂
        have hk : k = key := LinearKey.connected h₁ h₂
        exact List.pairwise_cons.mpr ⟨fun e he => hk ▸ hkey e he, hrest⟩

/-- Binds `k` to `v`; an older binding of `k` goes. -/
def insert [DecidableLT κ] [LinearKey κ] (t : Table κ ν) (k : κ) (v : ν) : Table κ ν :=
  ⟨place k v t.entries, sorted_place k v t.sorted⟩

/-- The table of a list of bindings, the last one of a key standing. -/
def ofList [DecidableLT κ] [LinearKey κ] (bindings : List (κ × ν)) : Table κ ν :=
  bindings.foldl (fun t e => t.insert e.1 e.2) empty

theorem lookup_place [DecidableEq κ] [DecidableLT κ] [LinearKey κ] (k k' : κ) (v : ν)
    {l : List (κ × ν)} (h : l.Pairwise fun a b => a.1 < b.1) :
    (place k v l).lookup k' = if k' = k then some v else l.lookup k' := by
  induction l with
  | nil => by_cases hk : k' = k <;> simp [place, List.lookup_cons, hk, beq_eq_false_iff_ne.mpr]
  | cons head rest ih =>
    obtain ⟨key, val⟩ := head
    obtain ⟨hkey, hrest⟩ := List.pairwise_cons.mp h
    have hirr := LinearKey.irrefl key
    simp only [place]
    split
    · by_cases hk : k' = k
      · simp [hk]
      · simp [List.lookup_cons, hk, beq_eq_false_iff_ne.mpr]
    · split
      · rename_i h₂
        have hne : key ≠ k := fun e => hirr (e ▸ h₂)
        by_cases hk : k' = key
        · subst hk; simp [hne]
        · simp [List.lookup_cons, beq_eq_false_iff_ne.mpr hk, ih hrest]
      · rename_i h₁ h₂
        have hk : k = key := LinearKey.connected h₁ h₂
        subst hk
        by_cases hk' : k' = k
        · simp [hk']
        · simp [List.lookup_cons, hk', beq_eq_false_iff_ne.mpr]

theorem get?_insert [DecidableEq κ] [DecidableLT κ] [LinearKey κ] (t : Table κ ν) (k k' : κ)
    (v : ν) : (t.insert k v).get? k' = if k' = k then some v else t.get? k' :=
  lookup_place k k' v t.sorted

end Table

end TraceGloss
