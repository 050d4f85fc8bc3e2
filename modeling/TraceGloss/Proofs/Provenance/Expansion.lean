import TraceGloss.Provenance.Expansion

/-
  What an expansion depends on.
  Only producers matter (`expandSlot_congr`). The path matters only to words that lie on a cycle: a
  word is `Grounded` when its inputs, their inputs and so on come to an end, and then it expands
  alike below any path that leads to it (`expandSlot_of_grounded`).
-/
namespace TraceGloss

/-- The slot-sized words that a word is shown through. -/
def Word.parts (w : Word) : List Word := if w.isWide then w.slots else [w]

theorem Word.assemble_congr {f g : Word → Expression} {w : Word} (h : ∀ v ∈ w.parts, f v = g v) :
    w.assemble f = w.assemble g := by
  by_cases hwide : w.isWide = true
  · rw [parts, if_pos hwide] at h
    rw [assemble, assemble, if_pos hwide, if_pos hwide, List.map_congr_left h]
  · rw [parts, if_neg hwide] at h
    rw [assemble, assemble, if_neg hwide, if_neg hwide, h w (List.mem_singleton_self w)]

namespace Provenance

variable {p q : Provenance} {threshold : UInt64}

/-! ## One step of an expansion -/

theorem expandSlot_leaf {w : Word} {e : Expression} (h : p.view threshold w = .leaf e)
    (path : List Word) : p.expandSlot threshold path w = e := by
  rw [expandSlot]
  split <;> simp_all

theorem expandSlot_cut {w : Word} {op : Opcode} {inputs : List Word}
    (h : p.view threshold w = .node op inputs) {path : List Word} (hw : w ∈ path) :
    p.expandSlot threshold path w = .literal w := by
  rw [expandSlot]
  split <;> simp_all

theorem expandSlot_node {w : Word} {op : Opcode} {inputs : List Word}
    (h : p.view threshold w = .node op inputs) {path : List Word} (hw : w ∉ path) :
    p.expandSlot threshold path w =
      .apply op (inputs.map (Word.assemble (p.expandSlot threshold (w :: path)))) := by
  rw [expandSlot]
  split <;> simp_all

/-! ## Producers decide -/

theorem view_congr (h : ∀ w, p.producer? w = q.producer? w) (w : Word) :
    p.view threshold w = q.view threshold w := by
  simp only [view, h]

theorem expandSlot_congr (h : ∀ w, p.producer? w = q.producer? w) (path : List Word) (w : Word) :
    p.expandSlot threshold path w = q.expandSlot threshold path w := by
  induction path, w using expandSlot.induct p threshold with
  | case1 path w e hview =>
    rw [expandSlot_leaf hview, expandSlot_leaf (view_congr h w ▸ hview)]
  | case2 path w op inputs hview hw =>
    rw [expandSlot_cut hview hw, expandSlot_cut (view_congr h w ▸ hview) hw]
  | case3 path w op inputs hview hw ih =>
    rw [expandSlot_node hview hw, expandSlot_node (view_congr h w ▸ hview) hw, funext ih]

/-! ## Cycles -/

/-- `v` is a part of an input of `w`, so that `w` is shown through it. -/
def Feeds (p : Provenance) (threshold : UInt64) (v w : Word) : Prop :=
  ∃ op inputs, p.view threshold w = .node op inputs ∧ ∃ input ∈ inputs, v ∈ input.parts

/-- No chain of inputs goes on for ever from `w`; in particular none comes back to it. -/
def Grounded (p : Provenance) (threshold : UInt64) (w : Word) : Prop := Acc (p.Feeds threshold) w

theorem feeds_congr (h : ∀ w, p.producer? w = q.producer? w) :
    p.Feeds threshold = q.Feeds threshold := by
  funext v w
  simp only [Feeds, view_congr h]

theorem grounded_congr (h : ∀ w, p.producer? w = q.producer? w) {w : Word} :
    p.Grounded threshold w ↔ q.Grounded threshold w := by
  rw [Grounded, Grounded, feeds_congr h]

theorem feeds_of_node {v w : Word} {op : Opcode} {inputs : List Word} {input : Word}
    (h : p.view threshold w = .node op inputs) (hinput : input ∈ inputs) (hv : v ∈ input.parts) :
    p.Feeds threshold v w :=
  ⟨op, inputs, h, input, hinput, hv⟩

theorem grounded_of_leaf {w : Word} {e : Expression} (h : p.view threshold w = .leaf e) :
    p.Grounded threshold w := by
  constructor
  rintro v ⟨op, inputs, hnode, -⟩
  rw [h] at hnode
  cases hnode

theorem grounded_of_node {w : Word} {op : Opcode} {inputs : List Word}
    (h : p.view threshold w = .node op inputs)
    (hparts : ∀ input ∈ inputs, ∀ v ∈ input.parts, p.Grounded threshold v) :
    p.Grounded threshold w := by
  constructor
  rintro v ⟨op', inputs', hnode, input, hinput, hv⟩
  rw [h] at hnode
  cases hnode
  exact hparts input hinput v hv

/-- A path that leads to `w`: every word on it is shown through `w`. -/
def LeadsTo (p : Provenance) (threshold : UInt64) (path : List Word) (w : Word) : Prop :=
  ∀ v ∈ path, Relation.TransGen (p.Feeds threshold) w v

theorem leadsTo_nil (w : Word) : p.LeadsTo threshold [] w := by
  intro v hv
  cases hv

theorem LeadsTo.cons {path : List Word} {v w : Word} (h : p.LeadsTo threshold path w)
    (hv : p.Feeds threshold v w) : p.LeadsTo threshold (w :: path) v := by
  intro u hu
  rcases List.mem_cons.mp hu with rfl | hu
  · exact .single hv
  · exact .trans (.single hv) (h u hu)

/-- A grounded word is not on a path that leads to it. -/
theorem Grounded.not_mem {path : List Word} {w : Word} (hw : p.Grounded threshold w)
    (hpath : p.LeadsTo threshold path w) : w ∉ path := by
  intro hmem
  have hcycle := hpath w hmem
  have hacc : Acc (Relation.TransGen (p.Feeds threshold)) w := Acc.transGen hw
  clear hw hpath hmem
  induction hacc with
  | intro w _ ih => exact ih w hcycle hcycle

/-- A grounded word expands alike below all paths that lead to it. -/
theorem expandSlot_of_grounded {w : Word} (hw : p.Grounded threshold w) {path : List Word}
    (hpath : p.LeadsTo threshold path w) :
    p.expandSlot threshold path w = p.expandSlot threshold [] w := by
  -- The expansion at the empty path goes on below `[w]`, so two arbitrary paths are compared.
  suffices h : ∀ other, p.LeadsTo threshold other w →
      p.expandSlot threshold path w = p.expandSlot threshold other w from h [] (leadsTo_nil w)
  induction hw generalizing path with
  | intro w hacc ih =>
    intro other hother
    cases hview : p.view threshold w with
    | leaf e => rw [expandSlot_leaf hview, expandSlot_leaf hview]
    | node op inputs =>
      have hground : p.Grounded threshold w := ⟨w, hacc⟩
      rw [expandSlot_node hview (hground.not_mem hpath),
        expandSlot_node hview (hground.not_mem hother)]
      congr 1
      apply List.map_congr_left
      intro input hinput
      apply Word.assemble_congr
      intro v hv
      have hfeeds := feeds_of_node hview hinput hv
      exact ih v hfeeds (hpath.cons hfeeds) _ (hother.cons hfeeds)

end Provenance

end TraceGloss
