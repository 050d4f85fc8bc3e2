import TraceGloss.Provenance.Basic
import TraceGloss.Provenance.Expression

/-
  The expression behind a word.
  `expand` follows first producers from a word downwards. A word below the threshold is a literal, a
  named constant its name, a pushed word a literal, and a computed word the instruction applied to its
  expanded inputs. A word met again while it is being expanded is a literal. The recursion ends
  because a path never holds a word twice: `remaining` counts the words that can still join it.
-/
namespace TraceGloss

/-- A word as the application of `f` to its slots: `f` of the word itself if it fits in one. -/
def Word.assemble (f : Word → Expression) (w : Word) : Expression :=
  if w.isWide then .concat (w.slots.map f) else f w

namespace Provenance

/-- How a slot-sized word is shown: at once, or through its inputs. -/
inductive View
  | leaf (e : Expression)
  | node (op : Opcode) (inputs : List Word)

/-- Whether a word was computed from inputs. -/
def isDerived (p : Provenance) (w : Word) : Bool :=
  match p.producer? w with
  | some ⟨.computed _, _ :: _⟩ => true
  | _ => false

def view (p : Provenance) (threshold : UInt64) (w : Word) : View :=
  if w.isBelow threshold then .leaf (.literal w)
  else
    match p.producer? w with
    | none => .leaf (.literal w)
    | some ⟨.constant name, _⟩ => .leaf (.constant name)
    | some ⟨.pushed _, _⟩ => .leaf (.literal w)
    | some ⟨.computed op, []⟩ => .leaf (.apply op [])
    | some ⟨.computed op, input :: inputs⟩ => .node op (input :: inputs)

theorem isDerived_of_view {p : Provenance} {threshold : UInt64} {w : Word} {op : Opcode}
    {inputs : List Word} (h : p.view threshold w = .node op inputs) : p.isDerived w = true := by
  unfold view at h
  split at h
  · cases h
  · split at h
    all_goals cases h
    rename_i heq
    simp [isDerived, heq]

/-- The words computed from inputs. -/
def derived (p : Provenance) : List Word := p.productions.keys.filter p.isDerived

theorem mem_derived {p : Provenance} {w : Word} : w ∈ p.derived ↔ p.isDerived w = true := by
  simp only [derived, List.mem_filter, Std.HashMap.mem_keys, and_iff_right_iff_imp]
  intro h
  apply Classical.byContradiction
  intro hw
  simp [isDerived, producer?, records, Std.HashMap.getElem?_eq_none hw] at h

/-- The number of computed words that are not on a path. -/
def remaining (p : Provenance) (path : List Word) : Nat :=
  (p.derived.filter (· ∉ path)).length

theorem remaining_cons_lt {p : Provenance} {path : List Word} {w : Word}
    (hw : p.isDerived w = true) (hp : w ∉ path) : p.remaining (w :: path) < p.remaining path := by
  have hfilter : p.derived.filter (· ∉ w :: path)
      = (p.derived.filter (· ∉ path)).filter (· ≠ w) := by
    rw [List.filter_filter]
    apply List.filter_congr
    intro v _
    simp [List.mem_cons, not_or, Bool.decide_and]
  unfold remaining
  rw [hfilter]
  apply List.length_filter_lt_length_iff_exists.mpr
  exact ⟨w, List.mem_filter.mpr ⟨mem_derived.mpr hw, by simpa using hp⟩, by simp⟩

/-- The expression of a slot-sized word below the words of `path`. -/
def expandSlot (p : Provenance) (threshold : UInt64) (path : List Word) (w : Word) : Expression :=
  match _ : p.view threshold w with
  | .leaf e => e
  | .node op inputs =>
    if _ : w ∈ path then .literal w
    else
      .apply op (inputs.map fun input =>
        input.assemble fun slot => expandSlot p threshold (w :: path) slot)
termination_by p.remaining path
decreasing_by exact remaining_cons_lt (isDerived_of_view ‹_›) ‹_›

/-- The expression of a word. -/
def expand (p : Provenance) (threshold : UInt64) (w : Word) : Expression :=
  w.assemble (p.expandSlot threshold [])

end Provenance

end TraceGloss
