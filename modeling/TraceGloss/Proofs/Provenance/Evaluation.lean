import Mathlib.Data.List.Forall2
import TraceGloss.Proofs.Provenance.Expansion
import TraceGloss.Proofs.Word.Literal

/-
  What expressions evaluate to.
  A `Semantics` says what instructions compute, and `Evaluates` reads an expression by it. A provenance
  is `Truthful` when every record of a word `Explains` it; then every word is what its
  expansion evaluates to (`evaluates_expand`), below any path and wherever cycles are cut.
-/
namespace TraceGloss

/-- What instructions compute: from operands in stack order, and for hashes from bytes. -/
structure Semantics where
  compute : Opcode → List Word → Word
  hash : List UInt8 → Word

/-- `w` is what the instruction makes of its inputs. The input of a hash is the word of the bytes it
read. -/
def Semantics.Yields (m : Semantics) (op : Opcode) (inputs : List Word) (w : Word) : Prop :=
  match op.stackEffect with
  | .fixed arity _ true => inputs.length = arity ∧ w = m.compute op inputs
  | .hash => ∃ bytes, inputs = [Word.ofBytes bytes] ∧ w = m.hash bytes
  | _ => False

/-- The word that an expression stands for: a literal for what is read from its text, a name for a
constant of that name, an instruction for what it yields, and a concatenation for the wide word with
these slots. -/
inductive Evaluates (m : Semantics) (constants : List (String × Word)) : Expression → Word → Prop
  | literal {v w : Word} (h : Word.parse v.literal = .ok w) : Evaluates m constants (.literal v) w
  | constant {name : String} {w : Word} (h : (name, w) ∈ constants) :
    Evaluates m constants (.constant name) w
  | apply {op : Opcode} {args : List Expression} {inputs : List Word} {w : Word}
    (hargs : List.Forall₂ (Evaluates m constants) args inputs) (h : m.Yields op inputs w) :
    Evaluates m constants (.apply op args) w
  | concat {parts : List Expression} {w : Word} (hwide : w.isWide = true)
    (hparts : List.Forall₂ (Evaluates m constants) parts w.slots) :
    Evaluates m constants (.concat parts) w

/-- A production is a way to get `w`: from a constant of that value, or by what an instruction yields.
A pushed word needs no explanation. -/
def Production.Explains (m : Semantics) (constants : List (String × Word)) (r : Production)
    (w : Word) : Prop :=
  match r.origin with
  | .constant name => (name, w) ∈ constants
  | .pushed _ => True
  | .computed op => m.Yields op r.inputs w

variable {m : Semantics} {constants : List (String × Word)}

theorem evaluates_literal {w : Word} (h : w.isWide = false) :
    Evaluates m constants (.literal w) w :=
  .literal (Word.parse_literal h)

theorem Word.isWide_of_mem_parts {v w : Word} (h : v ∈ w.parts) : v.isWide = false := by
  rw [parts] at h
  split at h
  · exact isWide_of_mem_slots h
  · rename_i hwide
    rw [List.mem_singleton.mp h]
    exact eq_false_of_ne_true hwide

/-- A word is what its parts evaluate to, put together. -/
theorem evaluates_assemble {f : Word → Expression} {w : Word}
    (h : ∀ v ∈ w.parts, Evaluates m constants (f v) v) : Evaluates m constants (w.assemble f) w := by
  by_cases hwide : w.isWide = true
  · rw [Word.parts, if_pos hwide] at h
    rw [Word.assemble, if_pos hwide]
    refine .concat hwide ?_
    rw [List.forall₂_map_left_iff, List.forall₂_same]
    exact h
  · rw [Word.parts, if_neg hwide] at h
    rw [Word.assemble, if_neg hwide]
    exact h w (List.mem_singleton_self w)

namespace Provenance

variable {p : Provenance} {threshold : UInt64}

/-- Every record of a word explains it. -/
def Truthful (m : Semantics) (constants : List (String × Word)) (p : Provenance) : Prop :=
  ∀ w, ∀ r ∈ p.records w, r.Explains m constants w

theorem mem_records_of_producer? {w : Word} {r : Production} (h : p.producer? w = some r) :
    r ∈ p.records w :=
  List.mem_of_head? h

theorem evaluates_leaf (hp : p.Truthful m constants) {w : Word} (hw : w.isWide = false)
    {e : Expression} (h : p.view threshold w = .leaf e) : Evaluates m constants e w := by
  rw [view] at h
  split at h
  · cases h
    exact evaluates_literal hw
  · split at h
    · cases h
      exact evaluates_literal hw
    · rename_i heq
      cases h
      exact .constant (hp w _ (mem_records_of_producer? heq))
    · cases h
      exact evaluates_literal hw
    · rename_i heq
      cases h
      exact .apply .nil (hp w _ (mem_records_of_producer? heq))
    · cases h

theorem yields_of_node (hp : p.Truthful m constants) {w : Word} {op : Opcode} {inputs : List Word}
    (h : p.view threshold w = .node op inputs) : m.Yields op inputs w := by
  rw [view] at h
  split at h
  · cases h
  · split at h
    all_goals cases h
    rename_i heq
    exact hp w _ (mem_records_of_producer? heq)

/-- A slot-sized word is what its expansion evaluates to, whatever is being expanded around it. -/
theorem evaluates_expandSlot (hp : p.Truthful m constants) (path : List Word) (w : Word)
    (hw : w.isWide = false) : Evaluates m constants (p.expandSlot threshold path w) w := by
  induction path, w using expandSlot.induct p threshold with
  | case1 path w e hview =>
    rw [expandSlot_leaf hview]
    exact evaluates_leaf hp hw hview
  | case2 path w op inputs hview hmem =>
    rw [expandSlot_cut hview hmem]
    exact evaluates_literal hw
  | case3 path w op inputs hview hmem ih =>
    rw [expandSlot_node hview hmem]
    refine .apply ?_ (yields_of_node hp hview)
    rw [List.forall₂_map_left_iff, List.forall₂_same]
    intro input _
    exact evaluates_assemble fun v hv => ih v (Word.isWide_of_mem_parts hv)

/-- A word is what its expansion evaluates to. -/
theorem evaluates_expand (hp : p.Truthful m constants) (threshold : UInt64) (w : Word) :
    Evaluates m constants (p.expand threshold w) w :=
  evaluates_assemble fun v hv => evaluates_expandSlot hp [] v (Word.isWide_of_mem_parts hv)

end Provenance

end TraceGloss
