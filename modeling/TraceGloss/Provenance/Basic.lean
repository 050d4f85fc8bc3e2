import Std.Data.HashMap
import TraceGloss.Opcode
import TraceGloss.Word

/-
  Where values come from.
  A `Provenance` maps each word to the productions seen for it, oldest first; the first one is its
  producer and explains the word from then on. `revision` counts the words that gained a producer.
  `producer?_insert` and `records_insert` say what one more production does.
-/
namespace TraceGloss

/-- What brought a word into a run. -/
inductive Origin
  /-- A named constant. -/
  | constant (name : String)
  /-- A literal in the code. -/
  | pushed (op : Opcode)
  /-- The result of an instruction. -/
  | computed (op : Opcode)
deriving DecidableEq

/-- One way a word was produced. -/
structure Production where
  origin : Origin
  inputs : List Word
deriving DecidableEq

namespace Origin

def name : Origin → String
  | constant name => name
  | pushed op => op.mnemonic
  | computed op => op.mnemonic

end Origin

structure Provenance where
  productions : Std.HashMap Word (Array Production) := {}
  revision : Nat := 0

namespace Provenance

def empty : Provenance := {}

instance : Inhabited Provenance := ⟨empty⟩

/-- The number of words with a producer. -/
def size (p : Provenance) : Nat := p.productions.size

/-- Every production of a word, oldest first. -/
def records (p : Provenance) (w : Word) : List Production :=
  match p.productions[w]? with
  | some found => found.toList
  | none => []

/-- The production that explains a word: its first. -/
def producer? (p : Provenance) (w : Word) : Option Production := (p.records w).head?

/-- Appends a production of a word. -/
def insert (p : Provenance) (w : Word) (production : Production) : Provenance where
  productions := p.productions.alter w fun
    | none => some #[production]
    | some found => some (found.push production)
  revision := if p.productions.contains w then p.revision else p.revision + 1

/-- Records that `origin` produced each output from the inputs. An output that is one of the inputs
learns nothing from it and is passed over. -/
def register (p : Provenance) (outputs : List Word) (origin : Origin) (inputs : List Word) :
    Provenance :=
  outputs.foldl (fun p w => if w ∈ inputs then p else p.insert w ⟨origin, inputs⟩) p

/-- The provenance of named constants, in the order given. -/
def ofConstants (constants : List (String × Word)) : Provenance :=
  constants.foldl (fun p c => p.insert c.2 ⟨.constant c.1, []⟩) empty

@[simp] theorem records_empty (w : Word) : empty.records w = [] := by
  simp [records, empty]

theorem records_insert (p : Provenance) (w v : Word) (production : Production) :
    (p.insert w production).records v =
      if v = w then p.records v ++ [production] else p.records v := by
  unfold records insert
  rw [Std.HashMap.getElem?_alter]
  by_cases h : v = w
  · subst h
    cases p.productions[v]? <;> simp
  · have : (w == v) = false := beq_eq_false_iff_ne.mpr (Ne.symm h)
    simp [this, h]

theorem producer?_insert (p : Provenance) (w v : Word) (production : Production) :
    (p.insert w production).producer? v =
      if v = w then some ((p.producer? v).getD production) else p.producer? v := by
  simp only [producer?, records_insert]
  split
  · cases p.records v <;> simp
  · rfl

end Provenance

end TraceGloss
