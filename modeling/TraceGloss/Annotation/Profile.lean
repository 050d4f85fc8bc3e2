import TraceGloss.Annotation.Basic
import TraceGloss.Decimal.Fixed

/-
  Gas by mnemonic. A `GasProfile` sums the costs of annotated steps for each mnemonic and can be shown
  as a table, most expensive first.
-/
namespace TraceGloss

open Json

/-- The steps with one mnemonic, and their gas. -/
structure OpGas where
  count : Nat
  total : Nat
deriving DecidableEq, Inhabited

namespace OpGas

/-- The average gas of a step. -/
def average (g : OpGas) : Decimal.Fraction :=
  if g.count = 0 then ⟨0, 1⟩ else Decimal.doubleQuotient g.total g.count

end OpGas

structure GasProfile where
  byOp : Table String OpGas := Table.empty
deriving DecidableEq

namespace GasProfile

/-- Adds one step. -/
def record (p : GasProfile) (s : AnnotatedStep) : GasProfile :=
  let before := (p.byOp.get? s.step.op).getD ⟨0, 0⟩
  ⟨p.byOp.insert s.step.op ⟨before.count + 1, before.total + s.cost⟩⟩

def ofSteps (steps : List AnnotatedStep) : GasProfile := steps.foldl record {}

def get? (p : GasProfile) (op : String) : Option OpGas := p.byOp.get? op

/-- All gas. -/
def total (p : GasProfile) : Nat := p.byOp.values.foldl (fun n g => n + g.total) 0

/-- The number of steps. -/
def steps (p : GasProfile) : Nat := p.byOp.values.foldl (fun n g => n + g.count) 0

/-- Whether an entry stands before another: by gas downwards, then by mnemonic. -/
def ranksBefore (a b : String × OpGas) : Bool :=
  b.2.total < a.2.total || (a.2.total == b.2.total && a.1 ≤ b.1)

/-- Mnemonics by total gas, most expensive first. -/
def ranked (p : GasProfile) : List (String × OpGas) := p.byOp.entries.mergeSort ranksBefore

def left (width : Nat) (text : String) : String :=
  text ++ String.ofList (List.replicate (width - text.length) ' ')

def right (width : Nat) (text : String) : String :=
  String.ofList (List.replicate (width - text.length) ' ') ++ text

def row (op count gas : String) : String := left 16 op ++ right 10 count ++ right 14 gas

/-- The profile as a table. -/
def text (p : GasProfile) : String :=
  let line (e : String × OpGas) : String :=
    row e.1 (toString e.2.count) (toString e.2.total) ++
      right 12 (Decimal.fixed 2 e.2.average) ++ "\n"
  row "Opcode" "Count" "Gas" ++ right 12 "Average" ++ "\n" ++
    String.join (p.ranked.map line) ++
    row "Total" (toString p.steps) (toString p.total)

def toJson (p : GasProfile) : Json :=
  Json.record [("by_op", Json.record (p.byOp.entries.map fun e =>
    (e.1, Json.record [("count", .natural e.2.count), ("total_gas", .natural e.2.total)])))]

end GasProfile

end TraceGloss
