import TraceGloss.Opcode
import TraceGloss.Table

/-
  Recorded execution.
  A `Step` is one executed instruction, captured before it runs; the last word of its stack is the
  top. A `RawTrace` is what a debugger answers for one transaction.
-/
namespace TraceGloss

structure Step where
  depth : UInt32 := 0
  op : String := ""
  pc : UInt64 := 0
  gas : UInt64 := 0
  gasCost : UInt64 := 0
  stack : List Word := []
  memory : Option (List Word) := none
  storage : Table Word Word := Table.empty
  error : Option String := none
deriving DecidableEq, Inhabited

/-- The word `depth` places below the top of a stack. -/
def fromTop? (stack : List Word) (depth : Nat) : Option Word := stack.reverse[depth]?

/-- The top `n` words of a stack in stack order; all of a shorter one. -/
def topWords (stack : List Word) (n : Nat) : List Word := stack.drop (stack.length - n)

namespace Step

/-- The instruction the step executes, if its mnemonic is known. -/
def opcode? (s : Step) : Option Opcode := Opcode.ofMnemonic? s.op

/-- Memory as one run of bytes. -/
def memoryImage (s : Step) : List UInt8 :=
  match s.memory with
  | some words => words.flatMap (·.bytes)
  | none => []

end Step

structure RawTrace where
  gas : UInt64 := 0
  failed : Bool := false
  returnValue : String := ""
  steps : List Step := []
deriving DecidableEq, Inhabited

end TraceGloss
