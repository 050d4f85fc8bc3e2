import TraceGloss.Opcode

/-
  The instruction set by name.
  `effectTable` lists what instructions do to the stack, and the names of those that do it. Most are listed
  by how many words they take and leave, those apart whose result is a function of what they take
  (`arityTable`). The names of the numbered families carry their numbers (`familyTable`): `PUSH` its width,
  `DUP` and `SWAP` their depth, `LOG` its topics. A name is read as an instruction with the effect that it
  is listed for, and as none if it is not listed (`mem_names_iff`).
-/
namespace TraceGloss

/-- The spellings of the instruction that hashes memory. -/
def hashNames : List String := ["SHA3", "KECCAK256"]

/-- The instructions that are shown by name only. -/
def unmodelledNames : List String := ["EXTCODEHASH", "CREATE2", "INVALID"]

/-- The instructions that take and leave some number of words. -/
def arityTable : List (StackEffect × List String) :=
  [(.fixed 2 1 true, ["ADD", "MUL", "SUB", "DIV", "SDIV", "MOD", "SMOD", "EXP", "SIGNEXTEND", "AND",
      "OR", "XOR", "BYTE", "SHL", "SHR", "SAR"]),
    (.fixed 3 1 true, ["ADDMOD", "MULMOD"]),
    (.fixed 1 1 true, ["NOT"]),
    (.fixed 0 0 false, ["STOP", "JUMPDEST"]),
    (.fixed 0 1 false, ["ADDRESS", "ORIGIN", "CALLER", "CALLVALUE", "CALLDATASIZE", "CODESIZE",
      "GASPRICE", "RETURNDATASIZE", "COINBASE", "TIMESTAMP", "NUMBER", "DIFFICULTY", "PREVRANDAO",
      "GASLIMIT", "CHAINID", "SELFBALANCE", "BASEFEE", "BLOBBASEFEE", "PC", "MSIZE", "GAS"]),
    (.fixed 1 1 false, ["ISZERO", "BALANCE", "CALLDATALOAD", "EXTCODESIZE", "BLOCKHASH", "BLOBHASH",
      "MLOAD", "SLOAD", "TLOAD"]),
    (.fixed 2 1 false, ["LT", "GT", "SLT", "SGT", "EQ"]),
    (.fixed 3 1 false, ["CREATE"]),
    (.fixed 6 1 false, ["DELEGATECALL", "STATICCALL"]),
    (.fixed 7 1 false, ["CALL", "CALLCODE"]),
    (.fixed 1 0 false, ["POP", "JUMP", "SELFDESTRUCT", "SUICIDE"]),
    (.fixed 2 0 false, ["MSTORE", "MSTORE8", "SSTORE", "TSTORE", "JUMPI", "RETURN", "REVERT"]),
    (.fixed 3 0 false, ["CALLDATACOPY", "CODECOPY", "RETURNDATACOPY", "MCOPY"]),
    (.fixed 4 0 false, ["EXTCODECOPY"])]

/-- The instructions of a numbered family, by their numbers. -/
def familyTable (family : String) (effect : Nat → StackEffect) (first count : Nat) :
    List (StackEffect × List String) :=
  (List.range' first count).map fun n => (effect n, [family ++ toString n])

/-- The effects of instructions on the stack, with the names of the instructions. -/
def effectTable : List (StackEffect × List String) :=
  [(.hash, hashNames), (.unmodelled, unmodelledNames)] ++ arityTable ++
    familyTable "PUSH" .push 0 33 ++ familyTable "DUP" .dup 1 16 ++ familyTable "SWAP" .swap 1 16 ++
    familyTable "LOG" .log 0 5

namespace StackEffect

/-- The names of the instructions with an effect. -/
def names (effect : StackEffect) : List String := (effectTable.lookup effect).getD []

theorem names_hash : StackEffect.hash.names = hashNames := rfl

theorem names_unmodelled : StackEffect.unmodelled.names = unmodelledNames := rfl

example : (StackEffect.dup 3).names = ["DUP3"] := by decide +kernel

theorem stackEffect_of_mem_effectTable :
    ∀ row ∈ effectTable, ∀ name ∈ row.2,
      (Opcode.ofMnemonic? name).map Opcode.stackEffect = some row.1 := by
  decide +kernel

theorem mem_names_of_mem_spellings :
    ∀ x ∈ Opcode.spellings, x.1 ∈ x.2.stackEffect.names := by
  decide +kernel

/-- The instruction of a name has the effect that the name is listed for. -/
theorem mem_names_iff {effect : StackEffect} {name : String} :
    name ∈ effect.names ↔ ∃ op, Opcode.ofMnemonic? name = some op ∧ op.stackEffect = effect := by
  constructor
  · intro h
    cases hrow : effectTable.lookup effect with
    | none => simp [names, hrow] at h
    | some listed =>
      simp only [names, hrow, Option.getD_some] at h
      obtain ⟨before, after, hsplit, -⟩ := List.lookup_eq_some_iff.mp hrow
      have hmem : (effect, listed) ∈ effectTable := by simp [hsplit]
      exact Option.map_eq_some_iff.mp (stackEffect_of_mem_effectTable _ hmem name h)
  · rintro ⟨op, hop, rfl⟩
    exact mem_names_of_mem_spellings _ (Opcode.mem_spellings_of_ofMnemonic? hop)

end StackEffect

end TraceGloss
