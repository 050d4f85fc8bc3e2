/-
  The instruction set.
  An `Opcode` is one instruction; the PUSH, DUP, SWAP and LOG families carry their number. Each has
  one byte, one mnemonic and, for renamed instructions, a second spelling that is read too.
  `stackEffect` says from which stack windows the operands and results of an instruction are read.
-/
namespace TraceGloss

inductive Opcode
  | stop | add | mul | sub | div | sdiv | mod | smod | addmod | mulmod | exp | signExtend | lt
  | gt | slt | sgt | eq | isZero | and | or | xor | not | byte | shl | shr | sar | sha3 | address
  | balance | origin | caller | callValue | callDataLoad | callDataSize | callDataCopy | codeSize
  | codeCopy | gasPrice | extCodeSize | extCodeCopy | returnDataSize | returnDataCopy
  | extCodeHash | blockHash | coinbase | timestamp | number | difficulty | gasLimit | chainId
  | selfBalance | baseFee | blobHash | blobBaseFee | pop | mload | mstore | mstore8 | sload
  | sstore | jump | jumpi | pc | msize | gas | jumpDest | tload | tstore | mcopy | create | call
  | callCode | ret | delegateCall | create2 | staticCall | revert | invalid | selfDestruct
  | push (width : Fin 33)
  | dup (below : Fin 16)
  | swap (below : Fin 16)
  | log (topics : Fin 5)
deriving DecidableEq, Inhabited

/-- How the operands and results of an instruction are read off the stacks before and after it. -/
inductive StackEffect
  /-- Operands on top of the stack before, results on top of the stack after; with `derives` the
  results are recorded as computed from the operands. -/
  | fixed (inputs outputs : Nat) (derives : Bool)
  | push (width : Nat)
  | dup (n : Nat)
  | swap (n : Nat)
  | log (topics : Nat)
  /-- The operand is a window of memory. -/
  | hash
  /-- Nothing is read; the instruction is shown by name only. -/
  | unmodelled
deriving DecidableEq

namespace Opcode

/-- Every instruction, by byte. -/
def all : List Opcode :=
  [
     .stop, .add, .mul, .sub, .div, .sdiv, .mod, .smod, .addmod, .mulmod, .exp, .signExtend, .lt,
     .gt, .slt, .sgt, .eq, .isZero, .and, .or, .xor, .not, .byte, .shl, .shr, .sar, .sha3,
     .address, .balance, .origin, .caller, .callValue, .callDataLoad, .callDataSize,
     .callDataCopy, .codeSize, .codeCopy, .gasPrice, .extCodeSize, .extCodeCopy, .returnDataSize,
     .returnDataCopy, .extCodeHash, .blockHash, .coinbase, .timestamp, .number, .difficulty,
     .gasLimit, .chainId, .selfBalance, .baseFee, .blobHash, .blobBaseFee, .pop, .mload, .mstore,
     .mstore8, .sload, .sstore, .jump, .jumpi, .pc, .msize, .gas, .jumpDest, .tload, .tstore,
     .mcopy] ++
  (List.finRange 33).map push ++ (List.finRange 16).map dup ++ (List.finRange 16).map swap ++
  (List.finRange 5).map log ++
  [
     .create, .call, .callCode, .ret, .delegateCall, .create2, .staticCall, .revert, .invalid,
     .selfDestruct]

def mnemonic : Opcode → String
  | stop => "STOP"
  | add => "ADD"
  | mul => "MUL"
  | sub => "SUB"
  | div => "DIV"
  | sdiv => "SDIV"
  | mod => "MOD"
  | smod => "SMOD"
  | addmod => "ADDMOD"
  | mulmod => "MULMOD"
  | exp => "EXP"
  | signExtend => "SIGNEXTEND"
  | lt => "LT"
  | gt => "GT"
  | slt => "SLT"
  | sgt => "SGT"
  | eq => "EQ"
  | isZero => "ISZERO"
  | and => "AND"
  | or => "OR"
  | xor => "XOR"
  | not => "NOT"
  | byte => "BYTE"
  | shl => "SHL"
  | shr => "SHR"
  | sar => "SAR"
  | sha3 => "SHA3"
  | address => "ADDRESS"
  | balance => "BALANCE"
  | origin => "ORIGIN"
  | caller => "CALLER"
  | callValue => "CALLVALUE"
  | callDataLoad => "CALLDATALOAD"
  | callDataSize => "CALLDATASIZE"
  | callDataCopy => "CALLDATACOPY"
  | codeSize => "CODESIZE"
  | codeCopy => "CODECOPY"
  | gasPrice => "GASPRICE"
  | extCodeSize => "EXTCODESIZE"
  | extCodeCopy => "EXTCODECOPY"
  | returnDataSize => "RETURNDATASIZE"
  | returnDataCopy => "RETURNDATACOPY"
  | extCodeHash => "EXTCODEHASH"
  | blockHash => "BLOCKHASH"
  | coinbase => "COINBASE"
  | timestamp => "TIMESTAMP"
  | number => "NUMBER"
  | difficulty => "DIFFICULTY"
  | gasLimit => "GASLIMIT"
  | chainId => "CHAINID"
  | selfBalance => "SELFBALANCE"
  | baseFee => "BASEFEE"
  | blobHash => "BLOBHASH"
  | blobBaseFee => "BLOBBASEFEE"
  | pop => "POP"
  | mload => "MLOAD"
  | mstore => "MSTORE"
  | mstore8 => "MSTORE8"
  | sload => "SLOAD"
  | sstore => "SSTORE"
  | jump => "JUMP"
  | jumpi => "JUMPI"
  | pc => "PC"
  | msize => "MSIZE"
  | gas => "GAS"
  | jumpDest => "JUMPDEST"
  | tload => "TLOAD"
  | tstore => "TSTORE"
  | mcopy => "MCOPY"
  | create => "CREATE"
  | call => "CALL"
  | callCode => "CALLCODE"
  | ret => "RETURN"
  | delegateCall => "DELEGATECALL"
  | create2 => "CREATE2"
  | staticCall => "STATICCALL"
  | revert => "REVERT"
  | invalid => "INVALID"
  | selfDestruct => "SELFDESTRUCT"
  | push width => "PUSH" ++ toString width.val
  | dup below => "DUP" ++ toString (below.val + 1)
  | swap below => "SWAP" ++ toString (below.val + 1)
  | log topics => "LOG" ++ toString topics.val

/-- The other spelling of a renamed instruction. -/
def alias? : Opcode → Option String
  | sha3 => some "KECCAK256"
  | difficulty => some "PREVRANDAO"
  | selfDestruct => some "SUICIDE"
  | _ => none

def code : Opcode → UInt8
  | stop => 0x00
  | add => 0x01
  | mul => 0x02
  | sub => 0x03
  | div => 0x04
  | sdiv => 0x05
  | mod => 0x06
  | smod => 0x07
  | addmod => 0x08
  | mulmod => 0x09
  | exp => 0x0a
  | signExtend => 0x0b
  | lt => 0x10
  | gt => 0x11
  | slt => 0x12
  | sgt => 0x13
  | eq => 0x14
  | isZero => 0x15
  | and => 0x16
  | or => 0x17
  | xor => 0x18
  | not => 0x19
  | byte => 0x1a
  | shl => 0x1b
  | shr => 0x1c
  | sar => 0x1d
  | sha3 => 0x20
  | address => 0x30
  | balance => 0x31
  | origin => 0x32
  | caller => 0x33
  | callValue => 0x34
  | callDataLoad => 0x35
  | callDataSize => 0x36
  | callDataCopy => 0x37
  | codeSize => 0x38
  | codeCopy => 0x39
  | gasPrice => 0x3a
  | extCodeSize => 0x3b
  | extCodeCopy => 0x3c
  | returnDataSize => 0x3d
  | returnDataCopy => 0x3e
  | extCodeHash => 0x3f
  | blockHash => 0x40
  | coinbase => 0x41
  | timestamp => 0x42
  | number => 0x43
  | difficulty => 0x44
  | gasLimit => 0x45
  | chainId => 0x46
  | selfBalance => 0x47
  | baseFee => 0x48
  | blobHash => 0x49
  | blobBaseFee => 0x4a
  | pop => 0x50
  | mload => 0x51
  | mstore => 0x52
  | mstore8 => 0x53
  | sload => 0x54
  | sstore => 0x55
  | jump => 0x56
  | jumpi => 0x57
  | pc => 0x58
  | msize => 0x59
  | gas => 0x5a
  | jumpDest => 0x5b
  | tload => 0x5c
  | tstore => 0x5d
  | mcopy => 0x5e
  | create => 0xf0
  | call => 0xf1
  | callCode => 0xf2
  | ret => 0xf3
  | delegateCall => 0xf4
  | create2 => 0xf5
  | staticCall => 0xfa
  | revert => 0xfd
  | invalid => 0xfe
  | selfDestruct => 0xff
  | push width => 0x5f + UInt8.ofNat width.val
  | dup below => 0x80 + UInt8.ofNat below.val
  | swap below => 0x90 + UInt8.ofNat below.val
  | log topics => 0xa0 + UInt8.ofNat topics.val

/-- Every spelling with the instruction it names. -/
def spellings : List (String × Opcode) :=
  all.flatMap fun op => (op.mnemonic :: op.alias?.toList).map (·, op)

/-- The instruction a debugger prints as `name`. -/
def ofMnemonic? (name : String) : Option Opcode := spellings.lookup name

theorem mem_spellings_of_ofMnemonic? {name : String} {op : Opcode}
    (h : ofMnemonic? name = some op) : (name, op) ∈ spellings := by
  obtain ⟨before, after, hsplit, -⟩ := List.lookup_eq_some_iff.mp h
  rw [hsplit]
  exact List.mem_append_right before (List.mem_cons_self ..)

/-- Every byte that encodes an instruction, with that instruction. -/
def codes : List (UInt8 × Opcode) := all.map fun op => (op.code, op)

/-- The instruction encoded by a byte. -/
def ofCode? (byte : UInt8) : Option Opcode := codes.lookup byte

/-- The number of immediate bytes that follow the instruction in code. -/
def immediateWidth : Opcode → Nat
  | push width => width.val
  | _ => 0

/-- Instructions that open the frame of a message call. -/
def isCall : Opcode → Bool
  | call | callCode | delegateCall | staticCall => true
  | _ => false

/-- Instructions that open the frame of a contract creation. -/
def isCreate : Opcode → Bool
  | create | create2 => true
  | _ => false

def stackEffect : Opcode → StackEffect
  | stop | jumpDest => .fixed 0 0 false
  | add | mul | sub | div | sdiv | mod | smod | exp | signExtend | and | or | xor | byte | shl | shr
  | sar => .fixed 2 1 true
  | addmod | mulmod => .fixed 3 1 true
  | not => .fixed 1 1 true
  | lt | gt | slt | sgt | eq => .fixed 2 1 false
  | isZero => .fixed 1 1 false
  | sha3 => .hash
  | address | origin | caller | callValue | callDataSize | codeSize | gasPrice | returnDataSize
  | coinbase | timestamp | number | difficulty | gasLimit | chainId | selfBalance | baseFee
  | blobBaseFee | pc | msize | gas => .fixed 0 1 false
  | balance | callDataLoad | extCodeSize | blockHash | blobHash | mload | sload | tload =>
    .fixed 1 1 false
  | callDataCopy | codeCopy | returnDataCopy | mcopy => .fixed 3 0 false
  | extCodeCopy => .fixed 4 0 false
  | pop | jump | selfDestruct => .fixed 1 0 false
  | mstore | mstore8 | sstore | tstore | jumpi | ret | revert => .fixed 2 0 false
  | create => .fixed 3 1 false
  | call | callCode => .fixed 7 1 false
  | delegateCall | staticCall => .fixed 6 1 false
  | push width => .push width.val
  | dup below => .dup (below.val + 1)
  | swap below => .swap (below.val + 1)
  | log topics => .log topics.val
  | extCodeHash | create2 | invalid => .unmodelled

end Opcode

end TraceGloss
