import Mathlib.Data.Set.Card
import TraceGloss.Proofs.Source.Table

/-
  The instructions of code, and the entries of a source map.
  `disassemble` cuts code into its instructions, each a byte with the immediate bytes of a PUSH behind
  it; no byte is lost (`flatten_disassemble`). The walk that builds the table of program counters stops
  at the starts of these instructions (`startsAt_iff`), so a mapped program counter is never one of an
  immediate byte, and the table has a row for each instruction whose entry names a file with content
  (`compile_eq`).
-/
namespace TraceGloss

namespace Code

/-- The number of immediate bytes behind a byte of code: `n` behind PUSHn, none behind any other byte,
known or not. -/
def immediates (byte : UInt8) : Nat :=
  if 0x5f ≤ byte ∧ byte ≤ 0x7f then byte.toNat - 0x5f else 0

/-- The instructions of code in order, as their bytes. The last one may lack immediate bytes. -/
def disassemble (code : List UInt8) : List (List UInt8) :=
  match code with
  | [] => []
  | byte :: rest =>
    (byte :: rest.take (immediates byte)) :: disassemble (rest.drop (immediates byte))
termination_by code.length
decreasing_by simp only [List.length_drop, List.length_cons]; omega

theorem flatten_disassemble (code : List UInt8) : (disassemble code).flatten = code := by
  fun_induction disassemble code with
  | case1 => rfl
  | case2 byte rest ih =>
    rw [List.flatten_cons, ih, List.cons_append, List.take_append_drop]

example : disassemble [0x5b, 0x0c, 0x62, 0x5b] = [[0x5b], [0x0c], [0x62, 0x5b]] := by cbv

theorem disassemble_eq_nil_iff {code : List UInt8} : disassemble code = [] ↔ code = [] := by
  cases code with
  | nil => simp [disassemble]
  | cons byte rest => simp [disassemble]

/-- Instruction `i` of the code starts at byte `pc`. -/
def StartsAt (code : List UInt8) (i pc : Nat) : Prop :=
  i < (disassemble code).length ∧ ((disassemble code).take i).flatten.length = pc

/-- Byte `pc` of the code is an immediate byte of some instruction. -/
def IsImmediate (code : List UInt8) (pc : Nat) : Prop :=
  ∃ i start bytes, (disassemble code)[i]? = some bytes ∧ StartsAt code i start ∧
    start < pc ∧ pc < start + bytes.length

end Code

namespace Materials

open Code

/-- The immediate bytes of an instruction can be told from its own byte. -/
theorem immediateWidth_eq (op : Opcode) : op.immediateWidth = immediates op.code := by
  cases op with
  | push width =>
    have all : ∀ width : Fin 33, width.val = immediates (Opcode.push width).code := by decide
    exact all width
  | dup below =>
    have all : ∀ below : Fin 16, 0 = immediates (Opcode.dup below).code := by decide
    exact all below
  | swap below =>
    have all : ∀ below : Fin 16, 0 = immediates (Opcode.swap below).code := by decide
    exact all below
  | log topics =>
    have all : ∀ topics : Fin 5, 0 = immediates (Opcode.log topics).code := by decide
    exact all topics
  | _ => rfl

theorem code_of_ofCode? {byte : UInt8} {op : Opcode} (h : Opcode.ofCode? byte = some op) :
    op.code = byte := by
  obtain ⟨before, after, hsplit, -⟩ := List.lookup_eq_some_iff.mp h
  have hmem : (byte, op) ∈ Opcode.codes := by rw [hsplit]; simp
  obtain ⟨op', -, heq⟩ := List.mem_map.mp hmem
  obtain ⟨hcode, rfl⟩ := Prod.mk.inj heq
  exact hcode

/-- A byte that encodes nothing has no immediate bytes, since every PUSH encodes something. -/
theorem immediates_of_ofCode?_eq_none {byte : UInt8} (h : Opcode.ofCode? byte = none) :
    immediates byte = 0 := by
  unfold immediates
  by_cases hpush : 0x5f ≤ byte ∧ byte ≤ 0x7f
  · have hlow : 95 ≤ byte.toNat := UInt8.le_iff_toNat_le.mp hpush.1
    have hhigh : byte.toNat ≤ 127 := UInt8.le_iff_toNat_le.mp hpush.2
    have hwidth : byte.toNat - 95 < 33 := by omega
    have hmem : Opcode.push ⟨byte.toNat - 95, hwidth⟩ ∈ Opcode.all := by simp [Opcode.all]
    have hcode : (Opcode.push ⟨byte.toNat - 95, hwidth⟩).code = byte := by
      apply UInt8.toNat_inj.mp
      show (95 + (byte.toNat - 95) % 256) % 256 = byte.toNat
      omega
    have hnone := List.lookup_eq_none_iff.mp h _ (List.mem_map_of_mem hmem)
    simp [hcode] at hnone
  · exact if_neg hpush

theorem instructionWidth_eq (byte : UInt8) : instructionWidth byte = 1 + immediates byte := by
  unfold instructionWidth
  cases h : Opcode.ofCode? byte with
  | some op => rw [← code_of_ofCode? h, ← immediateWidth_eq]
  | none => rw [immediates_of_ofCode?_eq_none h]

/-- What is left at the start of instruction `n` are the instructions from the `n`-th on. -/
theorem disassemble_drop (code : List UInt8) (n : Nat) :
    disassemble (code.drop (instructionStart code n)) = (disassemble code).drop n := by
  induction n with
  | zero => rfl
  | succ n ih =>
    rw [← List.drop_drop, ← ih, instructionStart]
    by_cases h : instructionStart code n < code.length
    · rw [List.getElem?_eq_getElem h, Option.map_some, Option.getD_some, instructionWidth_eq,
        List.drop_eq_getElem_cons h, disassemble, List.drop_one, List.tail_cons, List.drop_drop,
        Nat.add_assoc]
    · have hle := Nat.le_of_not_lt h
      have hnone : disassemble [] = [] := disassemble_eq_nil_iff.mpr rfl
      rw [List.drop_eq_nil_of_le hle, List.drop_eq_nil_of_le (by omega), hnone, List.drop_nil]

theorem lt_length_disassemble_iff {code : List UInt8} {n : Nat} :
    n < (disassemble code).length ↔ instructionStart code n < code.length := by
  rw [← Nat.not_le, ← Nat.not_le, ← List.drop_eq_nil_iff, ← List.drop_eq_nil_iff,
    ← disassemble_drop, disassemble_eq_nil_iff]

theorem length_flatten_take_disassemble (code : List UInt8) (n : Nat) :
    ((disassemble code).take n).flatten.length = min (instructionStart code n) code.length := by
  have hsplit := congrArg List.length (flatten_disassemble code)
  rw [← List.take_append_drop n (disassemble code), List.flatten_append, ← disassemble_drop,
    flatten_disassemble, List.length_append, List.length_drop] at hsplit
  omega

theorem startsAt_iff {code : List UInt8} {i pc : Nat} :
    StartsAt code i pc ↔ instructionStart code i = pc ∧ pc < code.length := by
  rw [StartsAt, lt_length_disassemble_iff, length_flatten_take_disassemble]
  omega

/-- An instruction starts at none of the immediate bytes. -/
theorem not_isImmediate_of_startsAt {code : List UInt8} {i pc : Nat} (h : StartsAt code i pc) :
    ¬ IsImmediate code pc := by
  rintro ⟨j, start, bytes, hbytes, hstart, hbehind, hinside⟩
  obtain ⟨hpc, -⟩ := startsAt_iff.mp h
  obtain ⟨hstart', -⟩ := startsAt_iff.mp hstart
  have hnext : ((disassemble code).take (j + 1)).flatten.length = start + bytes.length := by
    rw [List.take_add_one, hbytes, List.flatten_append, List.length_append, hstart.2]
    simp
  rw [length_flatten_take_disassemble] at hnext
  have hmono := strictMono_instructionStart code
  have hlow : j < i := hmono.lt_iff_lt.mp (by omega)
  have hhigh : i < j + 1 := hmono.lt_iff_lt.mp (by omega)
  omega

/-- Entry `i` of a source map gives a program counter its range: instruction `i` of the code starts
there, and the entry names a file with content. The range is between the positions of the entry's byte
offsets in that file. -/
def Maps (code : List UInt8) (files : List SourceFile) (entries : List SourceEntry) (i pc : Nat)
    (range : SourceRange) : Prop :=
  StartsAt code i pc ∧ ∃ (entry : SourceEntry) (k : Nat) (file : SourceFile),
    entries[i]? = some entry ∧ entry.file = k ∧ files[k]? = some file ∧ file.content ≠ "" ∧
      range = ⟨file.path, Text.locate file.content.toList entry.offset,
        Text.locate file.content.toList (entry.offset + entry.length)⟩

section Maps

variable {code : List UInt8} {files : List SourceFile} {entries : List SourceEntry} {i pc : Nat}
  {range : SourceRange}

theorem maps_iff :
    Maps code files entries i pc range ↔
      ∃ entry, entries[i]? = some entry ∧ row? files code (entry, i) = some (pc, range) := by
  simp only [Maps, startsAt_iff, row?_eq_some_iff, rangeOf?_eq_some_iff]
  constructor
  · rintro ⟨⟨hpc, hlt⟩, entry, k, file, hentry, hfile⟩
    exact ⟨entry, hentry, hpc, hlt, k, file, hfile⟩
  · rintro ⟨entry, hentry, hpc, hlt, k, file, hfile⟩
    exact ⟨⟨hpc, hlt⟩, entry, k, file, hentry, hfile⟩

/-- The entries that give a program counter a range are as many as the rows of the table. -/
theorem ncard_maps (code : List UInt8) (files : List SourceFile) (entries : List SourceEntry) :
    {i | ∃ pc range, Maps code files entries i pc range}.ncard =
      (mapEntries files 0 code entries).length := by
  let numbers := (entries.zipIdx.filter fun e => (row? files code e).isSome).map (·.2)
  have hnodup : numbers.Nodup := by
    refine List.Nodup.sublist (List.filter_sublist.map _) ?_
    rw [List.zipIdx_map_snd]
    exact List.nodup_range'
  have hnumbers : {i | ∃ pc range, Maps code files entries i pc range} = numbers.toFinset := by
    ext i
    simp only [Set.mem_ofPred_eq, maps_iff, List.coe_toFinset, numbers, List.mem_map,
      List.mem_filter]
    constructor
    · rintro ⟨pc, range, entry, hentry, hrow⟩
      exact ⟨(entry, i), ⟨List.mem_zipIdx_iff_getElem?.mpr hentry, by rw [hrow]; rfl⟩, rfl⟩
    · rintro ⟨⟨entry, i⟩, ⟨hmem, hsome⟩, rfl⟩
      obtain ⟨⟨pc, range⟩, hrow⟩ := Option.isSome_iff_exists.mp hsome
      exact ⟨pc, range, entry, List.mem_zipIdx_iff_getElem?.mp hmem, hrow⟩
  rw [hnumbers, Set.ncard_coe_finset, List.toFinset_card_of_nodup hnodup, List.length_map,
    mapEntries_zero_eq, List.length_filterMap_eq_countP, List.countP_eq_length_filter]

/-- Entries and instructions are paired by their numbers. A program counter is mapped exactly when it
starts an instruction whose entry names a file with content, so it is never one of an immediate byte,
and there are as many as there are such entries. A source map that does not parse is the only failure.
-/
theorem compile_pairs (code : List UInt8) (sourceMap : String) (files : List SourceFile) :
    match SourceMap.parse sourceMap with
    | .error e => compile code sourceMap files = .error e
    | .ok entries =>
      ∃ m, compile code sourceMap files = .ok m ∧
        (∀ pc range, m.range? pc = some range ↔ ∃ i, Maps code files entries i pc range) ∧
        (∀ pc, (m.range? pc).isSome → ¬ IsImmediate code pc) ∧
        m.mapped = {i | ∃ pc range, Maps code files entries i pc range}.ncard := by
  cases hparse : SourceMap.parse sourceMap with
  | error e =>
    rw [compile, hparse]
    rfl
  | ok entries =>
    obtain ⟨m, hm⟩ := compile_of_parse hparse code files
    have hmaps : ∀ pc range,
        m.range? pc = some range ↔ ∃ i, Maps code files entries i pc range := by
      intro pc range
      rw [range?_compile hparse hm]
      simp only [maps_iff, row?_eq_some_iff]
    refine ⟨m, hm, hmaps, ?_, ?_⟩
    · intro pc hsome
      obtain ⟨range, hrange⟩ := Option.isSome_iff_exists.mp hsome
      obtain ⟨i, hstarts, -⟩ := (hmaps pc range).mp hrange
      exact not_isImmediate_of_startsAt hstarts
    · rw [compile, hparse] at hm
      rw [ncard_maps, ← size_foldl_insert (nodup_mapEntries files code entries),
        ← Except.ok.inj hm]
      rfl

end Maps

end Materials

end TraceGloss
