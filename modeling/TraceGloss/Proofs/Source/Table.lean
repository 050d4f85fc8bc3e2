import Mathlib.Order.Monotone.Basic
import TraceGloss.Source.Materials

/-
  The table of program counters.
  The instructions of code start at increasing program counters (`strictMono_instructionStart`), so no
  entry of a source map takes the place of another in the table. It maps the start of instruction `i`
  to the range of entry `i`, and nothing else (`range?_compile`). Of files with distinct paths it holds
  the lines of each (`lines?_compile`).
-/
namespace TraceGloss

section Table

variable {α β : Type} [BEq α] [Hashable α]

theorem foldl_insert_eq (rows : List (α × β)) (found : Std.HashMap α β) :
    rows.foldl (fun found e => found.insert e.1 e.2) found = found.insertMany rows := by
  induction rows generalizing found with
  | nil => rw [List.foldl_nil, Std.HashMap.insertMany_nil]
  | cons row rows ih => rw [List.foldl_cons, ih, Std.HashMap.insertMany_cons]

omit [Hashable α] in
theorem pairwise_beq_of_nodup [LawfulBEq α] {rows : List (α × β)}
    (hkeys : (rows.map (·.1)).Nodup) : rows.Pairwise fun a b => (a.1 == b.1) = false :=
  (List.pairwise_map.mp hkeys).imp fun hne => beq_false_of_ne hne

/-- A table of rows with distinct keys holds these rows. -/
theorem getElem?_foldl_insert [LawfulBEq α] {rows : List (α × β)}
    (hkeys : (rows.map (·.1)).Nodup) {k : α} {v : β} :
    (rows.foldl (fun found e => found.insert e.1 e.2) (∅ : Std.HashMap α β))[k]? = some v ↔
      (k, v) ∈ rows := by
  rw [foldl_insert_eq]
  have hrows := pairwise_beq_of_nodup hkeys
  have hfound {w : β} (hmem : (k, w) ∈ rows) :
      ((∅ : Std.HashMap α β).insertMany rows)[k]? = some w :=
    Std.HashMap.getElem?_insertMany_list_of_mem BEq.rfl hrows hmem
  constructor
  · intro h
    by_cases hmem : k ∈ rows.map (·.1)
    · obtain ⟨⟨_, w⟩, hrow, rfl⟩ := List.mem_map.mp hmem
      rw [hfound hrow] at h
      rwa [← Option.some.inj h]
    · rw [Std.HashMap.getElem?_insertMany_list_of_contains_eq_false (by simpa using hmem),
        Std.HashMap.getElem?_empty] at h
      exact nomatch h
  · exact hfound

theorem size_foldl_insert [LawfulBEq α] {rows : List (α × β)}
    (hkeys : (rows.map (·.1)).Nodup) :
    (rows.foldl (fun found e => found.insert e.1 e.2) (∅ : Std.HashMap α β)).size =
      rows.length := by
  have hnone : ∀ a ∈ (∅ : Std.HashMap α β), (rows.map Prod.fst).contains a = false :=
    fun a ha => absurd ha Std.HashMap.not_mem_empty
  rw [foldl_insert_eq, Std.HashMap.size_insertMany_list (pairwise_beq_of_nodup hkeys) hnone,
    Std.HashMap.size_empty, Nat.zero_add]

end Table

namespace Materials

/-- The program counter of an instruction of code, counted from zero; behind the end of the code every
byte counts as an instruction. -/
def instructionStart (code : List UInt8) : Nat → Nat
  | 0 => 0
  | i + 1 =>
    let pc := instructionStart code i
    pc + (code[pc]?.map instructionWidth).getD 1

theorem instructionWidth_pos (byte : UInt8) : 0 < instructionWidth byte := by
  unfold instructionWidth
  split <;> omega

theorem strictMono_instructionStart (code : List UInt8) : StrictMono (instructionStart code) := by
  refine strictMono_nat_of_lt_succ fun i => ?_
  rw [instructionStart]
  cases code[instructionStart code i]? with
  | none => exact Nat.lt_succ_self _
  | some byte => exact Nat.lt_add_of_pos_right (instructionWidth_pos byte)

/-- The row of the table that an entry and its number give, if any. -/
def row? (files : List SourceFile) (code : List UInt8) (e : SourceEntry × Nat) :
    Option (Nat × SourceRange) :=
  if instructionStart code e.2 < code.length then
    (rangeOf? files e.1).map (instructionStart code e.2, ·)
  else none

theorem row?_eq_some_iff {files : List SourceFile} {code : List UInt8} {e : SourceEntry × Nat}
    {pc : Nat} {range : SourceRange} :
    row? files code e = some (pc, range) ↔
      instructionStart code e.2 = pc ∧ pc < code.length ∧ rangeOf? files e.1 = some range := by
  unfold row?
  by_cases h : instructionStart code e.2 < code.length
  · rw [if_pos h, Option.map_eq_some_iff]
    constructor
    · rintro ⟨range, hrange, heq⟩
      obtain ⟨rfl, rfl⟩ := Prod.mk.inj heq
      exact ⟨rfl, h, hrange⟩
    · rintro ⟨rfl, -, hrange⟩
      exact ⟨range, hrange, rfl⟩
  · rw [if_neg h]
    constructor
    · exact nofun
    · rintro ⟨rfl, hlt, -⟩
      exact absurd hlt h

/-- Walking through code and entries together pairs each instruction with the entry of its number. -/
theorem mapEntries_eq (files : List SourceFile) (code : List UInt8) (entries : List SourceEntry)
    (n : Nat) :
    mapEntries files (instructionStart code n) (code.drop (instructionStart code n)) entries =
      (entries.zipIdx n).filterMap (row? files code) := by
  induction entries generalizing n with
  | nil => rfl
  | cons entry rest ih =>
    rw [List.zipIdx_cons, List.filterMap_cons]
    by_cases h : instructionStart code n < code.length
    · have hnext : instructionStart code (n + 1) =
          instructionStart code n + instructionWidth code[instructionStart code n] := by
        rw [instructionStart, List.getElem?_eq_getElem h]
        rfl
      rw [List.drop_eq_getElem_cons h, mapEntries, ← List.drop_eq_getElem_cons h, List.drop_drop,
        ← hnext, ih (n + 1), row?, if_pos h]
      cases rangeOf? files entry <;> rfl
    · -- the code has ended, so no later instruction is inside it either
      have hrest : ∀ e ∈ rest.zipIdx (n + 1), row? files code e = none := by
        intro e he
        have hlt : n < e.2 := List.le_snd_of_mem_zipIdx he
        have := strictMono_instructionStart code hlt
        exact if_neg (by omega)
      rw [List.drop_eq_nil_of_le (Nat.le_of_not_lt h), mapEntries, row?, if_neg h,
        List.filterMap_eq_nil_iff.mpr hrest]

theorem mapEntries_zero_eq (files : List SourceFile) (code : List UInt8)
    (entries : List SourceEntry) :
    mapEntries files 0 code entries = entries.zipIdx.filterMap (row? files code) :=
  mapEntries_eq files code entries 0

/-- The program counters of the rows are distinct. -/
theorem nodup_mapEntries (files : List SourceFile) (code : List UInt8) (entries : List SourceEntry) :
    ((mapEntries files 0 code entries).map (·.1)).Nodup := by
  rw [mapEntries_zero_eq, List.Nodup, List.pairwise_map, List.pairwise_filterMap]
  have hnumbers : (entries.zipIdx.map (·.2)).Pairwise (· < ·) := by
    rw [List.zipIdx_map_snd]
    exact List.pairwise_lt_range'
  refine (List.pairwise_map.mp hnumbers).imp fun {e e'} hlt => ?_
  rintro ⟨pc, _⟩ hrow ⟨pc', _⟩ hrow'
  rw [← (row?_eq_some_iff.mp hrow).1, ← (row?_eq_some_iff.mp hrow').1]
  exact (strictMono_instructionStart code hlt).ne

/-- The program counters that have a range are the starts of the instructions whose entry has one. -/
theorem range?_compile {code : List UInt8} {sourceMap : String} {files : List SourceFile}
    {entries : List SourceEntry} {m : Materials} (hparse : SourceMap.parse sourceMap = .ok entries)
    (hm : compile code sourceMap files = .ok m) {pc : Nat} {range : SourceRange} :
    m.range? pc = some range ↔
      ∃ i entry, entries[i]? = some entry ∧ instructionStart code i = pc ∧ pc < code.length ∧
        rangeOf? files entry = some range := by
  rw [compile, hparse] at hm
  rw [← Except.ok.inj hm]
  show (List.foldl _ _ _)[pc]? = some range ↔ _
  rw [getElem?_foldl_insert (nodup_mapEntries files code entries), mapEntries_zero_eq,
    List.mem_filterMap]
  constructor
  · rintro ⟨⟨entry, i⟩, hmem, hrow⟩
    exact ⟨i, entry, List.mem_zipIdx_iff_getElem?.mp hmem, row?_eq_some_iff.mp hrow⟩
  · rintro ⟨i, entry, hentry, hrow⟩
    exact ⟨(entry, i), List.mem_zipIdx_iff_getElem?.mpr hentry, row?_eq_some_iff.mpr hrow⟩

theorem compile_of_parse {sourceMap : String} {entries : List SourceEntry}
    (hparse : SourceMap.parse sourceMap = .ok entries) (code : List UInt8) (files : List SourceFile) :
    ∃ m, compile code sourceMap files = .ok m := by
  rw [compile, hparse]
  exact ⟨_, rfl⟩

/-- Of files with distinct paths the lines of each are held. -/
theorem lines?_compile {code : List UInt8} {sourceMap : String} {files : List SourceFile}
    {m : Materials} (hm : compile code sourceMap files = .ok m)
    (hpaths : (files.map (·.path)).Nodup) {file : SourceFile} (hfile : file ∈ files) :
    m.lines? file.path = some ((Text.lines file.content.toList).map String.ofList) := by
  rw [compile] at hm
  cases hparse : SourceMap.parse sourceMap with
  | error e =>
    rw [hparse] at hm
    exact nomatch hm
  | ok entries =>
    rw [hparse] at hm
    rw [← Except.ok.inj hm]
    show (linesOf files)[file.path]? = _
    let rows := files.map fun file => (file.path, (Text.lines file.content.toList).map String.ofList)
    have hrows : linesOf files = rows.foldl (fun found e => found.insert e.1 e.2) ∅ := by
      rw [List.foldl_map]
      rfl
    have hkeys : (rows.map (·.1)).Nodup := by
      rw [List.map_map]
      exact hpaths
    rw [hrows, getElem?_foldl_insert hkeys]
    exact List.mem_map_of_mem hfile

/-- An entry has a range when it names a file with content. -/
theorem rangeOf?_eq_some_iff {files : List SourceFile} {entry : SourceEntry} {range : SourceRange} :
    rangeOf? files entry = some range ↔
      ∃ (k : Nat) (file : SourceFile), entry.file = k ∧ files[k]? = some file ∧
        file.content ≠ "" ∧
        range = ⟨file.path, Text.locate file.content.toList entry.offset,
          Text.locate file.content.toList (entry.offset + entry.length)⟩ := by
  constructor
  · intro h
    unfold rangeOf? at h
    split at h
    · exact nomatch h
    · rename_i k hk
      split at h
      · exact nomatch h
      · rename_i file hfile
        split at h
        · exact nomatch h
        · rename_i hsome
          exact ⟨k, file, hk, hfile, fun hempty => hsome (String.isEmpty_iff.mpr hempty),
            (Option.some.inj h).symm⟩
  · rintro ⟨k, file, hk, hfile, hsome, rfl⟩
    have hsome' : ¬ file.content.isEmpty = true := fun hempty => hsome (String.isEmpty_iff.mp hempty)
    rw [rangeOf?, hk]
    dsimp only
    rw [hfile]
    exact if_neg hsome'

end Materials

end TraceGloss
