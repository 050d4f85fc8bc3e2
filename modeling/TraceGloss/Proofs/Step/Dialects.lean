import TraceGloss.Proofs.Json.Respelling
import TraceGloss.Proofs.Step.RoundTrip
import TraceGloss.Proofs.Text.Quantity

/-
  One trace in the dialects of debuggers.
  A quantity is a number or text that spells it, a word has as many leading zeros as fit into its
  slot, and a column may be left out where it holds nothing. `Step.Respelled` and `RawTrace.Respelled`
  say so of the columns of a step and of a trace, as many at once as one likes. The reader of each
  column respects its relation, so a step is read as the same step (`Step.respects_read`) and with its
  steps a trace as the same trace (`RawTrace.readBare_respelled`), and texts of such traces too
  (`RawTrace.reads_dialects`).
-/
namespace TraceGloss

open Json

/-! ## Quantities -/

/-- The value is a quantity of the number. -/
def IsQuantity (n : Nat) (value : Json) : Prop :=
  value = .natural n ∨ ∃ text, value = .string text ∧ Digits.Spells text n

/-- Two quantities of one number. -/
def SameQuantity (value value' : Json) : Prop := ∃ n, IsQuantity n value ∧ IsQuantity n value'

theorem IsQuantity.unique {n m : Nat} {value : Json} (h : IsQuantity n value)
    (h' : IsQuantity m value) : n = m := by
  rcases h with rfl | ⟨text, rfl, hspells⟩
  · rcases h' with heq | ⟨_, heq, -⟩
    · exact Json.natural.inj heq
    · cases heq
  · rcases h' with heq | ⟨_, heq, hspells'⟩
    · cases heq
    · cases heq
      exact hspells.number_eq.symm.trans hspells'.number_eq

theorem readQuantity_eq_ok_iff {value : Json} {n : UInt64} :
    readQuantity value = .ok n ↔ IsQuantity n.toNat value := by
  cases value with
  | natural m =>
    constructor
    · intro h
      rw [readQuantity, readUInt64] at h
      split at h
      · rename_i hm
        cases h
        exact .inl (by rw [UInt64.toNat_ofNat_of_lt' hm])
      · cases h
    · rintro (heq | ⟨text, heq, -⟩)
      · rw [heq]
        exact readUInt64_natural n
      · cases heq
  | string text =>
    constructor
    · intro h
      rw [readQuantity] at h
      split at h
      · rename_i hquantity
        cases h
        exact .inr ⟨text, rfl, Digits.quantity_eq_ok_iff.mp hquantity⟩
      · cases h
    · rintro (heq | ⟨_, heq, hspells⟩)
      · cases heq
      · cases heq
        rw [readQuantity, Digits.quantity_eq_ok_iff.mpr hspells]
  | null | bool _ | decimal _ | array _ | object _ _ | fault _ =>
    refine ⟨fun h => ?_, fun h => ?_⟩
    · unfold readQuantity at h
      dsimp only at h
      split at h <;> cases h
    · rcases h with heq | ⟨_, heq, -⟩ <;> cases heq

theorem respects_readQuantity : Respects SameQuantity readQuantity := by
  rintro value value' n ⟨m, hm, hm'⟩ hread
  rw [readQuantity_eq_ok_iff] at hread ⊢
  rwa [hread.unique hm]

theorem keepsReadable_sameQuantity : KeepsReadable SameQuantity := by
  rintro value _ ⟨n, -, rfl | ⟨text, rfl, -⟩⟩ - <;> rfl

/-! ## Words -/

namespace Word

/-- A text of no more digits than a slot has. -/
structure IsSlotText (text : String) : Prop where
  length_le : (Hex.digitsOf text).length ≤ 2 * slotBytes
  digits : ∀ c ∈ Hex.digitsOf text, Hex.IsDigit c

instance : DecidablePred IsSlotText := fun text =>
  decidable_of_iff
    ((Hex.digitsOf text).length ≤ 2 * slotBytes ∧ (Hex.digitsOf text).all (Hex.IsDigit ·) = true)
    ⟨fun ⟨h, h'⟩ => ⟨h, by simpa using h'⟩, fun ⟨h, h'⟩ => ⟨h, by simpa using h'⟩⟩

/-- Two texts of one word: they are equal, or they denote one number in digits of a slot. -/
def SameText (text text' : String) : Prop :=
  text = text' ∨ IsSlotText text ∧ IsSlotText text' ∧
    Hex.number (Hex.digitsOf text) = Hex.number (Hex.digitsOf text')

theorem parse_of_sameText {text text' : String} {w : Word} (h : SameText text text')
    (hparse : parse text = .ok w) : parse text' = .ok w := by
  rcases h with rfl | ⟨hslot, hslot', hnumber⟩
  · exact hparse
  · obtain ⟨w', hparse'⟩ := (exists_parse_iff text').mpr hslot'.digits
    have hlength : w.bytes.length = w'.bytes.length := by
      rw [length_of_parse hparse, length_of_parse hparse']
      have hshort := hslot.length_le
      have hshort' := hslot'.length_le
      omega
    have hvalue : w.value = w'.value := by
      rw [value_of_parse hparse, value_of_parse hparse', hnumber]
    rw [hparse', (eq_iff_value_eq hlength).mpr hvalue]

/-- Two values that are texts of one word. -/
def SameValue (value value' : Json) : Prop :=
  ∃ text text', value = .string text ∧ value' = .string text' ∧ SameText text text'

theorem hexKey_of_sameText {text text' : String} {w : Word} (h : SameText text text')
    (hread : hexKey parse text = .ok w) : hexKey parse text' = .ok w := by
  unfold hexKey at hread ⊢
  split at hread
  · rename_i hparse
    cases hread
    rw [parse_of_sameText h hparse]
  · cases hread

theorem respects_readWord : Respects SameValue readWord := by
  rintro _ _ w ⟨text, text', rfl, rfl, hsame⟩ hread
  exact hexKey_of_sameText hsame hread

theorem keepsReadable_sameValue : KeepsReadable SameValue := by
  rintro _ _ ⟨text, text', rfl, rfl, -⟩ -
  rfl

end Word

/-! ## Steps -/

namespace Step

/-- The columns of a step, each with the part of the draft that it is read into. -/
def parts : List (PartField Draft) :=
  [⟨"depth", readUInt32, Draft.depth, fun d v => { d with depth := some v }⟩,
    ⟨"op", readString, Draft.op, fun d v => { d with op := some v }⟩,
    ⟨"pc", readUInt64, Draft.pc, fun d v => { d with pc := some v }⟩,
    ⟨"gas", readQuantity, Draft.gas, fun d v => { d with gas := some v }⟩,
    ⟨"gasCost", readQuantity, Draft.gasCost, fun d v => { d with gasCost := some v }⟩,
    ⟨"stack", readOption (readList readWord), Draft.stack, fun d v => { d with stack := some v }⟩,
    ⟨"memory", readOption (readList readWord), Draft.memory,
      fun d v => { d with memory := some v }⟩,
    ⟨"storage", readOption (readTable (hexKey Word.parse) readWord), Draft.storage,
      fun d v => { d with storage := some v }⟩,
    ⟨"error", readOption readString, Draft.error, fun d v => { d with error := some v }⟩]

theorem fields_eq : fields = parts.map (·.field) := rfl

theorem separate_parts : Separate parts where
  nodup := by decide
  get_set := by simp [parts]
  spare := by simp [parts, PartField.Spare]
  ext := by
    rintro ⟨⟩ ⟨⟩ h
    simpa [parts] using h

/-- The keys of a step that are read. -/
def columns : List String := fields.map (·.name)

/-- Two lists of words in the spelling of different debuggers. -/
def SameWords : Json → Json → Prop := SameItems Word.SameValue

/-- Two storage tables in the spelling of different debuggers. -/
def SameStorage : Json → Json → Prop :=
  SameObject (List.Forall₂ (SameEntry Word.SameText Word.SameValue))

/-- Two steps that differ in the spelling of quantities and words, in columns that hold nothing and in
members with other keys, of which those of the second satisfy `extra`. -/
structure Respelled (extra : Json → Prop) (members members' : List (String × Json)) : Prop where
  depth : valuesOf "depth" members = valuesOf "depth" members'
  op : valuesOf "op" members = valuesOf "op" members'
  pc : valuesOf "pc" members = valuesOf "pc" members'
  gas : List.Forall₂ SameQuantity (valuesOf "gas" members) (valuesOf "gas" members')
  gasCost : List.Forall₂ SameQuantity (valuesOf "gasCost" members) (valuesOf "gasCost" members')
  stack : SameColumn [.null, .array []] SameWords (valuesOf "stack" members)
    (valuesOf "stack" members')
  memory : SameColumn [.null] SameWords (valuesOf "memory" members) (valuesOf "memory" members')
  storage : SameColumn [.null, record []] SameStorage (valuesOf "storage" members)
    (valuesOf "storage" members')
  error : SameColumn [.null] Eq (valuesOf "error" members) (valuesOf "error" members')
  extras : ∀ m ∈ members', m.1 ∉ columns → extra m.2

theorem respects_words : Respects SameWords (readOption (readList readWord)) := by
  refine Word.respects_readWord.list.option ?_
  rintro _ _ ⟨items, items', rfl, rfl, -⟩
  exact ⟨nofun, nofun⟩

theorem respects_storage :
    Respects SameStorage (readOption (readTable (hexKey Word.parse) readWord)) := by
  refine Respects.option (Word.respects_readWord.table fun _ _ _ => Word.hexKey_of_sameText) ?_
  rintro _ _ ⟨members, members', rfl, rfl, -⟩
  exact ⟨nofun, nofun⟩

theorem blank_words : ∀ value ∈ [Json.null, .array []],
    ∃ found, readOption (readList readWord) value = .ok found ∧
      ((some found).getD none).getD [] = [] :=
  List.forall_mem_cons.mpr ⟨⟨none, rfl, rfl⟩, List.forall_mem_singleton.mpr ⟨some [], rfl, rfl⟩⟩

theorem blank_storage : ∀ value ∈ [Json.null, record []],
    ∃ found, readOption (readTable (hexKey Word.parse) readWord) value = .ok found ∧
      ((some found).getD none).getD Table.empty = Table.empty :=
  List.forall_mem_cons.mpr
    ⟨⟨none, rfl, rfl⟩, List.forall_mem_singleton.mpr ⟨some Table.empty, rfl, rfl⟩⟩

theorem blank_option {α : Type} {read : Json → Read α} : ∀ value ∈ [Json.null],
    ∃ found, readOption read value = .ok found ∧ (some found).getD none = none :=
  List.forall_mem_singleton.mpr ⟨none, rfl, rfl⟩

section Respelled

variable {extra : Json → Prop} {members members' : List (String × Json)}
  (hsame : Respelled extra members members')
include hsame

/-- A step is read as the same step in other words. -/
theorem read_respelled (hextra : ∀ value, extra value → value.intact = true) {manner : Manner}
    {s : Step} (h : read manner (record members) = .ok s) :
    read manner (record members') = .ok s := by
  unfold read at h ⊢
  rw [fields_eq, separate_parts.readRecord_eq_ok_iff] at h ⊢
  obtain ⟨draft, -, hfills, hfinish⟩ := h
  simp only [parts, List.forall_mem_cons] at hfills ⊢
  obtain ⟨hdepth, hop, hpc, hgas, hgasCost, hstack, hmemory, hstorage, herror, -⟩ := hfills
  obtain ⟨stack, hstack', hsameStack⟩ := respects_words.fills_column
    (fun found => (found.getD none).getD []) blank_words hsame.stack hstack
  obtain ⟨memory, hmemory', hsameMemory⟩ := respects_words.fills_column
    (fun found => found.getD none) blank_option hsame.memory hmemory
  obtain ⟨storage, hstorage', hsameStorage⟩ := respects_storage.fills_column
    (fun found => (found.getD none).getD Table.empty) blank_storage hsame.storage hstorage
  obtain ⟨error, herror', hsameError⟩ := (respects_eq (readOption readString)).fills_column
    (fun found => found.getD none) blank_option hsame.error herror
  rw [hsame.depth] at hdepth
  rw [hsame.op] at hop
  rw [hsame.pc] at hpc
  refine ⟨{ draft with stack, memory, storage, error }, ?_, ?_, ?_⟩
  · exact fun m hm hkey => hextra m.2 (hsame.extras m hm hkey)
  · exact ⟨hdepth, hop, hpc, respects_readQuantity.fills hsame.gas hgas,
      respects_readQuantity.fills hsame.gasCost hgasCost, hstack', hmemory', hstorage', herror',
      List.forall_mem_nil _⟩
  · rw [← hfinish]
    unfold ofDraft
    rw [hsameStack, hsameMemory, hsameStorage, hsameError]

/-- If a step has no fault, it has none in other words, unless a member with another key has one. -/
theorem readable_respelled (hextra : ∀ value, extra value → value.readable = true)
    (hreadable : (record members).readable = true) : (record members').readable = true := by
  have hold : ∀ name, ∀ value ∈ valuesOf name members, value.readable = true :=
    fun name => readable_of_mem_valuesOf hreadable
  have hnull : ∀ value ∈ [Json.null], value.readable = true := List.forall_mem_singleton.mpr rfl
  have hnoWords : ∀ value ∈ [Json.null, .array []], value.readable = true :=
    List.forall_mem_cons.mpr ⟨rfl, List.forall_mem_singleton.mpr rfl⟩
  have hnoStorage : ∀ value ∈ [Json.null, record []], value.readable = true :=
    List.forall_mem_cons.mpr ⟨rfl, List.forall_mem_singleton.mpr rfl⟩
  refine readable_of_columns ?_ fun m hm hkey => hextra m.2 (hsame.extras m hm hkey)
  simp only [columns, fields, RecordField.part, List.map_cons, List.map_nil, List.forall_mem_cons]
  exact ⟨hsame.depth ▸ hold "depth", hsame.op ▸ hold "op", hsame.pc ▸ hold "pc",
    keepsReadable_sameQuantity.values hsame.gas (hold "gas"),
    keepsReadable_sameQuantity.values hsame.gasCost (hold "gasCost"),
    Word.keepsReadable_sameValue.items.column hnoWords hsame.stack (hold "stack"),
    Word.keepsReadable_sameValue.items.column hnull hsame.memory (hold "memory"),
    Word.keepsReadable_sameValue.entries.column hnoStorage hsame.storage (hold "storage"),
    keepsReadable_eq.column hnull hsame.error (hold "error"), List.forall_mem_nil _⟩

end Respelled

/-- Reading steps respects their spelling. -/
theorem respects_read {extra : Json → Prop} (hextra : ∀ value, extra value → value.intact = true)
    (manner : Manner) : Respects (SameObject (Respelled extra)) (read manner) := by
  rintro _ _ s ⟨members, members', rfl, rfl, hsame⟩ hread
  exact read_respelled hsame hextra hread

theorem keepsReadable_respelled {extra : Json → Prop}
    (hextra : ∀ value, extra value → value.readable = true) :
    KeepsReadable (SameObject (Respelled extra)) := by
  rintro _ _ ⟨members, members', rfl, rfl, hsame⟩ hreadable
  exact readable_respelled hsame hextra hreadable

end Step

/-! ## Traces -/

namespace RawTrace

/-- The columns of a trace, each with the part of the draft that it is read into. -/
def parts : List (PartField Draft) :=
  [⟨"gas", readQuantity, Draft.gas, fun d v => { d with gas := some v }⟩,
    ⟨"failed", readBool, Draft.failed, fun d v => { d with failed := some v }⟩,
    ⟨"returnValue", readString, Draft.returnValue, fun d v => { d with returnValue := some v }⟩,
    ⟨"structLogs", readList (Step.read .whole), Draft.steps, fun d v => { d with steps := some v }⟩]

theorem fields_eq : fields = parts.map (·.field) := rfl

theorem separate_parts : Separate parts where
  nodup := by decide
  get_set := by simp [parts]
  spare := by simp [parts, PartField.Spare]
  ext := by
    rintro ⟨⟩ ⟨⟩ h
    simpa [parts] using h

/-- The keys of what differs between dialects. -/
def dialectKeys : List String := ["gas", "structLogs"]

/-- Two traces that differ in the spelling of their gas and of their steps. -/
structure Respelled (extra : Json → Prop) (members members' : List (String × Json)) : Prop where
  gas : List.Forall₂ SameQuantity (valuesOf "gas" members) (valuesOf "gas" members')
  steps : List.Forall₂ (SameItems (SameObject (Step.Respelled extra)))
    (valuesOf "structLogs" members) (valuesOf "structLogs" members')
  others : members.filter (·.1 ∉ dialectKeys) = members'.filter (·.1 ∉ dialectKeys)

/-- No trace is found in the value as in an answer. -/
def StandsAlone (value : Json) : Prop := ∀ trace, readEnvelope value ≠ .ok trace

theorem read_eq_ok_iff {value : Json} {trace : RawTrace} (h : StandsAlone value) :
    read value = .ok trace ↔ value.readable = true ∧ readBare value = .ok trace := by
  unfold read
  cases value.readable with
  | false =>
    constructor
    · intro hread
      cases hread
    · rintro ⟨hreadable, -⟩
      cases hreadable
  | true =>
    rw [if_pos rfl]
    split
    · rename_i found henvelope
      exact absurd henvelope (h found)
    · split
      · rename_i hbare
        rw [hbare]
        exact (and_iff_right rfl).symm
      · rename_i hbare
        rw [hbare]
        constructor
        · intro hread
          cases hread
        · rintro ⟨-, hread⟩
          cases hread

/-- An answer has one column. -/
def envelopeParts : List (PartField (Option RawTrace)) :=
  [⟨"result", readBare, id, fun _ trace => some trace⟩]

theorem separate_envelope : Separate envelopeParts where
  nodup := by decide
  get_set := by simp [envelopeParts]
  spare := List.pairwise_singleton _ _
  ext := fun _ _ h => h _ (List.mem_singleton_self _)

theorem readEnvelope_record (members : List (String × Json)) :
    readEnvelope (record members) = readRecord (envelopeParts.map (·.field)) none .whole
      (required · "result") (record members) := rfl

/-- An object without a result is no answer. -/
theorem standsAlone_of_valuesOf {members : List (String × Json)}
    (h : valuesOf "result" members = []) : StandsAlone (record members) := by
  intro trace hread
  rw [readEnvelope_record, separate_envelope.readRecord_eq_ok_iff] at hread
  obtain ⟨found, -, hfills, hfinish⟩ := hread
  simp only [envelopeParts, List.forall_mem_singleton, h, fills_nil_iff] at hfills
  have hnone : found = none := hfills
  rw [hnone] at hfinish
  cases hfinish

section Respelled

variable {extra : Json → Prop} {members members' : List (String × Json)}
  (hsame : Respelled extra members members')
include hsame

theorem Respelled.mem_iff {m : String × Json} (hkey : m.1 ∉ dialectKeys) :
    m ∈ members' ↔ m ∈ members := by
  have hfilter : m ∈ members'.filter (·.1 ∉ dialectKeys) ↔
      m ∈ members.filter (·.1 ∉ dialectKeys) := by
    rw [hsame.others]
  simpa [hkey] using hfilter

theorem Respelled.valuesOf_eq {key : String} (hkey : key ∉ dialectKeys) :
    valuesOf key members = valuesOf key members' := by
  have hfilter : ∀ ms : List (String × Json),
      (ms.filter (·.1 ∉ dialectKeys)).filter (·.1 = key) = ms.filter (·.1 = key) := by
    intro ms
    rw [List.filter_filter]
    refine List.filter_congr fun m _ => ?_
    by_cases hm : m.1 = key <;> simp [hm, hkey]
  unfold valuesOf
  rw [← hfilter members, hsame.others, hfilter members']

/-- A trace is read as the same trace in other words. -/
theorem readBare_respelled (hextra : ∀ value, extra value → value.intact = true)
    (hintact : ∀ m ∈ members, m.2.intact = true) {trace : RawTrace}
    (h : readBare (record members) = .ok trace) : readBare (record members') = .ok trace := by
  unfold readBare at h ⊢
  rw [fields_eq, separate_parts.readRecord_eq_ok_iff] at h ⊢
  obtain ⟨draft, -, hfills, hfinish⟩ := h
  simp only [parts, List.forall_mem_cons] at hfills
  obtain ⟨hgas, hfailed, hreturn, hsteps, -⟩ := hfills
  rw [hsame.valuesOf_eq (by decide)] at hfailed hreturn
  have hsteps' := (Step.respects_read hextra .whole).list.fills hsame.steps hsteps
  have hgas' := respects_readQuantity.fills hsame.gas hgas
  refine ⟨draft, ?_, ?_, hfinish⟩
  · intro m hm hkey
    refine hintact m ((hsame.mem_iff fun hdialect => hkey ?_).mp hm)
    exact (by decide : ∀ key ∈ dialectKeys, key ∈ parts.map (·.name)) m.1 hdialect
  · simp only [parts, List.forall_mem_cons]
    exact ⟨hgas', hfailed, hreturn, hsteps', List.forall_mem_nil _⟩

theorem readable_respelled (hextra : ∀ value, extra value → value.readable = true)
    (hreadable : (record members).readable = true) : (record members').readable = true := by
  have hgas : ∀ value ∈ valuesOf "gas" members', value.readable = true :=
    keepsReadable_sameQuantity.values hsame.gas (readable_of_mem_valuesOf hreadable)
  have hsteps : ∀ value ∈ valuesOf "structLogs" members', value.readable = true :=
    (Step.keepsReadable_respelled hextra).items.values hsame.steps
      (readable_of_mem_valuesOf hreadable)
  have hcolumns : ∀ key ∈ dialectKeys, ∀ value ∈ valuesOf key members', value.readable = true :=
    List.forall_mem_cons.mpr ⟨hgas, List.forall_mem_singleton.mpr hsteps⟩
  refine readable_of_columns hcolumns fun m hm hkey => ?_
  exact (readable_record_iff members).mp hreadable m ((hsame.mem_iff hkey).mp hm)

/-- What is no answer is none in other words. -/
theorem standsAlone_respelled (hintact : ∀ m ∈ members, m.2.intact = true)
    (h : StandsAlone (record members)) : StandsAlone (record members') := by
  intro trace hread
  refine h trace ?_
  rw [readEnvelope_record, separate_envelope.readRecord_eq_ok_iff] at hread ⊢
  obtain ⟨found, -, hfills, hfinish⟩ := hread
  refine ⟨found, fun m hm _ => hintact m hm, ?_, hfinish⟩
  simp only [envelopeParts, List.forall_mem_singleton] at hfills ⊢
  rwa [hsame.valuesOf_eq (by decide)]

end Respelled

/-- Reading traces that stand alone respects their spelling. -/
theorem read_respelled {extra : Json → Prop} (hextra : ∀ value, extra value → value.readable = true)
    {value value' : Json} {trace : RawTrace} (hsame : SameObject (Respelled extra) value value')
    (halone : StandsAlone value) (h : read value = .ok trace) :
    value'.readable = true ∧ read value' = .ok trace := by
  obtain ⟨members, members', rfl, rfl, hsame⟩ := hsame
  obtain ⟨hreadable, hbare⟩ := (read_eq_ok_iff halone).mp h
  have hintact : ∀ m ∈ members, m.2.intact = true := fun m hm =>
    intact_of_readable m.2 ((readable_record_iff members).mp hreadable m hm)
  have hreadable' := readable_respelled hsame hextra hreadable
  have hbare' :=
    readBare_respelled hsame (fun v hv => intact_of_readable v (hextra v hv)) hintact hbare
  exact ⟨hreadable',
    (read_eq_ok_iff (standsAlone_respelled hsame hintact halone)).mpr ⟨hreadable', hbare'⟩⟩

/-! ## Texts that are no quantities -/

/-- A value under a key that is read as a quantity, of the trace or of one of its steps. -/
inductive HoldsQuantity (quantity : Json) : Json → Prop
  | trace {members : List (String × Json)} (h : ("gas", quantity) ∈ members) :
    HoldsQuantity quantity (record members)
  | step {members columns : List (String × Json)} {steps : List Json} {key : String}
    (hsteps : ("structLogs", .array steps) ∈ members) (hstep : record columns ∈ steps)
    (hkey : key ∈ ["gas", "gasCost"]) (hcolumn : (key, quantity) ∈ columns) :
    HoldsQuantity quantity (record members)

theorem exists_readQuantity_of_step {columns : List (String × Json)} {key : String} {value : Json}
    (hkey : key ∈ ["gas", "gasCost"]) (hcolumn : (key, value) ∈ columns) {manner : Manner}
    {s : Step} (h : Step.read manner (record columns) = .ok s) : ∃ n, readQuantity value = .ok n := by
  unfold Step.read at h
  rw [Step.fields_eq, Step.separate_parts.readRecord_eq_ok_iff] at h
  obtain ⟨draft, -, hfills, -⟩ := h
  simp only [Step.parts, List.forall_mem_cons] at hfills
  obtain ⟨-, -, -, hgas, hgasCost, -⟩ := hfills
  have hvalue := mem_valuesOf_iff.mpr hcolumn
  rcases List.mem_cons.mp hkey with rfl | hkey
  · exact hgas.exists_read hvalue
  · rw [List.mem_singleton.mp hkey] at hvalue
    exact hgasCost.exists_read hvalue

theorem fills_of_readBare {members : List (String × Json)} {trace : RawTrace}
    (h : readBare (record members) = .ok trace) :
    ∃ gas steps, Fills readQuantity (valuesOf "gas" members) none gas ∧
      Fills (readList (Step.read .whole)) (valuesOf "structLogs" members) none steps := by
  unfold readBare at h
  rw [fields_eq, separate_parts.readRecord_eq_ok_iff] at h
  obtain ⟨draft, -, hfills, -⟩ := h
  simp only [parts, List.forall_mem_cons] at hfills
  obtain ⟨hgas, -, -, hsteps, -⟩ := hfills
  exact ⟨draft.gas, draft.steps, hgas, hsteps⟩

/-- Where a trace is read, each of its quantities is. -/
theorem exists_readQuantity {quantity value : Json} {trace : RawTrace}
    (hholds : HoldsQuantity quantity value) (h : readBare value = .ok trace) :
    ∃ n, readQuantity quantity = .ok n := by
  cases hholds with
  | trace hmem =>
    obtain ⟨gas, _, hgas, -⟩ := fills_of_readBare h
    exact hgas.exists_read (mem_valuesOf_iff.mpr hmem)
  | step hsteps hstep hkey hcolumn =>
    obtain ⟨_, found, -, hlogs⟩ := fills_of_readBare h
    obtain ⟨steps, hread⟩ := hlogs.exists_read (mem_valuesOf_iff.mpr hsteps)
    obtain ⟨s, hs⟩ := exists_of_readItems hread hstep
    exact exists_readQuantity_of_step hkey hcolumn hs

/-- A text that spells no number of 64 bits: without digits, with another character, or too large. -/
def IsNoQuantity (text : String) : Prop :=
  Digits.digitsOf text = [] ∨
    (∃ c ∈ Digits.digitsOf text, ¬ Digits.IsDigit (Digits.radixOf text) c) ∨
    2 ^ 64 ≤ Digits.number (Digits.radixOf text) (Digits.digitsOf text)

theorem readQuantity_ne_ok {text : String} (h : IsNoQuantity text) (n : UInt64) :
    readQuantity (.string text) ≠ .ok n := by
  intro hread
  rcases readQuantity_eq_ok_iff.mp hread with heq | ⟨_, heq, hspells⟩
  · cases heq
  · cases heq
    rcases h with hnone | ⟨c, hc, hother⟩ | hlarge
    · exact hspells.nonempty hnone
    · exact hother (hspells.digits c hc)
    · rw [hspells.number_eq] at hlarge
      exact Nat.not_lt_of_le hlarge n.toNat_lt

theorem read_of_readText {text : String} {root : Json} {trace : RawTrace}
    (hdocument : Document.ofText text = ⟨root, false⟩) (h : readText text = .ok trace) :
    read root = .ok trace := by
  obtain ⟨found, hfound, hread⟩ := exists_root_of_readText h
  rw [hdocument] at hfound
  cases hfound
  exact hread

/-- Traces that stand alone in the dialects of debuggers. A text that differs from one that is read as
a trace in the spelling of quantities and words, in columns that hold nothing and in members of steps
with other keys is read as the same trace, if the values of these members can be read at all. A text
in the place of a quantity that spells no number of 64 bits is refused with its trace. -/
theorem reads_dialects :
    (∀ text text' root root' trace,
      Document.ofText text = ⟨root, false⟩ → Document.ofText text' = ⟨root', false⟩ →
      StandsAlone root → readText text = .ok trace →
      SameObject (Respelled (·.readable = true)) root root' → readText text' = .ok trace) ∧
    ∀ quantity root, IsNoQuantity quantity → HoldsQuantity (.string quantity) root →
      (∃ e, readBare root = .error e) ∧
      ∀ text trailing, Document.ofText text = ⟨root, trailing⟩ → StandsAlone root →
        ∃ e, readText text = .error e := by
  refine ⟨?_, ?_⟩
  · intro text text' root root' trace hdocument hdocument' halone h hsame
    have hread := read_of_readText hdocument h
    obtain ⟨hreadable, hread'⟩ := read_respelled (fun _ hv => hv) hsame halone hread
    exact readText_of_denotes ⟨hdocument', hreadable⟩ hread'
  · intro quantity root hnone hholds
    have hbare : ∀ trace, readBare root ≠ .ok trace := by
      intro trace hread
      obtain ⟨n, hn⟩ := exists_readQuantity hholds hread
      exact readQuantity_ne_ok hnone n hn
    refine ⟨?_, ?_⟩
    · cases hread : readBare root with
      | error e => exact ⟨e, rfl⟩
      | ok trace => exact absurd hread (hbare trace)
    · intro text trailing hdocument halone
      cases hread : readText text with
      | error e => exact ⟨e, rfl⟩
      | ok trace =>
        obtain ⟨found, hfound, hroot⟩ := exists_root_of_readText hread
        rw [hdocument] at hfound
        cases hfound
        exact absurd ((read_eq_ok_iff halone).mp hroot).2 (hbare trace)

/-- The first columns of a step, and others behind them. -/
def columnsOf (others : List (String × Json)) : List (String × Json) :=
  ("depth", .natural 1) :: ("op", .string "STOP") :: ("pc", .natural 0) :: others

/-- A trace of one step. -/
def ofColumns (gas : Json) (others : List (String × Json)) : Json :=
  record [("gas", gas), ("structLogs", .array [record (columnsOf others)])]

/-- The text of a trace of one step, from the texts of its gas and of its other columns. -/
def textOfColumns (gas others : String) : String :=
  "\x7b\"gas\":" ++ gas ++ ",\"structLogs\":[\x7b\"depth\":1,\"op\":\"STOP\",\"pc\":0," ++ others ++
    "\x7d]\x7d"

theorem respelled_ofColumns {extra : Json → Prop} {gas gas' : Json}
    {others others' : List (String × Json)} (hgas : SameQuantity gas gas')
    (hothers : Step.Respelled extra (columnsOf others) (columnsOf others')) :
    SameObject (Respelled extra) (ofColumns gas others) (ofColumns gas' others') :=
  ⟨_, _, rfl, rfl,
    { gas := .cons hgas .nil
      steps := .cons ⟨_, _, rfl, rfl, .cons ⟨_, _, rfl, rfl, hothers⟩ .nil⟩ .nil
      others := rfl }⟩

theorem standsAlone_ofColumns (gas : Json) (others : List (String × Json)) :
    StandsAlone (ofColumns gas others) := standsAlone_of_valuesOf rfl

theorem reads_dialects_spelledOut :
    readText (textOfColumns "\"0x+00fF\""
        "\"x\":[null],\"gas\":\"+07\",\"gasCost\":\"0\",\"stack\":[\"0001\"],\"memory\":null") =
      .ok { gas := 255, steps := [{ depth := 1, op := "STOP", gas := 7,
                                    stack := [Word.ofUInt64 1] }] } ∧
    ∃ e, readText (textOfColumns "255" "\"gas\":\"0x10000000000000000\",\"gasCost\":0") =
      .error e := by
  obtain ⟨hreads, hrefuses⟩ := reads_dialects
  refine ⟨?_, ?_⟩
  · have hothers : Step.Respelled (·.readable = true)
        (columnsOf [("gas", .natural 7), ("gasCost", .natural 0),
          ("stack", .array [.string "0x1"])])
        (columnsOf [("x", .array [.null]), ("gas", .string "+07"), ("gasCost", .string "0"),
          ("stack", .array [.string "0001"]), ("memory", .null)]) := {
      depth := rfl
      op := rfl
      pc := rfl
      gas := .cons ⟨7, .inl rfl, .inr ⟨"+07", rfl, by decide⟩⟩ .nil
      gasCost := .cons ⟨0, .inl rfl, .inr ⟨"0", rfl, by decide⟩⟩ .nil
      stack := .present ⟨_, _, rfl, rfl, .cons ⟨"0x1", "0001", rfl, rfl,
        .inr ⟨by decide, by decide, by decide⟩⟩ .nil⟩
      memory := .blank (.inl rfl) (.inr ⟨.null, List.mem_singleton_self _, rfl⟩)
      storage := .blank (.inl rfl) (.inl rfl)
      error := .blank (.inl rfl) (.inl rfl)
      extras := by simp [columnsOf, Step.columns, Step.fields, RecordField.part, readable,
        readableItems] }
    have hgas : SameQuantity (.natural 255) (.string "0x+00fF") :=
      ⟨255, .inl rfl, .inr ⟨"0x+00fF", rfl, by decide⟩⟩
    have hdocument : Document.ofText
        (textOfColumns "255" "\"gas\":7,\"gasCost\":0,\"stack\":[\"0x1\"]") =
        ⟨ofColumns (.natural 255) [("gas", .natural 7), ("gasCost", .natural 0),
          ("stack", .array [.string "0x1"])], false⟩ := by decide +kernel
    exact hreads _ _ _ _ _ hdocument (by decide +kernel) (standsAlone_ofColumns _ _)
      (readText_of_denotes ⟨hdocument, rfl⟩ (by decide +kernel)) (respelled_ofColumns hgas hothers)
  · have hholds : HoldsQuantity (.string "0x10000000000000000")
        (ofColumns (.natural 255) [("gas", .string "0x10000000000000000"),
          ("gasCost", .natural 0)]) :=
      .step (List.mem_cons_of_mem _ (List.mem_singleton_self _)) (List.mem_singleton_self _)
        (List.mem_cons_self ..) (by simp [columnsOf])
    exact (hrefuses _ _ (.inr (.inr (by decide))) hholds).2 _ false (by decide +kernel)
      (standsAlone_ofColumns _ _)

/-- A number beyond the range of a double is JSON, and would be passed over as the value of another
key. But a text is read as a whole before it is known how the trace stands in it, and so it is
refused. -/
theorem not_reads_dialects_intact :
    ¬ ∀ text text' root root' trace,
      Document.ofText text = ⟨root, false⟩ → Document.ofText text' = ⟨root', false⟩ →
      StandsAlone root → readText text = .ok trace →
      SameObject (Respelled (·.intact = true)) root root' → readText text' = .ok trace := by
  intro hreads
  have hothers : Step.Respelled (·.intact = true)
      (columnsOf [("gas", .natural 1), ("gasCost", .natural 0)])
      (columnsOf [("gas", .natural 1), ("gasCost", .natural 0), ("x", .fault .unreadable)]) := {
    depth := rfl
    op := rfl
    pc := rfl
    gas := .cons ⟨1, .inl rfl, .inl rfl⟩ .nil
    gasCost := .cons ⟨0, .inl rfl, .inl rfl⟩ .nil
    stack := .blank (.inl rfl) (.inl rfl)
    memory := .blank (.inl rfl) (.inl rfl)
    storage := .blank (.inl rfl) (.inl rfl)
    error := .blank (.inl rfl) (.inl rfl)
    extras := by simp [columnsOf, Step.columns, Step.fields, RecordField.part, intact] }
  have hgas : SameQuantity (.natural 1) (.natural 1) := ⟨1, .inl rfl, .inl rfl⟩
  have hrefused : readText (textOfColumns "1" "\"gas\":1,\"gasCost\":0,\"x\":1e999") =
      .error .malformed := by decide +kernel
  have hread := hreads (textOfColumns "1" "\"gas\":1,\"gasCost\":0")
    (textOfColumns "1" "\"gas\":1,\"gasCost\":0,\"x\":1e999") _ _
    { gas := 1, steps := [{ depth := 1, op := "STOP", gas := 1 }] }
    (by decide +kernel) (by decide +kernel) (standsAlone_ofColumns _ _) (by decide +kernel) (respelled_ofColumns hgas hothers)
  rw [hrefused] at hread
  cases hread

end RawTrace

end TraceGloss
