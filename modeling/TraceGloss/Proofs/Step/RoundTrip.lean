import TraceGloss.Annotation.Basic
import TraceGloss.Proofs.Json.Compact
import TraceGloss.Proofs.Json.Records
import TraceGloss.Proofs.Word.Literal

/-
  Traces that are written are read back.
  Every column is read back from what is written of it, and columns that are left out are read as
  missing, so a step fills its draft (`Step.fillNamed_members`), also with other members around its
  columns (`Step.read_around`). This carries over to traces, alone (`RawTrace.read_toJson`) and inside
  an answer (`RawTrace.read_answer`), and to annotated steps, whose notes have keys of their own
  (`AnnotatedStep.read_toJson`). What is written also fits into text, so that all of it holds of texts
  (`RawTrace.survives_writing`).
-/
namespace TraceGloss

open Json

/-! ## Columns -/

theorem readUInt64_natural (n : UInt64) : readUInt64 (.natural n.toNat) = .ok n := by
  rw [readUInt64, if_pos n.toNat_lt, UInt64.ofNat_toNat]

theorem readUInt32_natural (n : UInt32) : readUInt32 (.natural n.toNat) = .ok n := by
  rw [readUInt32, if_pos n.toNat_lt, UInt32.ofNat_toNat]

theorem readQuantity_natural (n : UInt64) : readQuantity (.natural n.toNat) = .ok n :=
  readUInt64_natural n

theorem readWord_fullText (w : Word) : readWord (.string w.fullText) = .ok w := by
  simp only [readWord, readHex, readString, Bind.bind, Except.bind, Word.parse_fullText]

theorem hexKey_fullText (w : Word) : hexKey Word.parse w.fullText = .ok w := by
  unfold hexKey
  rw [Word.parse_fullText]

theorem readWords (ws : List Word) :
    readOption (readList readWord) (Step.words ws) = .ok (some ws) := by
  show (readItems readWord (ws.map fun w => .string w.fullText)).map some = .ok (some ws)
  rw [readItems_map readWord_fullText]
  rfl

namespace Step

def storageJson (storage : Table Word Word) : Json :=
  record (storage.entries.map fun e => (e.1.fullText, .string e.2.fullText))

theorem readStorage (storage : Table Word Word) :
    readOption (readTable (hexKey Word.parse) readWord) (storageJson storage) =
      .ok (some storage) := by
  have htable : readTable (hexKey Word.parse) readWord (storageJson storage) = .ok storage :=
    readTable_entries hexKey_fullText readWord_fullText storage
  show (readTable (hexKey Word.parse) readWord _).map some = .ok (some storage)
  rw [htable]
  rfl

/-- The draft of a step of which every column has been read. -/
def drafted (s : Step) : Draft where
  depth := some s.depth
  op := some s.op
  pc := some s.pc
  gas := some s.gas
  gasCost := some s.gasCost
  stack := some (some s.stack)
  memory := s.memory.map some
  storage := some (some s.storage)
  error := s.error.map some

theorem ofDraft_drafted (missing : String → ReadError) (s : Step) :
    ofDraft missing s.drafted = .ok s := by
  obtain ⟨depth, op, pc, gas, gasCost, stack, memory, storage, error⟩ := s
  cases memory <;> cases error <;> rfl

/-- The columns from the storage on. -/
def lastMembers (storage : Table Word Word) (error : Option String) : List (String × Json) :=
  ("storage", storageJson storage) :: (error.map fun e => ("error", .string e)).toList

theorem members_eq (s : Step) :
    s.members =
      ("depth", .natural s.depth.toNat) :: ("op", .string s.op) :: ("pc", .natural s.pc.toNat) ::
        ("gas", .natural s.gas.toNat) :: ("gasCost", .natural s.gasCost.toNat) ::
        ("stack", words s.stack) :: ((s.memory.map fun ws => ("memory", words ws)).toList ++
          lastMembers s.storage s.error) := by
  unfold members lastMembers storageJson
  rw [List.append_assoc, List.append_assoc]
  rfl

theorem fillNamed_lastMembers {draft : Draft} (hstorage : draft.storage = none)
    (herror : draft.error = none) (storage : Table Word Word) (error : Option String) :
    fillNamed fields (lastMembers storage error) draft =
      .ok { draft with storage := some (some storage), error := error.map some } := by
  unfold lastMembers
  rw [← List.append_nil (Option.toList _)]
  refine (fillNamed_part (by rfl) hstorage (readStorage storage) _).trans ?_
  refine (fillNamed_optional (by rfl) (by exact herror) (fun e => by rfl) error _).trans ?_
  cases error with
  | none =>
    rw [Option.map_none, ← herror]
    rfl
  | some e => rfl

/-- The columns of a step fill its draft. -/
theorem fillNamed_members (s : Step) : fillNamed fields s.members {} = .ok s.drafted := by
  obtain ⟨depth, op, pc, gas, gasCost, stack, memory, storage, error⟩ := s
  rw [members_eq]
  refine (fillNamed_part (by rfl) (by rfl) (readUInt32_natural depth) _).trans ?_
  refine (fillNamed_part (by rfl) (by rfl) (by rfl) _).trans ?_
  dsimp only
  refine (fillNamed_part (by rfl) (by rfl) (readUInt64_natural pc) _).trans ?_
  refine (fillNamed_part (by rfl) (by rfl) (readQuantity_natural gas) _).trans ?_
  dsimp only
  refine (fillNamed_part (by rfl) (by rfl) (readQuantity_natural gasCost) _).trans ?_
  refine (fillNamed_part (by rfl) (by rfl) (readWords stack) _).trans ?_
  dsimp only
  refine (fillNamed_optional (by rfl) (by rfl) readWords memory _).trans ?_
  cases memory with
  | none => exact fillNamed_lastMembers rfl rfl storage error
  | some ws => exact fillNamed_lastMembers rfl rfl storage error

/-- A step is read back from its columns, whatever other members stand around them. -/
theorem read_around (manner : Manner) (s : Step) {before after : List (String × Json)}
    (hbefore : ∀ m ∈ before, fields.find? (·.name == m.1) = none ∧ m.2.readable = true)
    (hafter : ∀ m ∈ after, fields.find? (·.name == m.1) = none ∧ m.2.readable = true) :
    Step.read manner (record (before ++ (s.members ++ after))) = .ok s := by
  have hfill : fillNamed fields (before ++ (s.members ++ after)) {} = .ok s.drafted := by
    rw [fillNamed_append, fillNamed_unknown _ hbefore]
    show fillNamed fields (s.members ++ after) {} = _
    rw [fillNamed_append, fillNamed_members]
    exact fillNamed_unknown _ hafter
  unfold Step.read record
  rw [readRecord, hfill]
  exact ofDraft_drafted (fun name => .mismatch (.missingField name)) s

theorem read_toJson (manner : Manner) (s : Step) : Step.read manner s.toJson = .ok s := by
  have hnone : ∀ m ∈ ([] : List (String × Json)),
      fields.find? (·.name == m.1) = none ∧ m.2.readable = true := fun m hm => by cases hm
  have hread := read_around manner s hnone hnone
  rw [List.append_nil] at hread
  exact hread

theorem fits_words (room : Nat) (ws : List Word) : fits (room + 1) (words ws) = true := by
  refine fits_array ?_
  intro item hitem
  obtain ⟨w, -, rfl⟩ := List.mem_map.mp hitem
  rfl

theorem fits_storageJson (room : Nat) (storage : Table Word Word) :
    fits (room + 1) (storageJson storage) = true := by
  refine fits_record ?_
  intro m hm
  obtain ⟨e, -, rfl⟩ := List.mem_map.mp hm
  rfl

theorem fits_uint64 (room : Nat) (n : UInt64) : fits room (.natural n.toNat) = true :=
  decide_eq_true n.toNat_lt

theorem fits_members (room : Nat) (s : Step) :
    ∀ m ∈ s.members, fits (room + 1) m.2 = true := by
  have hdepth : fits (room + 1) (.natural s.depth.toNat) = true :=
    decide_eq_true (Nat.lt_trans s.depth.toNat_lt (by decide))
  have hmemory : ∀ m ∈ (s.memory.map fun ws => ("memory", words ws)).toList,
      fits (room + 1) m.2 = true := by
    intro m hm
    obtain ⟨ws, -, rfl⟩ := Option.map_eq_some_iff.mp (Option.mem_toList.mp hm)
    exact fits_words room ws
  have herror : ∀ m ∈ (s.error.map fun e => ("error", Json.string e)).toList,
      fits (room + 1) m.2 = true := by
    intro m hm
    obtain ⟨e, -, rfl⟩ := Option.map_eq_some_iff.mp (Option.mem_toList.mp hm)
    rfl
  unfold members
  simp only [List.forall_mem_append, List.forall_mem_cons]
  refine ⟨⟨⟨⟨hdepth, rfl, fits_uint64 _ s.pc, fits_uint64 _ s.gas, fits_uint64 _ s.gasCost,
    fits_words room s.stack, fun m hm => by cases hm⟩, hmemory⟩, fits_storageJson room s.storage,
    fun m hm => by cases hm⟩, herror⟩

theorem fits_toJson (room : Nat) (s : Step) : fits (room + 2) s.toJson = true :=
  fits_record (fits_members room s)

end Step

/-! ## Traces -/

namespace RawTrace

theorem fits_toJson (room : Nat) (t : RawTrace) : fits (room + 4) t.toJson = true := by
  have hsteps : fits (room + 3) (.array (t.steps.map Step.toJson)) = true := by
    refine fits_array ?_
    intro item hitem
    obtain ⟨s, -, rfl⟩ := List.mem_map.mp hitem
    exact Step.fits_toJson room s
  refine fits_record ?_
  simp only [List.forall_mem_cons]
  exact ⟨Step.fits_uint64 _ t.gas, rfl, rfl, hsteps, fun m hm => by cases hm⟩

theorem readSteps (steps : List Step) :
    readList (Step.read .whole) (.array (steps.map Step.toJson)) = .ok steps :=
  readItems_map (Step.read_toJson .whole) steps

theorem readBare_toJson (t : RawTrace) : readBare t.toJson = .ok t := by
  have hfill : fillNamed fields
      [("gas", .natural t.gas.toNat), ("failed", .bool t.failed),
        ("returnValue", .string t.returnValue), ("structLogs", .array (t.steps.map Step.toJson))]
      {} = .ok ⟨some t.gas, some t.failed, some t.returnValue, some t.steps⟩ := by
    refine (fillNamed_part (by rfl) (by rfl) (readQuantity_natural t.gas) _).trans ?_
    refine (fillNamed_part (by rfl) (by rfl) (by rfl) _).trans ?_
    refine (fillNamed_part (by rfl) (by rfl) (by rfl) _).trans ?_
    exact (fillNamed_part (by rfl) (by rfl) (readSteps t.steps) _).trans rfl
  unfold readBare toJson record
  rw [readRecord, hfill]
  rfl

/-- Of an answer only the result is looked at. -/
theorem find?_envelope {key : String} (h : key ≠ "result") :
    envelope.find? (·.name == key) = none := by
  have hother : ¬ ("result" == key) = true := fun heq => h (beq_iff_eq.mp heq).symm
  refine List.find?_eq_none.mpr ?_
  intro field hfield
  cases List.mem_singleton.mp hfield
  exact hother

/-- A trace is read back from an answer, whatever else stands in it. -/
theorem read_answer (t : RawTrace) {before after : List (String × Json)}
    (hkeys : ∀ m ∈ before ++ after, m.1 ≠ "result")
    (hreadable : (record (before ++ ("result", t.toJson) :: after)).readable = true) :
    RawTrace.read (record (before ++ ("result", t.toJson) :: after)) = .ok t := by
  have hvalues := (readable_record_iff _).mp hreadable
  have hbefore : ∀ m ∈ before, envelope.find? (·.name == m.1) = none ∧ m.2.readable = true :=
    fun m hm => ⟨find?_envelope (hkeys m (List.mem_append_left after hm)),
      hvalues m (List.mem_append_left _ hm)⟩
  have hafter : ∀ m ∈ after, envelope.find? (·.name == m.1) = none ∧ m.2.readable = true :=
    fun m hm => ⟨find?_envelope (hkeys m (List.mem_append_right before hm)),
      hvalues m (List.mem_append_right _ (List.mem_cons_of_mem _ hm))⟩
  have hfill : fillNamed envelope (before ++ ("result", t.toJson) :: after) none =
      .ok (some t) := by
    rw [fillNamed_append, fillNamed_unknown _ hbefore]
    show fillNamed envelope (("result", t.toJson) :: after) none = .ok (some t)
    refine (fillNamed_part (by rfl) (by rfl) (readBare_toJson t) _).trans ?_
    exact fillNamed_unknown _ hafter
  have henvelope : readEnvelope (record (before ++ ("result", t.toJson) :: after)) = .ok t := by
    unfold readEnvelope record
    dsimp only
    rw [readRecord, hfill]
    rfl
  unfold RawTrace.read
  rw [if_pos hreadable, henvelope]

/-- A trace that stands alone is no answer, and is read back as it is. -/
theorem read_toJson (t : RawTrace) : RawTrace.read t.toJson = .ok t := by
  have hreadable := readable_of_fits t.toJson 4 (fits_toJson 0 t)
  have hvalues := (readable_record_iff _).mp hreadable
  have hkeys : ∀ key ∈ ["gas", "failed", "returnValue", "structLogs"], key ≠ "result" := by decide
  have hfill : fillNamed envelope
      [("gas", .natural t.gas.toNat), ("failed", .bool t.failed),
        ("returnValue", .string t.returnValue), ("structLogs", .array (t.steps.map Step.toJson))]
      none = .ok none := by
    refine fillNamed_unknown none ?_
    intro m hm
    exact ⟨find?_envelope (hkeys m.1 (List.mem_map_of_mem (f := Prod.fst) hm)), hvalues m hm⟩
  have henvelope : readEnvelope t.toJson = .error (.mismatch (.missingField "result")) := by
    unfold readEnvelope toJson record
    dsimp only
    rw [readRecord, hfill]
    rfl
  unfold RawTrace.read
  rw [if_pos hreadable, henvelope, readBare_toJson]

end RawTrace

/-! ## Annotated steps -/

namespace AnnotatedStep

/-- The members that stand behind the columns of the step. -/
def notes (a : AnnotatedStep) : List (String × Json) :=
  [("description", .string a.description), ("operandWords", Step.words a.operands),
    ("resultWords", Step.words a.results), ("correctedGasCost", .natural a.cost),
    ("contractAddress", (a.address.map fun a => Json.string a.text).getD .null),
    ("callDepthIndex", .natural a.depthIndex)] ++
  optional "sourceSnippet" (a.snippet.map .string) ++
  optional "sourceLocationLabel" (a.label.map .string) ++
  [("previous", (a.previous.map Json.natural).getD .null)]

theorem toJson_eq (a : AnnotatedStep) :
    a.toJson = record ([("index", .natural a.index)] ++ (a.step.members ++ a.notes)) := by
  unfold toJson notes
  simp only [List.append_assoc]

/-- The numbers of the annotation are below `2 ^ 64`. -/
structure IsSmall (a : AnnotatedStep) : Prop where
  index : a.index < UInt64.size
  cost : a.cost < UInt64.size
  depthIndex : a.depthIndex < UInt64.size
  previous : ∀ i, a.previous = some i → i < UInt64.size

/-- The keys of what is not recorded. -/
def noteKeys : List String :=
  ["index", "description", "operandWords", "resultWords", "correctedGasCost", "contractAddress",
    "callDepthIndex", "sourceSnippet", "sourceLocationLabel", "previous"]

/-- No column of a step has the key of a note. -/
theorem find?_noteKeys : ∀ key ∈ noteKeys, Step.fields.find? (·.name == key) = none := by
  have hnone : ∀ key ∈ noteKeys, (Step.fields.find? (·.name == key)).isNone = true := by decide
  exact fun key hkey => Option.isNone_iff_eq_none.mp (hnone key hkey)

/-- What a note is like: it has a key of its own, and a value that fits if the numbers do. -/
structure IsNote (a : AnnotatedStep) (m : String × Json) : Prop where
  key : m.1 ∈ noteKeys
  readable : m.2.readable = true
  fits (room : Nat) : a.IsSmall → Json.fits (room + 1) m.2 = true

theorem isNote_of_fits {a : AnnotatedStep} {key : String} (hkey : key ∈ noteKeys) {value : Json}
    (h : ∀ room, Json.fits (room + 1) value = true) : a.IsNote (key, value) :=
  ⟨hkey, readable_of_fits value 1 (h 0), fun room _ => h room⟩

theorem isNote_natural {a : AnnotatedStep} {key : String} (hkey : key ∈ noteKeys) {n : Nat}
    (h : a.IsSmall → n < UInt64.size) : a.IsNote (key, .natural n) :=
  ⟨hkey, rfl, fun _ hsmall => decide_eq_true (h hsmall)⟩

theorem isNote_words {a : AnnotatedStep} {key : String} (hkey : key ∈ noteKeys) (ws : List Word) :
    a.IsNote (key, Step.words ws) :=
  isNote_of_fits hkey fun room => Step.fits_words room ws

theorem isNote_optional {a : AnnotatedStep} {key : String} (hkey : key ∈ noteKeys)
    (text : Option String) : ∀ m ∈ optional key (text.map .string), a.IsNote m := by
  cases text with
  | none => exact fun m hm => by cases hm
  | some s =>
    intro m hm
    cases List.mem_singleton.mp hm
    exact isNote_of_fits hkey fun _ => rfl

theorem isNote_notes (a : AnnotatedStep) : ∀ m ∈ a.notes, a.IsNote m := by
  have haddress : a.IsNote ("contractAddress",
      (a.address.map fun a => Json.string a.text).getD .null) := by
    cases a.address with
    | none => exact isNote_of_fits (by decide) fun _ => rfl
    | some address => exact isNote_of_fits (by decide) fun _ => rfl
  have hprevious : a.IsNote ("previous", (a.previous.map Json.natural).getD .null) := by
    cases hvalue : a.previous with
    | none => exact isNote_of_fits (by decide) fun _ => rfl
    | some i => exact isNote_natural (by decide) fun hsmall => hsmall.previous i hvalue
  have hnil : ∀ m ∈ ([] : List (String × Json)), a.IsNote m := fun m hm => by cases hm
  unfold notes
  simp only [List.forall_mem_append, List.forall_mem_cons]
  exact ⟨⟨⟨⟨isNote_of_fits (by decide) fun _ => rfl, isNote_words (by decide) a.operands,
    isNote_words (by decide) a.results, isNote_natural (by decide) fun hsmall => hsmall.cost,
    haddress, isNote_natural (by decide) fun hsmall => hsmall.depthIndex, hnil⟩,
    isNote_optional (by decide) a.snippet⟩, isNote_optional (by decide) a.label⟩, hprevious, hnil⟩

theorem isNote_index (a : AnnotatedStep) : ∀ m ∈ [("index", Json.natural a.index)], a.IsNote m := by
  intro m hm
  cases List.mem_singleton.mp hm
  exact isNote_natural (by decide) fun hsmall => hsmall.index

theorem fits_toJson (room : Nat) {a : AnnotatedStep} (h : a.IsSmall) :
    fits (room + 2) a.toJson = true := by
  rw [toJson_eq]
  refine fits_record ?_
  simp only [List.forall_mem_append]
  exact ⟨fun m hm => (a.isNote_index m hm).fits room h, Step.fits_members room a.step,
    fun m hm => (a.isNote_notes m hm).fits room h⟩

/-- The step is read back from the annotated one. -/
theorem read_toJson (manner : Manner) (a : AnnotatedStep) :
    Step.read manner a.toJson = .ok a.step := by
  rw [toJson_eq]
  refine Step.read_around manner a.step ?_ ?_
  · intro m hm
    have hnote := a.isNote_index m hm
    exact ⟨find?_noteKeys m.1 hnote.key, hnote.readable⟩
  · intro m hm
    have hnote := a.isNote_notes m hm
    exact ⟨find?_noteKeys m.1 hnote.key, hnote.readable⟩

end AnnotatedStep

/-! ## Texts -/

/-- Traces and steps survive being written. A trace is read back from its compact text, and from any
text that denotes an answer with the trace as its `result` and other members around it. The step that
was recorded is read back from what is written of an annotated one, and from the compact text if all
numbers there are below `2 ^ 64`. -/
theorem RawTrace.survives_writing :
    (∀ t : RawTrace, RawTrace.readText t.toJson.compact = .ok t) ∧
    (∀ (t : RawTrace) (before after : List (String × Json)) (text : String),
      (∀ m ∈ before ++ after, m.1 ≠ "result") →
      Denotes text (record (before ++ ("result", t.toJson) :: after)) →
      RawTrace.readText text = .ok t) ∧
    (∀ (a : AnnotatedStep) (manner : Manner), Step.read manner a.toJson = .ok a.step) ∧
    (∀ (a : AnnotatedStep) (manner : Manner), a.IsSmall →
      Json.readText (Step.read manner) a.toJson.compact = .ok a.step) := by
  refine ⟨?_, ?_, ?_, ?_⟩
  · intro t
    exact readText_of_denotes (denotes_compact (fits_toJson 123 t)) (read_toJson t)
  · intro t before after text hkeys h
    exact readText_of_denotes h (read_answer t hkeys h.readable)
  · intro a manner
    exact a.read_toJson manner
  · intro a manner hsmall
    exact readText_of_denotes (denotes_compact (AnnotatedStep.fits_toJson 125 hsmall))
      (a.read_toJson manner)

/-- A trace of two steps: one with empty memory, a wide word and storage, and one with an error. -/
def halted : RawTrace where
  gas := 21000
  failed := true
  returnValue := "0x"
  steps := [
    { depth := 1, op := "SHA3", gas := 18446744073709551615, gasCost := 30
      stack := [.zero, .ofBytes (List.replicate 33 255)], memory := some []
      storage := Table.ofList [(.ofUInt64 2, .ofUInt64 7), (.ofUInt64 1, .zero)] },
    { depth := 1, op := "INVALID", pc := 1, error := some "invalid \"opcode\"\n\t\x01" }]

theorem survives_writing_halted :
    let answer := record ([("jsonrpc", .string "2.0"), ("id", .natural 1)] ++
      ("result", halted.toJson) :: [("extra", .array [.null])])
    let annotated : AnnotatedStep := { index := 1, step := { op := "STOP" }, cost := 7 }
    Denotes answer.compact answer ∧ RawTrace.readText answer.compact = .ok halted ∧
      annotated.IsSmall ∧
      Json.readText (Step.read .streamed) annotated.toJson.compact = .ok annotated.step := by
  intro answer annotated
  have hdenotes : Denotes answer.compact answer := denotes_compact (by decide)
  have hsmall : annotated.IsSmall :=
    ⟨by decide, by decide, by decide, fun i hi => by cases hi⟩
  obtain ⟨-, hanswer, -, hannotated⟩ := RawTrace.survives_writing
  exact ⟨hdenotes, hanswer halted _ _ _ (by decide) hdenotes, hsmall,
    hannotated annotated .streamed hsmall⟩

end TraceGloss
