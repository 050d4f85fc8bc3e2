import TraceGloss.Json.Reading

/-
  What a record was read from.
  A column of a record is the member of an object with its name, or the item of an array at its place.
  Where a record is read, each column was read by its own reader if the value has it, and is missing from
  the draft if not (`fillNamed_column`, `fillPlaced_column`, `readRecord_column`). What is read of a text,
  of an object of any values and of a list of strings says what these were
  (`exists_root_of_readText`, `eq_entries_of_readObject`, `eq_of_readStrings`).
-/
namespace TraceGloss

theorem exists_of_bind_eq_ok {ε α β : Type} {x : Except ε α} {f : α → Except ε β} {b : β}
    (h : x >>= f = .ok b) : ∃ a, x = .ok a ∧ f a = .ok b := by
  cases x with
  | error e => cases h
  | ok a => exact ⟨a, rfl, h⟩

namespace Json

/-- The value of a column: of an object by its name, of an array by its place. -/
def column? (name : String) (place : Nat) : Json → Option Json
  | .object members _ => members.lookup name
  | .array items => items[place]?
  | _ => none

/-- What an object holds: every key at its first place with its last value, in nested objects too. -/
def entries : Json → List (String × Json)
  | .object members _ => distinct (collapseMembers members)
  | _ => []

section Columns

variable {δ α β : Type}

/-- A field that leaves a part of the draft as it is. -/
def RecordField.Spares (field : RecordField δ) (get : δ → Option α) : Prop :=
  ∀ value draft filled, field.fill value draft = .ok filled → get filled = get draft

theorem fill_part {name : String} {read : Json → Read α} {get : δ → Option α} {set : δ → α → δ}
    {value : Json} {draft filled : δ}
    (h : (RecordField.part name read get set).fill value draft = .ok filled) :
    ∃ a, read value = .ok a ∧ filled = set draft a := by
  dsimp only [RecordField.part] at h
  cases hread : read value with
  | error e =>
    rw [hread] at h
    cases h
  | ok a =>
    rw [hread] at h
    cases h
    exact ⟨a, rfl, rfl⟩

theorem spares_part {name : String} {read : Json → Read β} {other : δ → Option β}
    {set : δ → β → δ} {get : δ → Option α} (h : ∀ draft b, get (set draft b) = get draft) :
    (RecordField.part name read other set).Spares get := by
  intro value draft filled hfill
  obtain ⟨b, -, rfl⟩ := fill_part hfill
  exact h draft b

/-- What is found of a column: read by its own reader if the value has it, and else missing. -/
inductive Found (read : Json → Read α) : Option Json → Option α → Prop
  | missing : Found read none none
  | present {value : Json} {a : α} (h : read value = .ok a) : Found read (some value) (some a)

variable {key : String} {read : Json → Read α} {get : δ → Option α} {set : δ → α → δ}
  {before after : List (RecordField δ)} {draft filled : δ}

theorem fillPlaced_spared {manner : Manner} {fields : List (RecordField δ)} {items : List Json}
    (hothers : ∀ field ∈ fields, field.Spares get)
    (h : fillPlaced manner fields items draft = .ok filled) : get filled = get draft := by
  induction fields generalizing items draft with
  | nil =>
    cases items with
    | nil => cases h; rfl
    | cons item items => cases h
  | cons field fields ih =>
    obtain ⟨hfirst, hrest⟩ := List.forall_mem_cons.mp hothers
    cases items with
    | nil => cases h; rfl
    | cons item items =>
      obtain ⟨between, hfill, hplaced⟩ := exists_of_bind_eq_ok h
      rw [ih hrest hplaced, hfirst item draft between hfill]

variable (hset : ∀ draft a, get (set draft a) = some a)
  (hothers : ∀ field ∈ before ++ after, field.name ≠ key ∧ field.Spares get)
include hset hothers

/-- A column of an array is the item at its place. -/
theorem fillPlaced_column {manner : Manner} {items : List Json} (hfree : get draft = none)
    (h : fillPlaced manner (before ++ .part key read get set :: after) items draft = .ok filled) :
    Found read items[before.length]? (get filled) := by
  induction before generalizing items draft with
  | nil =>
    cases items with
    | nil =>
      cases h
      rw [hfree]
      exact .missing
    | cons item items =>
      obtain ⟨between, hfill, hplaced⟩ := exists_of_bind_eq_ok h
      obtain ⟨a, hread, rfl⟩ := fill_part hfill
      rw [fillPlaced_spared (fun field hfield => (hothers field hfield).2) hplaced, hset]
      exact .present hread
  | cons field before ih =>
    obtain ⟨⟨-, hspares⟩, hrest⟩ := List.forall_mem_cons.mp hothers
    cases items with
    | nil =>
      cases h
      rw [hfree]
      exact .missing
    | cons item items =>
      obtain ⟨between, hfill, hplaced⟩ := exists_of_bind_eq_ok h
      exact ih hrest ((hspares item draft between hfill).trans hfree) hplaced

/-- A member fills the column if it has its name, which only the first such member can, and else leaves
the column as it is. -/
theorem fillNamed_cons_column {name : String} {value : Json} {rest : List (String × Json)}
    (h : fillNamed (before ++ .part key read get set :: after) ((name, value) :: rest) draft =
      .ok filled) :
    ∃ between,
      fillNamed (before ++ .part key read get set :: after) rest between = .ok filled ∧
      (name = key ∧ get draft = none ∧ (∃ a, read value = .ok a ∧ get between = some a) ∨
        name ≠ key ∧ get between = get draft) := by
  rw [fillNamed] at h
  split at h
  · rename_i hfind
    obtain ⟨-, -, hrest⟩ := exists_of_bind_eq_ok h
    refine ⟨draft, hrest, .inr ⟨?_, rfl⟩⟩
    rintro rfl
    exact List.find?_eq_none.mp hfind _ (List.mem_append_right _ (List.mem_cons_self ..))
      (beq_self_eq_true _)
  · rename_i field hfind
    split at h
    · cases h
    · rename_i hopen
      obtain ⟨between, hfill, hrest⟩ := exists_of_bind_eq_ok h
      refine ⟨between, hrest, ?_⟩
      have hname : field.name = name := by simpa using List.find?_some hfind
      have hmem := List.mem_of_find?_eq_some hfind
      rw [List.mem_append, List.mem_cons, or_left_comm, ← List.mem_append] at hmem
      rcases hmem with rfl | hmem
      · obtain ⟨a, hread, rfl⟩ := fill_part hfill
        exact .inl ⟨hname.symm, by simpa [RecordField.part] using hopen, a, hread, hset draft a⟩
      · obtain ⟨hne, hspares⟩ := hothers field hmem
        rw [hname] at hne
        exact .inr ⟨hne, hspares value draft between hfill⟩

/-- A column of an object is the member with its name. -/
theorem fillNamed_column {members : List (String × Json)}
    (h : fillNamed (before ++ .part key read get set :: after) members draft = .ok filled) :
    (∀ a, get draft = some a → get filled = some a) ∧
      (get draft = none → Found read (members.lookup key) (get filled)) := by
  induction members generalizing draft with
  | nil =>
    cases h
    refine ⟨fun a ha => ha, fun hfree => ?_⟩
    rw [hfree]
    exact .missing
  | cons m rest ih =>
    obtain ⟨name, value⟩ := m
    obtain ⟨between, hrest, hfirst⟩ := fillNamed_cons_column hset hothers h
    obtain ⟨hkept, hfound⟩ := ih hrest
    rcases hfirst with ⟨rfl, hfree, a, hread, hbetween⟩ | ⟨hne, hbetween⟩
    · refine ⟨fun b hb => ?_, fun _ => ?_⟩
      · rw [hfree] at hb
        cases hb
      · rw [List.lookup_cons_self, hkept a hbetween]
        exact .present hread
    · rw [hbetween] at hkept hfound
      have hlookup : ((name, value) :: rest).lookup key = rest.lookup key := by
        rw [List.lookup_cons, beq_false_of_ne hne.symm]
      rw [hlookup]
      exact ⟨hkept, hfound⟩

omit hset hothers

/-- The fields have a column with a name at a place, which reads a part of the draft of its own. -/
def IsColumn (fields : List (RecordField δ)) (key : String) (place : Nat) (read : Json → Read α)
    (get : δ → Option α) : Prop :=
  ∃ before set after, fields = before ++ .part key read get set :: after ∧ before.length = place ∧
    (∀ draft a, get (set draft a) = some a) ∧
    ∀ field ∈ before ++ after, field.name ≠ key ∧ field.Spares get

/-- Each column of a record that is read was found in the value that it is read from. -/
theorem readRecord_column {fields : List (RecordField δ)} {place : Nat} {blank : δ} {manner : Manner}
    {finish : (String → ReadError) → δ → Read β} {value : Json} {result : β}
    (hcolumn : IsColumn fields key place read get) (hblank : get blank = none)
    (h : readRecord fields blank manner finish value = .ok result) :
    ∃ missing draft, finish missing draft = .ok result ∧
      Found read (value.column? key place) (get draft) := by
  obtain ⟨before, set, after, rfl, rfl, hset, hothers⟩ := hcolumn
  cases value with
  | object members stop =>
    obtain ⟨draft, hfill, hrest⟩ := exists_of_bind_eq_ok h
    obtain ⟨-, -, hfinish⟩ := exists_of_bind_eq_ok hrest
    exact ⟨_, draft, hfinish, (fillNamed_column hset hothers hfill).2 hblank⟩
  | array items =>
    obtain ⟨draft, hfill, hfinish⟩ := exists_of_bind_eq_ok h
    exact ⟨_, draft, hfinish, fillPlaced_column hset hothers hblank hfill⟩
  | null | bool _ | natural _ | decimal _ | string _ | fault _ => cases h

end Columns

/-! ## Values and texts -/

/-- What is read of a text is read of the value that the text is. -/
theorem exists_root_of_readText {α : Type} {content : Json → Read α} {text : String} {a : α}
    (h : readText content text = .ok a) :
    ∃ root, Document.ofText text = ⟨root, false⟩ ∧ content root = .ok a := by
  obtain ⟨root, trailing, hdocument⟩ : ∃ root trailing, Document.ofText text = ⟨root, trailing⟩ :=
    ⟨_, _, rfl⟩
  rw [readText, hdocument] at h
  obtain ⟨found, hread, hend⟩ := exists_of_bind_eq_ok h
  cases trailing with
  | true => cases hend
  | false =>
    cases hend
    exact ⟨root, hdocument, hread⟩

/-- A value that may be `null` is `null` or read as what it is. -/
theorem of_readOption {α : Type} {read : Json → Read α} {value : Json} {found : Option α}
    (h : readOption read value = .ok found) :
    value = .null ∧ found = none ∨ ∃ a, read value = .ok a ∧ found = some a := by
  unfold readOption at h
  split at h
  · cases h
    exact .inl ⟨rfl, rfl⟩
  · cases hread : read value with
    | error e =>
      rw [hread] at h
      cases h
    | ok a =>
      rw [hread] at h
      cases h
      exact .inr ⟨a, rfl, rfl⟩

/-- An object of any values is read as what it holds. -/
theorem eq_entries_of_readObject {value : Json} {members : List (String × Json)}
    (h : readObject value = .ok members) : members = value.entries := by
  cases value with
  | object found stop =>
    obtain ⟨-, -, hrest⟩ := exists_of_bind_eq_ok h
    obtain ⟨-, -, hmembers⟩ := exists_of_bind_eq_ok hrest
    cases hmembers
    rfl
  | null | bool _ | natural _ | decimal _ | string _ | array _ | fault _ => cases h

/-- A list of strings is read from an array of just these. -/
theorem eq_of_readStrings {value : Json} {texts : List String}
    (h : readList readString value = .ok texts) : value = .array (texts.map .string) := by
  cases value with
  | array items =>
    rw [readList] at h
    congr 1
    induction items generalizing texts with
    | nil =>
      cases h
      rfl
    | cons item items ih =>
      obtain ⟨text, hitem, hrest⟩ := exists_of_bind_eq_ok h
      obtain ⟨others, hothers, hall⟩ := exists_of_bind_eq_ok hrest
      cases hall
      cases item with
      | string s =>
        cases hitem
        rw [ih hothers]
        rfl
      | null | bool _ | natural _ | decimal _ | array _ | object _ _ | fault _ => cases hitem
  | null | bool _ | natural _ | decimal _ | string _ | object _ _ | fault _ => cases h

end Json

end TraceGloss
