import Mathlib.Data.List.Forall2
import TraceGloss.Proofs.Json.Parts

/-
  Values in other words.
  A reader respects a relation of values if it makes of the second value what it makes of the first.
  Lists and tables are respected with their items and entries, and a part of a record with the values
  of its column, also where the column may be left out (`Respects.fills_column`). A value without
  faults has none in other words either, so far as the relations of its parts say so
  (`KeepsReadable`).
-/
namespace TraceGloss.Json

/-- Of the second value the reader makes what it makes of the first. -/
def Respects {α : Type} (same : Json → Json → Prop) (read : Json → Read α) : Prop :=
  ∀ value value' a, same value value' → read value = .ok a → read value' = .ok a

/-- Where the first value has no fault, the second has none. -/
def KeepsReadable (same : Json → Json → Prop) : Prop :=
  ∀ value value', same value value' → value.readable = true → value'.readable = true

/-- Two arrays with the same items in other words. -/
def SameItems (same : Json → Json → Prop) (value value' : Json) : Prop :=
  ∃ items items', value = .array items ∧ value' = .array items' ∧ List.Forall₂ same items items'

/-- Two objects without faults of their own whose members are the same in other words. -/
def SameObject (same : List (String × Json) → List (String × Json) → Prop)
    (value value' : Json) : Prop :=
  ∃ members members', value = record members ∧ value' = record members' ∧ same members members'

/-- Two entries with the same key and the same value in other words. -/
def SameEntry (sameKey : String → String → Prop) (same : Json → Json → Prop)
    (entry entry' : String × Json) : Prop :=
  sameKey entry.1 entry'.1 ∧ same entry.2 entry'.2

/-- A column that is left out or has a value that counts as nothing. -/
def IsBlank (empties values : List Json) : Prop := values = [] ∨ ∃ value ∈ empties, values = [value]

/-- Two columns that are both blank, or have the same value in other words. -/
inductive SameColumn (empties : List Json) (same : Json → Json → Prop) :
    List Json → List Json → Prop
  | blank {values values' : List Json} (h : IsBlank empties values) (h' : IsBlank empties values') :
    SameColumn empties same values values'
  | present {value value' : Json} (h : same value value') :
    SameColumn empties same [value] [value']

variable {α : Type} {read : Json → Read α} {same : Json → Json → Prop}

/-! ## What a reader does not tell apart -/

theorem Respects.items (h : Respects same read) {items items' : List Json} {as : List α}
    (hitems : List.Forall₂ same items items') (hread : readItems read items = .ok as) :
    readItems read items' = .ok as := by
  induction hitems generalizing as with
  | nil => exact hread
  | cons hsame _ ih =>
    obtain ⟨a, hfirst, hrest⟩ := exists_of_bind_eq_ok hread
    obtain ⟨others, hothers, hall⟩ := exists_of_bind_eq_ok hrest
    rw [readItems, h _ _ a hsame hfirst, ih hothers]
    exact hall

theorem exists_of_readItems {items : List Json} {as : List α} (h : readItems read items = .ok as)
    {item : Json} (hitem : item ∈ items) : ∃ a, read item = .ok a := by
  induction items generalizing as with
  | nil => cases hitem
  | cons first rest ih =>
    obtain ⟨a, hfirst, hbehind⟩ := exists_of_bind_eq_ok h
    obtain ⟨others, hothers, -⟩ := exists_of_bind_eq_ok hbehind
    rcases List.mem_cons.mp hitem with rfl | hrest
    · exact ⟨a, hfirst⟩
    · exact ih hothers hrest

theorem Respects.list (h : Respects same read) : Respects (SameItems same) (readList read) := by
  rintro _ _ as ⟨items, items', rfl, rfl, hitems⟩ hread
  exact h.items hitems hread

theorem readOption_of_ne_null {value : Json} (h : value ≠ .null) :
    readOption read value = (read value).map some := readOption.eq_2 read value h

/-- Where nothing is `null`, a value that may be is respected as one that may not. -/
theorem Respects.option (h : Respects same read)
    (hnull : ∀ value value', same value value' → value ≠ .null ∧ value' ≠ .null) :
    Respects same (readOption read) := by
  intro value value' found hsame hread
  obtain ⟨hvalue, hvalue'⟩ := hnull value value' hsame
  rcases of_readOption hread with ⟨hnull, -⟩ | ⟨a, hpresent, rfl⟩
  · exact absurd hnull hvalue
  · rw [readOption_of_ne_null hvalue', h value value' a hsame hpresent]
    rfl

theorem respects_eq (read : Json → Read α) : Respects Eq read := by
  rintro value _ a rfl hread
  exact hread

section Tables

variable {κ : Type} [LT κ] [DecidableLT κ] [LinearKey κ] {key : String → Read κ}
  {sameKey : String → String → Prop}
  (hkey : ∀ name name' k, sameKey name name' → key name = .ok k → key name' = .ok k)
include hkey

theorem Respects.bindings (h : Respects same read) {members members' : List (String × Json)}
    (hmembers : List.Forall₂ (SameEntry sameKey same) members members') {table whole : Table κ α}
    (hread : readBindings key read members table = .ok whole) :
    readBindings key read members' table = .ok whole := by
  induction hmembers generalizing table with
  | nil => exact hread
  | cons hsame _ ih =>
    obtain ⟨k, hname, hbehind⟩ := exists_of_bind_eq_ok hread
    obtain ⟨a, hvalue, hrest⟩ := exists_of_bind_eq_ok hbehind
    rw [readBindings, hkey _ _ k hsame.1 hname, h _ _ a hsame.2 hvalue]
    exact ih hrest

theorem Respects.table (h : Respects same read) :
    Respects (SameObject (List.Forall₂ (SameEntry sameKey same))) (readTable key read) := by
  rintro _ _ whole ⟨members, members', rfl, rfl, hmembers⟩ hread
  obtain ⟨table, hbindings, hend⟩ := exists_of_bind_eq_ok hread
  unfold record
  rw [readTable, h.bindings hkey hmembers hbindings]
  exact hend

end Tables

/-! ## Columns in other words -/

/-- A part is filled with the same from a column of the same values in other words. -/
theorem Respects.fills (h : Respects same read) {values values' : List Json} {after : Option α}
    (hvalues : List.Forall₂ same values values') (hfills : Fills read values none after) :
    Fills read values' none after := by
  rcases hfills with ⟨rfl, rfl⟩ | ⟨value, a, rfl, -, hread, rfl⟩
  · cases hvalues
    exact .inl ⟨rfl, rfl⟩
  · obtain ⟨value', _, hsame, hrest, rfl⟩ := List.forall₂_cons_left_iff.mp hvalues
    cases hrest
    exact .inr ⟨value', a, rfl, rfl, h value value' a hsame hread, rfl⟩

section Blanks

variable {β : Type} (mean : Option α → β) {empties : List Json} {values : List Json}
  {after : Option α}
  (hblank : ∀ value ∈ empties, ∃ a, read value = .ok a ∧ mean (some a) = mean none)
include hblank

/-- A blank column can be read, and means the same as one that is left out. -/
theorem IsBlank.fills (h : IsBlank empties values) :
    ∃ after, Fills read values none after ∧ mean after = mean none := by
  rcases h with rfl | ⟨value, hvalue, rfl⟩
  · exact ⟨none, .inl ⟨rfl, rfl⟩, rfl⟩
  · obtain ⟨a, hread, hmean⟩ := hblank value hvalue
    exact ⟨some a, .inr ⟨value, a, rfl, rfl, hread, rfl⟩, hmean⟩

/-- A part means the same, whichever way its column is in other words. -/
theorem Respects.fills_column (h : Respects same read) {values' : List Json}
    (hvalues : SameColumn empties same values values') (hfills : Fills read values none after) :
    ∃ after', Fills read values' none after' ∧ mean after' = mean after := by
  cases hvalues with
  | present hsame => exact ⟨after, h.fills (.cons hsame .nil) hfills, rfl⟩
  | blank hvalues hvalues' =>
    obtain ⟨after', hfills', hmean'⟩ := hvalues'.fills mean hblank
    obtain ⟨before, hbefore, hmean⟩ := hvalues.fills mean hblank
    -- Both are what is read of the same column.
    have hafter : after = before := hfills.unique hbefore
    exact ⟨after', hfills', by rw [hmean', hafter, hmean]⟩

end Blanks

/-! ## Values without faults -/

theorem readable_array_iff (items : List Json) :
    (array items).readable = true ↔ ∀ item ∈ items, item.readable = true := by
  rw [readable]
  induction items with
  | nil => exact iff_of_true rfl (List.forall_mem_nil _)
  | cons item rest ih => rw [readableItems, Bool.and_eq_true, ih, List.forall_mem_cons]

theorem KeepsReadable.values (h : KeepsReadable same) {values values' : List Json}
    (hvalues : List.Forall₂ same values values') (hreadable : ∀ v ∈ values, v.readable = true) :
    ∀ v ∈ values', v.readable = true := by
  induction hvalues with
  | nil => exact hreadable
  | cons hsame _ ih =>
    obtain ⟨hfirst, hrest⟩ := List.forall_mem_cons.mp hreadable
    exact List.forall_mem_cons.mpr ⟨h _ _ hsame hfirst, ih hrest⟩

theorem KeepsReadable.items (h : KeepsReadable same) : KeepsReadable (SameItems same) := by
  rintro _ _ ⟨items, items', rfl, rfl, hitems⟩ hreadable
  exact (readable_array_iff items').mpr (h.values hitems ((readable_array_iff items).mp hreadable))

theorem KeepsReadable.entries (h : KeepsReadable same) {sameKey : String → String → Prop} :
    KeepsReadable (SameObject (List.Forall₂ (SameEntry sameKey same))) := by
  rintro _ _ ⟨members, members', rfl, rfl, hmembers⟩ hreadable
  rw [readable_record_iff] at hreadable ⊢
  induction hmembers with
  | nil => exact hreadable
  | cons hsame _ ih =>
    obtain ⟨hfirst, hrest⟩ := List.forall_mem_cons.mp hreadable
    exact List.forall_mem_cons.mpr ⟨h _ _ hsame.2 hfirst, ih hrest⟩

theorem keepsReadable_eq : KeepsReadable Eq := by
  rintro value _ rfl hreadable
  exact hreadable

theorem KeepsReadable.column (h : KeepsReadable same) {empties values values' : List Json}
    (hempties : ∀ v ∈ empties, v.readable = true) (hvalues : SameColumn empties same values values')
    (hreadable : ∀ v ∈ values, v.readable = true) : ∀ v ∈ values', v.readable = true := by
  cases hvalues with
  | present hsame => exact h.values (.cons hsame .nil) hreadable
  | blank _ hblank =>
    rcases hblank with rfl | ⟨value, hvalue, rfl⟩
    · exact List.forall_mem_nil _
    · exact List.forall_mem_singleton.mpr (hempties value hvalue)

/-- An object has no fault if its columns and all other values have none. -/
theorem readable_of_columns {names : List String} {members : List (String × Json)}
    (hcolumns : ∀ name ∈ names, ∀ value ∈ valuesOf name members, value.readable = true)
    (hothers : ∀ m ∈ members, m.1 ∉ names → m.2.readable = true) :
    (record members).readable = true := by
  refine (readable_record_iff members).mpr fun m hm => ?_
  by_cases hname : m.1 ∈ names
  · exact hcolumns m.1 hname m.2 (mem_valuesOf_iff.mpr hm)
  · exact hothers m hm hname

theorem readable_of_mem_valuesOf {members : List (String × Json)} {name : String}
    (hreadable : (record members).readable = true) :
    ∀ value ∈ valuesOf name members, value.readable = true :=
  fun value hvalue =>
    (readable_record_iff members).mp hreadable (name, value) (mem_valuesOf_iff.mp hvalue)

end TraceGloss.Json
