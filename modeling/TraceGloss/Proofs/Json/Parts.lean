import Mathlib.Data.List.Nodup
import Mathlib.Data.List.Pairwise
import TraceGloss.Proofs.Json.Records
import TraceGloss.Proofs.Json.Columns

/-
  Records read part by part.
  The fields of a record are `Separate` if each reads a part of the draft of its own and all parts
  make up the draft. What such a record is read as depends on the values under each key alone, and
  neither on the order of the members nor on members with other keys: reading succeeds if and only if
  each key has at most one value, that value can be read, and all else is JSON
  (`Separate.fillNamed_eq_ok_iff`).
-/
namespace TraceGloss.Json

/-- The values of the members with a key. -/
def valuesOf (key : String) (members : List (String × Json)) : List Json :=
  (members.filter (·.1 = key)).map (·.2)

theorem valuesOf_cons_self (key : String) (value : Json) (rest : List (String × Json)) :
    valuesOf key ((key, value) :: rest) = value :: valuesOf key rest := by
  simp [valuesOf]

theorem valuesOf_cons_of_ne {key name : String} (h : name ≠ key) (value : Json)
    (rest : List (String × Json)) : valuesOf key ((name, value) :: rest) = valuesOf key rest := by
  simp [valuesOf, h]

theorem mem_valuesOf_iff {key : String} {value : Json} {members : List (String × Json)} :
    value ∈ valuesOf key members ↔ (key, value) ∈ members := by
  simp [valuesOf]

/-- What the values under its key make of a part: none leave it as it was, and one fills it if it was
open and the value can be read. -/
def Fills {α : Type} (read : Json → Read α) (values : List Json) (before after : Option α) : Prop :=
  values = [] ∧ after = before ∨
    ∃ value a, values = [value] ∧ before = none ∧ read value = .ok a ∧ after = some a

section Filling

variable {α : Type} {read : Json → Read α} {before after : Option α}

theorem fills_nil_iff : Fills read [] before after ↔ after = before := by simp [Fills]

theorem fills_some_iff {values : List Json} {a : α} :
    Fills read values (some a) after ↔ values = [] ∧ after = some a := by simp [Fills]

/-- What a part is filled with is determined. -/
theorem Fills.unique {values : List Json} {after' : Option α} (h : Fills read values before after)
    (h' : Fills read values before after') : after = after' := by
  rcases h with ⟨rfl, rfl⟩ | ⟨value, a, rfl, -, hread, rfl⟩
  · exact (fills_nil_iff.mp h').symm
  · rcases h' with ⟨⟨⟩, -⟩ | ⟨_, a', ⟨rfl, rfl⟩, -, hread', rfl⟩
    rw [hread] at hread'
    cases hread'
    rfl

theorem Fills.exists_read {values : List Json} (h : Fills read values before after) {value : Json}
    (hvalue : value ∈ values) : ∃ a, read value = .ok a := by
  rcases h with ⟨rfl, -⟩ | ⟨_, a, rfl, -, hread, -⟩
  · cases hvalue
  · rw [List.mem_singleton.mp hvalue]
    exact ⟨a, hread⟩

theorem fills_cons_iff {value : Json} {rest : List Json} :
    Fills read (value :: rest) before after ↔
      before = none ∧ ∃ a, read value = .ok a ∧ Fills read rest (some a) after := by
  simp only [fills_some_iff]
  rw [Fills]
  constructor
  · rintro (⟨⟨⟩, -⟩ | ⟨_, a, ⟨rfl, rfl⟩, hopen, hread, hafter⟩)
    exact ⟨hopen, a, hread, rfl, hafter⟩
  · rintro ⟨hopen, a, hread, rfl, hafter⟩
    exact .inr ⟨value, a, rfl, hopen, hread, hafter⟩

end Filling

/-- A field that reads one part of a draft. -/
structure PartField (δ : Type) where
  name : String
  {α : Type}
  read : Json → Read α
  get : δ → Option α
  set : δ → α → δ

namespace PartField

variable {δ : Type}

def field (f : PartField δ) : RecordField δ := .part f.name f.read f.get f.set

/-- Setting the part of one field does not touch that of the other. -/
def Spare (f g : PartField δ) : Prop :=
  (∀ draft a, g.get (f.set draft a) = g.get draft) ∧ ∀ draft a, f.get (g.set draft a) = f.get draft

end PartField

section Parts

variable {δ : Type}

/-- Fields with names and parts of their own, which make up the whole draft. -/
structure Separate (parts : List (PartField δ)) : Prop where
  nodup : (parts.map (·.name)).Nodup
  get_set : ∀ f ∈ parts, ∀ draft a, f.get (f.set draft a) = some a
  spare : parts.Pairwise PartField.Spare
  ext : ∀ draft draft', (∀ f ∈ parts, f.get draft = f.get draft') → draft = draft'

variable {parts : List (PartField δ)} (h : Separate parts)
include h

theorem Separate.eq_of_name {f g : PartField δ} (hf : f ∈ parts) (hg : g ∈ parts)
    (hname : f.name = g.name) : f = g :=
  List.inj_on_of_nodup_map h.nodup hf hg hname

theorem Separate.get_set_of_ne {f g : PartField δ} (hf : f ∈ parts) (hg : g ∈ parts)
    (hname : f.name ≠ g.name) (draft : δ) (a : f.α) : g.get (f.set draft a) = g.get draft := by
  have hsymm : Std.Symm (PartField.Spare (δ := δ)) := ⟨fun _ _ hspare => hspare.symm⟩
  have hne : f ≠ g := fun heq => hname (congrArg PartField.name heq)
  exact (h.spare.forall hf hg hne).1 draft a

theorem Separate.find? {f : PartField δ} (hf : f ∈ parts) :
    (parts.map (·.field)).find? (·.name == f.name) = some f.field := by
  cases hfind : (parts.map (·.field)).find? (·.name == f.name) with
  | none =>
    have hnone := List.find?_eq_none.mp hfind f.field (List.mem_map_of_mem hf)
    exact absurd (beq_self_eq_true f.name) hnone
  | some found =>
    have hname := List.find?_some hfind
    obtain ⟨g, hg, rfl⟩ := List.mem_map.mp (List.mem_of_find?_eq_some hfind)
    rw [h.eq_of_name hg hf (beq_iff_eq.mp hname)]

variable {value : Json} {rest : List (String × Json)} {draft filled : δ}

/-- A member that is a field is read into its part, which has to be open. -/
theorem Separate.fillNamed_cons {f : PartField δ} (hf : f ∈ parts) :
    fillNamed (parts.map (·.field)) ((f.name, value) :: rest) draft = .ok filled ↔
      f.get draft = none ∧ ∃ a, f.read value = .ok a ∧
        fillNamed (parts.map (·.field)) rest (f.set draft a) = .ok filled := by
  rw [fillNamed, h.find? hf]
  have hfilled : f.field.filled draft = (f.get draft).isSome := rfl
  dsimp only
  rw [hfilled]
  cases f.get draft with
  | some before =>
    constructor
    · intro hrecord
      cases hrecord
    · rintro ⟨hopen, -⟩
      cases hopen
  | none =>
    constructor
    · intro hrecord
      obtain ⟨between, hfill, hrest⟩ := exists_of_bind_eq_ok hrecord
      obtain ⟨a, hread, rfl⟩ := fill_part hfill
      exact ⟨rfl, a, hread, hrest⟩
    · rintro ⟨-, a, hread, hrest⟩
      have hfill : f.field.fill value draft = .ok (f.set draft a) :=
        congrArg (Except.map (f.set draft)) hread
      rw [Option.isSome_none, if_neg Bool.false_ne_true, hfill]
      exact hrest

omit h in
/-- A member that is no field has to be JSON and is passed over. -/
theorem fillNamed_cons_unknown {key : String} (hkey : key ∉ parts.map (·.name)) :
    fillNamed (parts.map (·.field)) ((key, value) :: rest) draft = .ok filled ↔
      value.intact = true ∧ fillNamed (parts.map (·.field)) rest draft = .ok filled := by
  have hfind : (parts.map (·.field)).find? (·.name == key) = none := by
    refine List.find?_eq_none.mpr fun field hfield heq => hkey ?_
    obtain ⟨f, hf, rfl⟩ := List.mem_map.mp hfield
    exact List.mem_map.mpr ⟨f, hf, beq_iff_eq.mp heq⟩
  rw [fillNamed, hfind]
  dsimp only [skip]
  cases value.intact with
  | true => exact (and_iff_right rfl).symm
  | false =>
    constructor
    · intro hrecord
      cases hrecord
    · rintro ⟨hintact, -⟩
      cases hintact

/-- A record is read if and only if the values under the key of each field fill its part and all other
members are JSON. -/
theorem Separate.fillNamed_eq_ok_iff (members : List (String × Json)) (draft filled : δ) :
    fillNamed (parts.map (·.field)) members draft = .ok filled ↔
      (∀ m ∈ members, m.1 ∉ parts.map (·.name) → m.2.intact = true) ∧
      ∀ f ∈ parts, Fills f.read (valuesOf f.name members) (f.get draft) (f.get filled) := by
  induction members generalizing draft with
  | nil =>
    constructor
    · rintro ⟨⟩
      exact ⟨List.forall_mem_nil _, fun f _ => fills_nil_iff.mpr rfl⟩
    · rintro ⟨-, hfills⟩
      rw [h.ext draft filled fun f hf => (fills_nil_iff.mp (hfills f hf)).symm]
      rfl
  | cons m rest ih =>
    obtain ⟨key, value⟩ := m
    rw [List.forall_mem_cons]
    by_cases hkey : key ∈ parts.map (·.name)
    · obtain ⟨f, hf, rfl⟩ := List.mem_map.mp hkey
      rw [h.fillNamed_cons hf]
      simp only [ih]
      constructor
      · rintro ⟨hopen, a, hread, hothers, hfills⟩
        refine ⟨⟨fun hnot => absurd hkey hnot, hothers⟩, fun g hg => ?_⟩
        by_cases hname : f.name = g.name
        · obtain rfl := h.eq_of_name hf hg hname
          rw [valuesOf_cons_self, fills_cons_iff]
          refine ⟨hopen, a, hread, ?_⟩
          rw [← h.get_set f hf draft a]
          exact hfills f hf
        · rw [valuesOf_cons_of_ne hname, ← h.get_set_of_ne hf hg hname draft a]
          exact hfills g hg
      · rintro ⟨⟨-, hothers⟩, hfills⟩
        have hfirst := hfills f hf
        rw [valuesOf_cons_self, fills_cons_iff] at hfirst
        obtain ⟨hopen, a, hread, hrest⟩ := hfirst
        refine ⟨hopen, a, hread, hothers, fun g hg => ?_⟩
        by_cases hname : f.name = g.name
        · obtain rfl := h.eq_of_name hf hg hname
          rw [h.get_set f hf]
          exact hrest
        · rw [h.get_set_of_ne hf hg hname, ← valuesOf_cons_of_ne hname value]
          exact hfills g hg
    · rw [fillNamed_cons_unknown hkey, ih, and_assoc]
      have hvalues : ∀ f ∈ parts,
          valuesOf f.name ((key, value) :: rest) = valuesOf f.name rest := by
        intro f hf
        exact valuesOf_cons_of_ne (fun heq => hkey (List.mem_map.mpr ⟨f, hf, heq.symm⟩)) value rest
      refine and_congr (by simp [hkey]) (and_congr_right' (forall₂_congr fun f hf => ?_))
      rw [hvalues f hf]

/-- A record is read from an object without faults of its own if its parts can be filled and the draft
can be finished. -/
theorem Separate.readRecord_eq_ok_iff {β : Type} {manner : Manner} {blank : δ}
    {finish : (String → ReadError) → δ → Read β} {members : List (String × Json)} {result : β} :
    readRecord (parts.map (·.field)) blank manner finish (record members) = .ok result ↔
      ∃ draft, (∀ m ∈ members, m.1 ∉ parts.map (·.name) → m.2.intact = true) ∧
        (∀ f ∈ parts, Fills f.read (valuesOf f.name members) (f.get blank) (f.get draft)) ∧
        finish (fun name => .mismatch (.missingField name)) draft = .ok result := by
  unfold record
  rw [readRecord]
  constructor
  · intro hread
    obtain ⟨draft, hfill, hfinish⟩ := exists_of_bind_eq_ok hread
    obtain ⟨hothers, hfills⟩ := (h.fillNamed_eq_ok_iff members blank draft).mp hfill
    exact ⟨draft, hothers, hfills, hfinish⟩
  · rintro ⟨draft, hothers, hfills, hfinish⟩
    rw [(h.fillNamed_eq_ok_iff members blank draft).mpr ⟨hothers, hfills⟩]
    exact hfinish

end Parts

end TraceGloss.Json
