import TraceGloss.Artifact
import TraceGloss.CodeTable

/-
  Where materials come from, and the memo in front of it.
  A `MaterialsSource` answers for an address with materials, with none, or with a failure; its answers
  may depend on a state that every call can change. A `Supply` remembers what the source answered to
  message calls, failures excepted: those leave an empty slot, which counts for nothing. Creations
  always reach the source: their materials describe the code that deploys a contract and not the code
  that stays.
-/
namespace TraceGloss

/-- Why materials could not be had. -/
inductive FetchError
  | artifact (error : ArtifactError)
  | failed (message : String)
deriving DecidableEq

namespace FetchError

def message : FetchError → String
  | artifact error => error.message
  | failed message => message

end FetchError

/-- The answer of a source; `none` if there are no materials. -/
abbrev Fetched := Except FetchError (Option Materials)

/-- A source of materials with a state of type `σ`. -/
structure MaterialsSource (σ : Type) where
  fetch (address : Address) (isCreation : Bool) (state : σ) : Fetched × σ

namespace MaterialsSource

variable {σ : Type}

/-- A source that keeps its state. -/
def ofFunction (answer : Address → Bool → Fetched) : MaterialsSource σ where
  fetch address isCreation state := (answer address isCreation, state)

end MaterialsSource

/-- No address has materials. -/
def noMaterials (_ : Address) (_ : Bool) : Fetched := .ok none

/-- The materials of the artifact that matches the code deployed at an address. -/
def artifactMaterials (table : CodeTable) (store : ArtifactStore) (address : Address)
    (isCreation : Bool) : Fetched :=
  match table.code? address with
  | none => .ok none
  | some code =>
    match store.find? code with
    | none => .ok none
    | some artifact =>
      match store.materials artifact isCreation with
      | .ok found => .ok (some found)
      | .error error => .error (.artifact error)

/-- What a source has answered so far, and its state. An address has a slot once a message call asked
for it, and the slot is filled once there was an answer. -/
structure Supply (σ : Type) where
  slots : Std.HashMap Address (Option (Option Materials)) := {}
  state : σ

namespace Supply

variable {σ : Type}

/-- The materials that are remembered for an address. -/
def known? (s : Supply σ) (address : Address) : Option (Option Materials) := s.slots[address]?.join

/-- The number of addresses whose materials are remembered. -/
def cached (s : Supply σ) : Nat := s.slots.toList.countP (·.2.isSome)

/-- Opens a slot for an address that has none. -/
def opened (s : Supply σ) (address : Address) : Supply σ :=
  { s with slots := s.slots.insertIfNew address none }

/-- Fills the slot of an address. -/
def filled (s : Supply σ) (address : Address) (found : Option Materials) : Supply σ :=
  { s with slots := s.slots.insert address (some found) }

/-- Materials for an address, from memory or from the source. -/
def get (source : MaterialsSource σ) (address : Address) (isCreation : Bool) (s : Supply σ) :
    Fetched × Supply σ :=
  if isCreation then
    let answer := source.fetch address true s.state
    (answer.1, { s with state := answer.2 })
  else
    let s := s.opened address
    match s.known? address with
    | some found => (.ok found, s)
    | none =>
      match source.fetch address false s.state with
      | (.ok found, state) => (.ok found, { s.filled address found with state })
      -- The slot stays empty, so the next call asks again.
      | (.error error, state) => (.error error, { s with state })

/-- What a request is answered with from memory. -/
def atHand? (s : Supply σ) (address : Address) (isCreation : Bool) : Option (Option Materials) :=
  if isCreation then none else s.known? address

theorem known?_opened (s : Supply σ) (address a : Address) :
    (s.opened address).known? a = s.known? a := by
  rw [known?, known?, opened, Std.HashMap.getElem?_insertIfNew]
  split
  · rename_i hnew
    obtain ⟨heq, hfree⟩ := hnew
    rw [beq_iff_eq] at heq
    subst heq
    rw [Std.HashMap.getElem?_eq_none hfree]
    rfl
  · rfl

theorem known?_filled (s : Supply σ) (address a : Address) (found : Option Materials) :
    (s.filled address found).known? a = if address = a then some found else s.known? a := by
  rw [known?, known?, filled, Std.HashMap.getElem?_insert]
  by_cases h : address = a
  · simp [h]
  · simp [h]

section Get

variable (source : MaterialsSource σ) {address : Address} {isCreation : Bool} {s : Supply σ}

theorem get_of_atHand {found : Option Materials} (h : s.atHand? address isCreation = some found) :
    s.get source address isCreation = (.ok found, s.opened address) := by
  cases isCreation with
  | true => cases h
  | false =>
    have hknown : s.known? address = some found := h
    simp only [get, known?_opened, hknown, Bool.false_eq_true, if_false]

/-- What is not at hand comes from the source, and is remembered of a message call that succeeds. -/
theorem get_of_missing (h : s.atHand? address isCreation = none) :
    (s.get source address isCreation).1 = (source.fetch address isCreation s.state).1 ∧
      (s.get source address isCreation).2.state = (source.fetch address isCreation s.state).2 ∧
      ∀ a, (s.get source address isCreation).2.known? a =
        if isCreation = false ∧ address = a then
          (source.fetch address isCreation s.state).1.toOption
        else s.known? a := by
  cases isCreation with
  | true => exact ⟨rfl, rfl, fun a => rfl⟩
  | false =>
    have hknown : s.known? address = none := h
    have hstate : (s.opened address).state = s.state := rfl
    simp only [get, known?_opened, hknown, hstate, Bool.false_eq_true, if_false, true_and]
    rcases source.fetch address false s.state with ⟨error | found, state⟩
    · refine ⟨rfl, rfl, fun a => ?_⟩
      show (s.opened address).known? a = if address = a then none else s.known? a
      split
      · rename_i heq
        rw [known?_opened, ← heq, hknown]
      · exact known?_opened s address a
    · refine ⟨rfl, rfl, fun a => ?_⟩
      show ((s.opened address).filled address found).known? a =
        if address = a then some found else s.known? a
      rw [known?_filled, known?_opened]

end Get

end Supply

end TraceGloss
