import Mathlib.Data.Set.Card
import TraceGloss.Supply

/-
  A supply over any sequence of requests.
  `Supply.serve` makes requests one after the other; the source may answer each call as it likes, and a
  `recorded` source lists the calls that reach it. What a supply knows is what the message calls before
  were first answered with (`known?_serve`), so the history of answers decides which requests reach
  the source. No request can tell supplies that know the same (`matches_agrees`), and creations and
  failures leave what is known alone (`known?_ask_of_fleeting`), although a failure leaves an empty
  slot. `serves_requests` puts this together.
-/
namespace TraceGloss

/-- A request for the materials of a contract. -/
@[ext] structure Request where
  address : Address
  isCreation : Bool
deriving DecidableEq

theorem Request.eq_call_iff {r : Request} {address : Address} :
    r = ⟨address, false⟩ ↔ r.isCreation = false ∧ r.address = address := by
  rw [Request.ext_iff, and_comm]

/-- A request and its answer. -/
structure Exchange where
  request : Request
  answer : Fetched

/-- What a request is answered with if all that is known are the exchanges before: a message call gets
the materials that the same call was first answered with. -/
def recalled? (history : List Exchange) (r : Request) : Option (Option Materials) :=
  if r.isCreation then none
  else history.findSome? fun e => if e.request = r then e.answer.toOption else none

theorem recalled?_cons (e : Exchange) (history : List Exchange) (address : Address) :
    recalled? (e :: history) ⟨address, false⟩ =
      (if e.request = ⟨address, false⟩ then e.answer.toOption else none).or
        (recalled? history ⟨address, false⟩) := by
  simp only [recalled?, Bool.false_eq_true, if_false, List.findSome?_cons]
  split <;> rename_i h <;> simp [h]

/-- The source that also lists the calls that reach it, with its answers. -/
def MaterialsSource.recorded {σ : Type} (source : MaterialsSource σ) :
    MaterialsSource (σ × List Exchange) where
  fetch address isCreation state :=
    let answer := source.fetch address isCreation state.1
    (answer.1, answer.2, state.2 ++ [⟨⟨address, isCreation⟩, answer.1⟩])

/-- Every request is answered the same from supplies related by `I`, and leaves them related. -/
def MaterialsSource.Matches {σ ρ : Type} (I : Supply σ → Supply ρ → Prop)
    (source : MaterialsSource σ) (other : MaterialsSource ρ) : Prop :=
  ∀ address isCreation s t, I s t →
    (s.get source address isCreation).1 = (t.get other address isCreation).1 ∧
      I (s.get source address isCreation).2 (t.get other address isCreation).2

namespace Supply

variable {σ : Type} (source : MaterialsSource σ)

/-- One request. -/
def ask (r : Request) (s : Supply σ) : Fetched × Supply σ := s.get source r.address r.isCreation

/-- Requests one after the other, with their answers. -/
def serve : List Request → Supply σ → List Exchange × Supply σ
  | [], s => ([], s)
  | r :: rest, s =>
    let first := ask source r s
    let others := serve rest first.2
    (⟨r, first.1⟩ :: others.1, others.2)

variable {source}

/-! ## What is known -/

theorem known?_new (state : σ) (address : Address) :
    ({ state } : Supply σ).known? address = none := by
  simp [known?]

/-- What is known after a request: what was known before, or else its answer if that is remembered. -/
theorem known?_get (address : Address) (isCreation : Bool) (s : Supply σ) (a : Address) :
    (s.get source address isCreation).2.known? a =
      (s.known? a).or
        (if isCreation = false ∧ address = a then (s.get source address isCreation).1.toOption
          else none) := by
  cases hhand : s.atHand? address isCreation with
  | some found =>
    rw [get_of_atHand source hhand, known?_opened]
    split
    · rename_i hcall
      obtain ⟨rfl, rfl⟩ := hcall
      have hknown : s.known? address = some found := hhand
      rw [hknown, Option.some_or]
    · rw [Option.or_none]
  | none =>
    obtain ⟨hanswer, -, hknown⟩ := get_of_missing source hhand
    rw [hknown, hanswer]
    split
    · rename_i hcall
      obtain ⟨rfl, rfl⟩ := hcall
      have hmissing : s.known? address = none := hhand
      rw [hmissing, Option.none_or]
    · rw [Option.or_none]

theorem known?_ask (r : Request) (s : Supply σ) (address : Address) :
    (ask source r s).2.known? address =
      (s.known? address).or
        (if r = ⟨address, false⟩ then (ask source r s).1.toOption else none) := by
  simp only [Request.eq_call_iff]
  exact known?_get r.address r.isCreation s address

/-- What is known after a sequence of requests: what was known before, or else what the message calls
of it were first answered with. -/
theorem known?_serve (rs : List Request) (s : Supply σ) (address : Address) :
    (serve source rs s).2.known? address =
      (s.known? address).or (recalled? (serve source rs s).1 ⟨address, false⟩) := by
  induction rs generalizing s with
  | nil => exact (Option.or_none).symm
  | cons r rest ih =>
    show (serve source rest (ask source r s).2).2.known? address =
      (s.known? address).or (recalled? (_ :: _) _)
    rw [ih, known?_ask, recalled?_cons, Option.or_assoc]

theorem atHand?_serve (rs : List Request) (state : σ) (r : Request) :
    (serve source rs { state }).2.atHand? r.address r.isCreation =
      recalled? (serve source rs { state }).1 r := by
  obtain ⟨address, isCreation⟩ := r
  cases isCreation with
  | true => rfl
  | false =>
    show (serve source rs { state }).2.known? address = _
    rw [known?_serve, known?_new, Option.none_or]

/-! ## Two supplies -/

section Matches

variable {ρ : Type} {other : MaterialsSource ρ}

/-- The same requests are answered the same from supplies that are related, and leave them related. -/
theorem serve_matches {I : Supply σ → Supply ρ → Prop} (h : source.Matches I other) {s : Supply σ}
    {t : Supply ρ} (hst : I s t) (rs : List Request) :
    (serve source rs s).1 = (serve other rs t).1 ∧
      I (serve source rs s).2 (serve other rs t).2 := by
  induction rs generalizing s t with
  | nil => exact ⟨rfl, hst⟩
  | cons r rest ih =>
    obtain ⟨hfirst, hbehind⟩ := h r.address r.isCreation s t hst
    obtain ⟨hothers, hend⟩ := ih hbehind
    exact ⟨congrArg₂ List.cons (congrArg (Exchange.mk r) hfirst) hothers, hend⟩

/-- Supplies that know the same, before sources whose states are related by `R`. -/
structure Agrees (R : σ → ρ → Prop) (s : Supply σ) (t : Supply ρ) : Prop where
  state : R s.state t.state
  known? : ∀ address, s.known? address = t.known? address

/-- If two sources answer alike in states that are related, and stay related, no request can tell
supplies that know the same before them. -/
theorem matches_agrees {R : σ → ρ → Prop}
    (hfetch : ∀ address isCreation x y, R x y →
      (source.fetch address isCreation x).1 = (other.fetch address isCreation y).1 ∧
        R (source.fetch address isCreation x).2 (other.fetch address isCreation y).2) :
    source.Matches (Agrees R) other := by
  intro address isCreation s t h
  have hhand : s.atHand? address isCreation = t.atHand? address isCreation := by
    rw [atHand?, atHand?, h.known?]
  obtain ⟨hanswer, hstate⟩ :
      (s.get source address isCreation).1 = (t.get other address isCreation).1 ∧
        R (s.get source address isCreation).2.state (t.get other address isCreation).2.state := by
    cases ht : t.atHand? address isCreation with
    | some found =>
      rw [ht] at hhand
      rw [get_of_atHand source hhand, get_of_atHand other ht]
      exact ⟨rfl, h.state⟩
    | none =>
      rw [ht] at hhand
      obtain ⟨hs₁, hs₂, -⟩ := get_of_missing source hhand
      obtain ⟨ht₁, ht₂, -⟩ := get_of_missing other ht
      rw [hs₁, hs₂, ht₁, ht₂]
      exact hfetch address isCreation s.state t.state h.state
  refine ⟨hanswer, hstate, fun a => ?_⟩
  rw [known?_get, known?_get, h.known?, hanswer]

theorem matches_self : source.Matches (Agrees Eq) source :=
  matches_agrees fun address isCreation _ _ h => by
    subst h
    exact ⟨rfl, rfl⟩

/-- Recording changes no answer. -/
theorem matches_recorded :
    source.Matches (Agrees fun state noted => state = noted.1) source.recorded :=
  matches_agrees fun address isCreation _ _ h => by
    subst h
    exact ⟨rfl, rfl⟩

end Matches

/-! ## What leaves no trace -/

/-- The same memory before another source. -/
def withState {ρ : Type} (s : Supply σ) (state : ρ) : Supply ρ := { slots := s.slots, state }

/-- A creation changes nothing that is known, and neither does a failure. -/
theorem known?_ask_of_fleeting {r : Request} {s : Supply σ}
    (h : r.isCreation = true ∨ (ask source r s).1.toOption = none) (address : Address) :
    (ask source r s).2.known? address = s.known? address := by
  have hnothing : (if r = ⟨address, false⟩ then (ask source r s).1.toOption else none) = none := by
    rcases h with hcreation | hfailure
    · have hne : r ≠ ⟨address, false⟩ := by
        rintro rfl
        cases hcreation
      rw [if_neg hne]
    · rw [hfailure, ite_self]
  rw [known?_ask, hnothing, Option.or_none]

/-! ## How much is remembered -/

theorem isSome_known?_iff {s : Supply σ} {address : Address} :
    (s.known? address).isSome ↔ ∃ slot, s.slots[address]? = some slot ∧ slot.isSome := by
  rw [known?]
  cases s.slots[address]? with
  | none => simp
  | some slot => simp

theorem cached_eq_ncard (s : Supply σ) :
    s.cached = {address | (s.known? address).isSome}.ncard := by
  have hkeys : (s.slots.toList.map Prod.fst).Nodup := by
    have h := Std.HashMap.distinct_keys_toList (m := s.slots)
    rw [List.nodup_iff_pairwise_ne, List.pairwise_map]
    exact h.imp fun hne heq => by simp [heq] at hne
  let filled := s.slots.toList.filter (·.2.isSome)
  have hfilled : (filled.map Prod.fst).Nodup := hkeys.sublist (List.filter_sublist.map _)
  have hset : {address | (s.known? address).isSome} = (filled.map Prod.fst).toFinset := by
    ext address
    simp only [Set.mem_ofPred_eq, List.coe_toFinset, filled, List.mem_map, List.mem_filter]
    constructor
    · intro hsome
      obtain ⟨slot, hslot, hfound⟩ := isSome_known?_iff.mp hsome
      exact ⟨(address, slot), ⟨Std.HashMap.mem_toList_iff_getElem?_eq_some.mpr hslot, hfound⟩, rfl⟩
    · rintro ⟨⟨address, slot⟩, ⟨hmem, hfound⟩, rfl⟩
      exact isSome_known?_iff.mpr ⟨slot, Std.HashMap.mem_toList_iff_getElem?_eq_some.mp hmem, hfound⟩
  rw [hset, Set.ncard_coe_finset, List.toFinset_card_of_nodup hfilled, List.length_map, cached,
    List.countP_eq_length_filter]

theorem Agrees.cached {ρ : Type} {R : σ → ρ → Prop} {s : Supply σ} {t : Supply ρ}
    (h : Agrees R s t) : s.cached = t.cached := by
  rw [cached_eq_ncard, cached_eq_ncard]
  simp only [h.known?]

theorem isSome_recalled?_iff {history : List Exchange} {address : Address} :
    (recalled? history ⟨address, false⟩).isSome ↔
      ∃ found, ⟨⟨address, false⟩, .ok found⟩ ∈ history := by
  rw [recalled?, if_neg Bool.false_ne_true, List.findSome?_isSome_iff]
  constructor
  · rintro ⟨⟨r, answer⟩, hmem, hsome⟩
    obtain ⟨found, hfound⟩ := Option.isSome_iff_exists.mp hsome
    split at hfound
    · rename_i hr
      cases hr
      cases answer with
      | error => cases hfound
      | ok found => exact ⟨found, hmem⟩
    · cases hfound
  · rintro ⟨found, hmem⟩
    exact ⟨_, hmem, by rw [if_pos rfl]; rfl⟩

/-! ## Any sequence of requests -/

/-- Recording the calls changes no answer. Whatever requests came before, a request gets what a message
call like it was first answered with, and else it makes one call to the source and gets its answer. A
creation or a failure is as if it had never been made, whatever the source answers later. The
addresses that are remembered are those whose message calls were answered. -/
theorem serves_requests (source : MaterialsSource σ) (state : σ) (before : List Request)
    (r : Request) :
    let served := serve source.recorded before { state := (state, []) }
    let next := ask source.recorded r served.2
    let called := source.fetch r.address r.isCreation served.2.state.1
    served.1 = (serve source before { state }).1 ∧
    (match recalled? served.1 r with
      | some found => next.1 = .ok found ∧ next.2.state = served.2.state
      | none =>
        next.1 = called.1 ∧ next.2.state = (called.2, served.2.state.2 ++ [⟨r, called.1⟩])) ∧
    ((r.isCreation = true ∨ ∃ error, next.1 = .error error) →
      ∀ (ρ : Type) (other : MaterialsSource ρ) (start : ρ) (later : List Request),
        let made := serve other later (next.2.withState start)
        let unmade := serve other later (served.2.withState start)
        made.1 = unmade.1 ∧ made.2.state = unmade.2.state ∧ made.2.cached = unmade.2.cached) ∧
    served.2.cached = {address | ∃ found, ⟨⟨address, false⟩, .ok found⟩ ∈ served.1}.ncard := by
  intro served next called
  have hhand : served.2.atHand? r.address r.isCreation = recalled? served.1 r :=
    atHand?_serve before (state, []) r
  refine ⟨?_, ?_, ?_, ?_⟩
  · exact ((serve_matches matches_recorded ⟨rfl, fun _ => rfl⟩ before).1).symm
  · split
    · rename_i found hrecalled
      rw [hrecalled] at hhand
      have hnext : next = (.ok found, served.2.opened r.address) := get_of_atHand _ hhand
      rw [hnext]
      exact ⟨rfl, rfl⟩
    · rename_i hrecalled
      rw [hrecalled] at hhand
      obtain ⟨hanswer, hstate, -⟩ := get_of_missing source.recorded hhand
      exact ⟨hanswer, hstate⟩
  · intro hfleeting ρ other start later made unmade
    have hnothing : r.isCreation = true ∨ next.1.toOption = none := by
      refine hfleeting.imp_right ?_
      rintro ⟨error, herror⟩
      rw [herror]
      rfl
    have hagrees : Agrees Eq (next.2.withState start) (served.2.withState start) :=
      ⟨rfl, known?_ask_of_fleeting hnothing⟩
    obtain ⟨hanswers, hend⟩ : made.1 = unmade.1 ∧ Agrees Eq made.2 unmade.2 :=
      serve_matches matches_self hagrees later
    exact ⟨hanswers, hend.state, hend.cached⟩
  · have hknown : ∀ address, served.2.known? address = recalled? served.1 ⟨address, false⟩ :=
      fun address => atHand?_serve before (state, []) ⟨address, false⟩
    rw [cached_eq_ncard]
    simp only [hknown, isSome_recalled?_iff]

/-- A source whose first call fails; nothing has materials. -/
def failingOnce : MaterialsSource Nat where
  fetch _ _ calls := (if calls = 0 then .error (.failed "node unavailable") else .ok none, calls + 1)

/-- The failed call leaves the next one to be made, with the same answers as without it. -/
theorem serves_requests_failingOnce :
    let call : Request := ⟨.zero, false⟩
    let next := ask failingOnce.recorded call { state := (0, []) }
    next.1 = .error (.failed "node unavailable") ∧
      ∀ later : List Request,
        (serve failingOnce later (next.2.withState 1)).1 =
          (serve failingOnce later { state := 1 }).1 := by
  intro call next
  obtain ⟨-, ⟨hanswer, -⟩, hfleeting, -⟩ := serves_requests failingOnce 0 [] call
  have hfailed : next.1 = .error (.failed "node unavailable") := hanswer
  exact ⟨hfailed, fun later => (hfleeting (.inr ⟨_, hfailed⟩) Nat failingOnce 1 later).1⟩

end Supply

end TraceGloss
