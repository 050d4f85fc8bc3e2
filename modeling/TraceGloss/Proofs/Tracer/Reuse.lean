import TraceGloss.Proofs.Supply.Requests
import TraceGloss.Proofs.Tracer.Stepping

/-
  One tracer for many calls.
  All that a tracer carries from call to call is its supply. Where two sources match from supplies
  that are related (`MaterialsSource.Matches`), computations that ask for materials go the same way
  (`Tracing.Same`), and so does a call wherever it stops (`perform_same`). Before a source that does
  not change its answers, a supply that has served calls answers like a new one
  (`serves_isFaithful`), and a recorded source shows that nothing is asked for again once it was
  answered (`serves_recorded`). Over a sequence of calls that is `performAll_alone`.
-/
namespace TraceGloss

open Tracing

/-! ## Calls -/

/-- A call to a tracer. -/
inductive Job (τ : Type)
  | receipt (options : Options τ) (receipt : Receipt)
  | raw (options : Options τ) (entry : EntryPoint) (raw : RawTrace)

/-- What the caller gets to see of a call. -/
def Outcome.shown {σ τ : Type} (outcome : Outcome σ τ) :
    Except TraceError AnnotatedTrace × List τ × Option RawTrace :=
  (outcome.answer, outcome.sinks, outcome.accepted)

namespace Tracer

variable {σ ρ τ : Type} (tracer : Tracer σ)

def perform (job : Job τ) (supply : Supply σ) : Outcome σ τ :=
  match job with
  | .receipt options receipt => tracer.trace options receipt supply
  | .raw options entry raw => tracer.traceRaw options entry raw supply

/-- Calls one after the other, and the supply behind them. -/
def performAll : List (Job τ) → Supply σ → List (Outcome σ τ) × Supply σ
  | [], supply => ([], supply)
  | job :: rest, supply =>
    let first := tracer.perform job supply
    let others := performAll rest first.supply
    (first :: others.1, others.2)

/-- The same settings with another source of materials. -/
def withSource (source : MaterialsSource ρ) : Tracer ρ where
  endpoint := tracer.endpoint
  source
  config := tracer.config
  colour := tracer.colour

end Tracer

/-! ## Two supplies -/

namespace Tracing

variable {σ ρ α β : Type} {I : Supply σ → Supply ρ → Prop}

/-- Two computations that answer the same from supplies related by `I`, and leave them related. -/
def Same (I : Supply σ → Supply ρ → Prop) (x : Tracing σ α) (y : Tracing ρ α) : Prop :=
  ∀ s t, I s t → (x.run s).1 = (y.run t).1 ∧ I (x.run s).2 (y.run t).2

theorem Same.pure (a : α) : Same I (Pure.pure a) (Pure.pure a) := fun _ _ h => ⟨rfl, h⟩

theorem Same.throw (e : TraceError) :
    Same I (throw e : Tracing σ α) (throw e : Tracing ρ α) := fun _ _ h => ⟨rfl, h⟩

theorem Same.bind {x : Tracing σ α} {y : Tracing ρ α} {f : α → Tracing σ β} {g : α → Tracing ρ β}
    (h : Same I x y) (hnext : ∀ a, Same I (f a) (g a)) : Same I (x >>= f) (y >>= g) := by
  intro s t hst
  obtain ⟨hanswer, hbetween⟩ := h s t hst
  rw [run_bind, run_bind]
  rcases hx : x.run s with ⟨answer, between⟩
  rcases hy : y.run t with ⟨answer', between'⟩
  rw [hx, hy] at hanswer hbetween
  subst hanswer
  cases answer with
  | ok a => exact hnext a between between' hbetween
  | error e => exact ⟨rfl, hbetween⟩

end Tracing

namespace Tracer

variable {σ ρ τ : Type} {tracer : Tracer σ} {other : MaterialsSource ρ}
  {I : Supply σ → Supply ρ → Prop} (h : tracer.source.Matches I other)
include h

theorem materialsFor_same (address : Address) (isCreation : Bool) (step : Option Nat)
    (diagnostics : Array Diagnostic) :
    Same I (tracer.materialsFor address isCreation step diagnostics)
      ((tracer.withSource other).materialsFor address isCreation step diagnostics) := by
  intro s t hst
  rcases hs : s.get tracer.source address isCreation with ⟨answer, after⟩
  rcases ht : t.get (tracer.withSource other).source address isCreation with ⟨answer', after'⟩
  obtain ⟨hanswer, hafter⟩ : answer = answer' ∧ I after after' := by
    have hmatch := h address isCreation s t hst
    rwa [hs, show t.get other address isCreation = (answer', after') from ht] at hmatch
  subst hanswer
  rw [materialsFor_run, materialsFor_run, hs, ht]
  rcases answer with error | _ | materials
  all_goals exact ⟨rfl, hafter⟩

theorem calleeMaterials_same (index : Nat) (s : Step) (diagnostics : Array Diagnostic) :
    Same I (tracer.calleeMaterials index s diagnostics)
      ((tracer.withSource other).calleeMaterials index s diagnostics) := by
  unfold calleeMaterials
  cases s.callee? with
  | some address => exact materialsFor_same h address false (some index) diagnostics
  | none => exact .pure _

theorem move_same (index : Nat) (s : Step) (run : Run) (m : Move) :
    Same I (tracer.move index s run m) ((tracer.withSource other).move index s run m) := by
  cases m with
  | stop => exact .pure run
  | stay next => exact .pure run
  | into gap next =>
    unfold move
    dsimp only
    rw [openFrame_eq, openFrame_eq]
    refine .bind (.bind (calleeMaterials_same h index s run.diagnostics) ?_) ?_
    · exact fun found => .pure _
    · exact fun opened => .pure _
  | out levels next =>
    unfold move
    dsimp only
    split
    · exact .pure _
    · exact .throw _

theorem take_same (keep : Step → Bool) (index : Nat) (s : Step) (next : Option Step) (run : Run) :
    Same I (tracer.take keep index s next run)
      ((tracer.withSource other).take keep index s next run) := by
  rw [take_eq, take_eq]
  exact .bind (move_same h index s (run.decode index s next) (s.moveTo next)) fun moved => .pure _

theorem takeAll_same (keep : Step → Bool) (steps : List Step) (index : Nat) (run : Run) :
    Same I (tracer.takeAll keep index steps run)
      ((tracer.withSource other).takeAll keep index steps run) := by
  induction steps generalizing index run with
  | nil => exact .pure run
  | cons s rest ih =>
    unfold takeAll
    exact .bind (take_same h keep index s rest.head? run) fun taken => ih (index + 1) taken

theorem annotate_same (options : Options τ) (entry : EntryPoint) (raw : RawTrace)
    (found : Option Materials × Array Diagnostic) :
    Same I (tracer.annotate options entry raw found)
      ((tracer.withSource other).annotate options entry raw found) := by
  unfold annotate
  exact .bind (takeAll_same h options.keepStep raw.steps 0 _) fun run => .pure _

/-- A call comes to the same from supplies that are related, and leaves them related, whether or not
it succeeds. -/
theorem traceRaw_same (options : Options τ) (entry : EntryPoint) (raw : RawTrace)
    {s : Supply σ} {t : Supply ρ} (hst : I s t) :
    (tracer.traceRaw options entry raw s).shown =
        ((tracer.withSource other).traceRaw options entry raw t).shown ∧
      I (tracer.traceRaw options entry raw s).supply
        ((tracer.withSource other).traceRaw options entry raw t).supply := by
  obtain ⟨hfound, hbetween⟩ :=
    materialsFor_same h entry.address entry.isCreation none #[] s t hst
  unfold traceRaw
  rcases hs : (tracer.materialsFor entry.address entry.isCreation none #[]).run s
    with ⟨found, between⟩
  rcases ht : ((tracer.withSource other).materialsFor entry.address entry.isCreation none #[]).run t
    with ⟨found', between'⟩
  rw [hs, ht] at hfound hbetween
  subst hfound
  cases found with
  | error e => exact ⟨rfl, hbetween⟩
  | ok found =>
    obtain ⟨htrace, hafter⟩ := annotate_same h options entry raw found between between' hbetween
    dsimp only
    rcases hs' : (tracer.annotate options entry raw found).run between with ⟨trace, after⟩
    rcases ht' : ((tracer.withSource other).annotate options entry raw found).run between'
      with ⟨trace', after'⟩
    rw [hs', ht'] at htrace hafter
    subst htrace
    cases trace with
    | error e => exact ⟨rfl, hafter⟩
    | ok trace => exact ⟨rfl, hafter⟩

theorem perform_same (job : Job τ) {s : Supply σ} {t : Supply ρ} (hst : I s t) :
    (tracer.perform job s).shown = ((tracer.withSource other).perform job t).shown ∧
      I (tracer.perform job s).supply ((tracer.withSource other).perform job t).supply := by
  cases job with
  | raw options entry raw => exact traceRaw_same h options entry raw hst
  | receipt options receipt =>
    unfold perform trace withSource
    dsimp only
    split
    · exact ⟨rfl, hst⟩
    · split
      · exact ⟨rfl, hst⟩
      · exact traceRaw_same h _ _ _ hst

end Tracer

/-! ## Sources that do not change their answers -/

namespace MaterialsSource

variable {σ ρ : Type}

/-- Whatever its state, the source answers as `answer` says. -/
def Answers (source : MaterialsSource σ) (answer : Address → Bool → Fetched) : Prop :=
  ∀ address isCreation state, (source.fetch address isCreation state).1 = answer address isCreation

/-- A source that always gives the same answer to the same request. -/
def IsSteady (source : MaterialsSource σ) : Prop := ∃ answer, source.Answers answer

/-- From a supply that holds to `J` every request is answered as `answer` says, and `J` holds on. -/
def Serves (source : MaterialsSource σ) (J : Supply σ → Prop) (answer : Address → Bool → Fetched) :
    Prop :=
  ∀ address isCreation s, J s →
    (s.get source address isCreation).1 = answer address isCreation ∧
      J (s.get source address isCreation).2

theorem Serves.matches {source : MaterialsSource σ} {other : MaterialsSource ρ}
    {J : Supply σ → Prop} {K : Supply ρ → Prop} {answer : Address → Bool → Fetched}
    (h : source.Serves J answer) (h' : other.Serves K answer) :
    source.Matches (fun s t => J s ∧ K t) other := by
  rintro address isCreation s t ⟨hs, ht⟩
  obtain ⟨hanswer, hafter⟩ := h address isCreation s hs
  obtain ⟨hanswer', hafter'⟩ := h' address isCreation t ht
  exact ⟨hanswer.trans hanswer'.symm, hafter, hafter'⟩

theorem answers_recorded {source : MaterialsSource σ} {answer : Address → Bool → Fetched}
    (h : source.Answers answer) : source.recorded.Answers answer :=
  fun address isCreation state => h address isCreation state.1

end MaterialsSource

/-- Whether a message call for an address was answered. -/
def Exchange.answers (address : Address) (e : Exchange) : Bool :=
  e.request = ⟨address, false⟩ && e.answer.toOption.isSome

namespace Supply

variable {σ : Type}

/-- Nothing is remembered but what message calls are answered with. -/
def IsFaithful (answer : Address → Bool → Fetched) (s : Supply σ) : Prop :=
  ∀ address found, s.known? address = some found → answer address false = .ok found

theorem isFaithful_new (answer : Address → Bool → Fetched) (state : σ) :
    ({ state } : Supply σ).IsFaithful answer := by
  intro address found hknown
  rw [known?_new] at hknown
  cases hknown

/-- A faithful supply answers as the source would, and stays faithful. -/
theorem serves_isFaithful {source : MaterialsSource σ} {answer : Address → Bool → Fetched}
    (hsource : source.Answers answer) : source.Serves (IsFaithful answer) answer := by
  intro address isCreation s h
  have hanswer : (s.get source address isCreation).1 = answer address isCreation := by
    cases hhand : s.atHand? address isCreation with
    | none => rw [(get_of_missing source hhand).1, hsource]
    | some found =>
      rw [get_of_atHand source hhand]
      cases isCreation with
      | true => cases hhand
      | false => exact (h address found hhand).symm
  refine ⟨hanswer, fun a found hknown => ?_⟩
  rw [known?_get] at hknown
  rcases Option.or_eq_some_iff.mp hknown with hbefore | ⟨-, hnew⟩
  · exact h a found hbefore
  · split at hnew
    · rename_i hcall
      obtain ⟨rfl, rfl⟩ := hcall
      have hfound : (answer address false).toOption = some found := by rwa [← hanswer]
      cases hgiven : answer address false with
      | error e =>
        rw [hgiven] at hfound
        cases hfound
      | ok given =>
        rw [hgiven] at hfound
        exact congrArg Except.ok (Option.some.inj hfound)
    · cases hnew

/-- As many message calls for an address were answered by the source as answers are remembered. -/
def IsFrugal (s : Supply (σ × List Exchange)) : Prop :=
  ∀ address, s.state.2.countP (Exchange.answers address) = (s.known? address).isSome.toNat

theorem isFrugal_new (state : σ) : ({ state := (state, []) } : Supply _).IsFrugal := by
  intro address
  rw [known?_new]
  rfl

/-- Only what is not remembered is asked for. -/
theorem IsFrugal.get (source : MaterialsSource σ) {s : Supply (σ × List Exchange)}
    (h : s.IsFrugal) (address : Address) (isCreation : Bool) :
    (s.get source.recorded address isCreation).2.IsFrugal := by
  intro a
  cases hhand : s.atHand? address isCreation with
  | some found =>
    rw [get_of_atHand _ hhand, known?_opened]
    exact h a
  | none =>
    obtain ⟨-, hstate, hknown⟩ := get_of_missing source.recorded hhand
    rw [hstate, hknown]
    show (s.state.2 ++ [_]).countP _ = _
    rw [List.countP_append, h a, List.countP_singleton]
    have hrequest : (⟨address, isCreation⟩ : Request) = ⟨a, false⟩ ↔
        isCreation = false ∧ address = a := Request.eq_call_iff
    by_cases hcall : isCreation = false ∧ address = a
    · have hmissing : s.known? a = none := by
        obtain ⟨rfl, rfl⟩ := hcall
        exact hhand
      rw [hmissing, if_pos hcall, Exchange.answers, decide_eq_true (hrequest.mpr hcall),
        Bool.true_and]
      show 0 + (if _ then 1 else 0) =
        (source.fetch address isCreation s.state.1).1.toOption.isSome.toNat
      cases (source.fetch address isCreation s.state.1).1 <;> rfl
    · rw [if_neg hcall, Exchange.answers, decide_eq_false (mt hrequest.mp hcall), Bool.false_and]
      rfl

/-- Before a recorded source, a supply stays frugal as well. -/
theorem serves_recorded {source : MaterialsSource σ} {answer : Address → Bool → Fetched}
    (hsource : source.Answers answer) :
    source.recorded.Serves (fun s => s.IsFaithful answer ∧ s.IsFrugal) answer := by
  rintro address isCreation s ⟨hfaithful, hfrugal⟩
  obtain ⟨hanswer, hafter⟩ := serves_isFaithful (MaterialsSource.answers_recorded hsource) address
    isCreation s hfaithful
  exact ⟨hanswer, hafter, hfrugal.get source address isCreation⟩

end Supply

namespace Tracer

variable {σ ρ τ : Type}

/-- Calls one after the other come to what each comes to from a supply `new`, if requests are answered
the same before and behind every call. -/
theorem shown_performAll (tracer : Tracer σ) {other : MaterialsSource ρ} {J : Supply σ → Prop}
    {K : Supply ρ → Prop} (h : tracer.source.Matches (fun s t => J s ∧ K t) other)
    {new : Supply ρ} (hnew : K new) (jobs : List (Job τ)) {s : Supply σ} (hs : J s) :
    (tracer.performAll jobs s).1.map Outcome.shown =
        jobs.map (fun job => ((tracer.withSource other).perform job new).shown) ∧
      J (tracer.performAll jobs s).2 := by
  induction jobs generalizing s with
  | nil => exact ⟨rfl, hs⟩
  | cons job rest ih =>
    obtain ⟨hfirst, hafter, -⟩ := perform_same h job ⟨hs, hnew⟩
    obtain ⟨hothers, hend⟩ := ih hafter
    exact ⟨congrArg₂ List.cons hfirst hothers, hend⟩

/-- A tracer can be used again. If its source does not change its answers, each call of a sequence
comes to what it comes to with a new tracer, whatever failed before; and in the whole sequence the
source answers at most one message call for an address. -/
theorem performAll_alone (tracer : Tracer σ) (hsource : tracer.source.IsSteady)
    (jobs : List (Job τ)) (state fresh : σ) :
    let alone := jobs.map fun job => (tracer.perform job { state := fresh }).shown
    let observed := (tracer.withSource tracer.source.recorded).performAll jobs
      { state := (state, []) }
    (tracer.performAll jobs { state }).1.map Outcome.shown = alone ∧
      observed.1.map Outcome.shown = alone ∧
      ∀ address, observed.2.state.2.countP (Exchange.answers address) ≤ 1 := by
  intro alone observed
  obtain ⟨answer, hanswer⟩ := hsource
  have hserves := Supply.serves_isFaithful hanswer
  have hrecords := Supply.serves_recorded hanswer
  have hfresh := Supply.isFaithful_new answer fresh
  obtain ⟨hshown, -⟩ := shown_performAll tracer (hserves.matches hserves) hfresh jobs
    (Supply.isFaithful_new answer state)
  obtain ⟨hshown', -, hfrugal⟩ := shown_performAll (tracer.withSource tracer.source.recorded)
    (hrecords.matches hserves) hfresh jobs
    ⟨Supply.isFaithful_new answer (state, []), Supply.isFrugal_new state⟩
  refine ⟨hshown, hshown', fun address => ?_⟩
  rw [hfrugal address]
  exact Bool.toNat_le _

/-- A tracer whose source counts its calls: there is nothing at the zero address, and no answer for
any other. -/
def patchy : Tracer Nat where
  endpoint tx := .error (.notRecorded tx)
  source :=
    { fetch := fun address _ calls =>
        (if address = .zero then .ok none else .error (.failed "node unavailable"), calls + 1) }

/-- A call of the zero address that returns past its caller. -/
def returnPastEntry : RawTrace where
  steps := [{ depth := 1, op := "CALL", stack := List.replicate 7 .zero },
    { depth := 2, op := "RETURN" }, { depth := 0, op := "STOP" }]

theorem performAll_alone_patchy :
    patchy.source.IsSteady ∧
      let jobs : List (Job Unit) := [.raw {} ⟨.zero, true⟩ returnPastEntry,
        .raw {} ⟨.zero, false⟩ returnPastEntry, .raw {} ⟨(Word.ofUInt64 1).toAddress, false⟩ {}]
      let observed := (patchy.withSource patchy.source.recorded).performAll jobs { state := (0, []) }
      (patchy.performAll jobs { state := 0 }).1.map Outcome.shown =
          (jobs.map fun job => (patchy.perform job { state := 9 }).shown) ∧
        observed.2.state.2.countP (Exchange.answers .zero) ≤ 1 := by
  have hsteady : patchy.source.IsSteady :=
    ⟨fun address _ => if address = .zero then .ok none else .error (.failed "node unavailable"),
      fun _ _ _ => rfl⟩
  refine ⟨hsteady, ?_⟩
  intro jobs observed
  obtain ⟨hshown, -, hfetches⟩ := performAll_alone patchy hsteady jobs 0 9
  exact ⟨hshown, hfetches .zero⟩

end Tracer

end TraceGloss
