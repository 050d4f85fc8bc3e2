import TraceGloss.Tracer.Basic

/-
  A run, one step at a time.
  `take_eq` cuts a step in three: the step is decoded, the frames move, and the step is noted if it
  is kept. `moves_of_ok` says what a move can do to a run and `move_error` how it can fail.
  `Reaches` holds of the runs before each step of a trace: a run over all steps reaches the end of
  the trace, or a step at which it fails (`takeAll_ends`). Invariants of runs are inductions on
  `Reaches`.
-/
namespace TraceGloss

namespace Tracing

variable {σ α β : Type}

theorem run_pure (a : α) (supply : Supply σ) :
    (pure a : Tracing σ α).run supply = (.ok a, supply) := rfl

theorem run_bind (x : Tracing σ α) (f : α → Tracing σ β) (supply : Supply σ) :
    (x >>= f).run supply =
      match x.run supply with
      | (.ok a, s) => (f a).run s
      | (.error e, s) => (.error e, s) := by
  show ExceptT.bindCont f (x.run supply).1 (x.run supply).2 = _
  rcases x.run supply with ⟨_ | _, s⟩ <;> rfl

theorem bind_ok {x : Tracing σ α} {f : α → Tracing σ β} {supply supply' : Supply σ} {b : β}
    (h : (x >>= f).run supply = (.ok b, supply')) :
    ∃ a between, x.run supply = (.ok a, between) ∧ (f a).run between = (.ok b, supply') := by
  rw [run_bind] at h
  rcases hx : x.run supply with ⟨e | a, between⟩
  · rw [hx] at h
    cases h
  · rw [hx] at h
    exact ⟨a, between, rfl, h⟩

theorem bind_error {x : Tracing σ α} {f : α → Tracing σ β} {supply supply' : Supply σ}
    {e : TraceError} (h : (x >>= f).run supply = (.error e, supply')) :
    x.run supply = (.error e, supply') ∨
      ∃ a between, x.run supply = (.ok a, between) ∧ (f a).run between = (.error e, supply') := by
  rw [run_bind] at h
  rcases hx : x.run supply with ⟨e' | a, between⟩
  · rw [hx] at h
    cases h
    exact .inl rfl
  · rw [hx] at h
    exact .inr ⟨a, between, rfl, h⟩

end Tracing

open Tracing

/-- The run once a step is decoded. -/
def Run.decode (run : Run) (index : Nat) (s : Step) (next : Option Step) : Run :=
  let (decoded, decoder) := run.decoder.decode s ((next.map Step.stack).getD [])
  { run with
    decoder
    diagnostics :=
      if decoded.modelled then run.diagnostics else run.diagnostics.push (.unmodelled index s.op) }

namespace Tracer

variable {σ : Type} (tracer : Tracer σ)

/-- The note of a step, before a frame that it opens is left. -/
def note (index : Nat) (s : Step) (next : Option Step) (run : Run) : AnnotatedStep :=
  let decoded := (run.decoder.decode s ((next.map Step.stack).getD [])).1
  let source := run.frames.current.materials.bind fun found =>
    found.resolve s.pc.toNat (tracer.config.highlight.apply tracer.colour)
  { index, step := s, description := decoded.description, operands := decoded.operands,
    results := decoded.results, cost := (s.moveTo next).cost,
    address := run.frames.current.address, depthIndex := run.frames.depth,
    snippet := source.map (·.snippet), label := source.map (·.label) }

theorem take_eq (keep : Step → Bool) (index : Nat) (s : Step) (next : Option Step) (run : Run) :
    tracer.take keep index s next run = (do
      let moved ← tracer.move index s (run.decode index s next) (s.moveTo next)
      return if (s.moveTo next).isBoundary || keep s then
        { moved with steps := moved.steps.push (tracer.note index s next run) } else moved) := by
  rw [take]
  simp only [Run.decode, note]
  congr 1
  funext moved
  split <;> rfl

/-! ## Moves -/

/-- The materials of the contract that a step calls, if it calls one. -/
def calleeMaterials (index : Nat) (s : Step) (diagnostics : Array Diagnostic) :
    Tracing σ (Option Materials × Array Diagnostic) :=
  match s.callee? with
  | some address => tracer.materialsFor address false (some index) diagnostics
  | none => pure (none, diagnostics)

theorem openFrame_eq (index : Nat) (s next : Step) (run : Run) :
    tracer.openFrame index s next run = (do
      let found ← tracer.calleeMaterials index s run.diagnostics
      return ({ address := s.callee?, materials := found.1, gasAtEntry := next.gas,
                opener := some run.steps.size }, found.2)) := by
  cases h : s.callee? <;> simp only [openFrame, calleeMaterials, h]

/-- What a move does to a run when it succeeds. -/
inductive Moves (s : Step) (run : Run) : Move → Run → Prop
  | stop : Moves s run .stop run
  | stay (next : Step) : Moves s run (.stay next) run
  | into (gap : Nat) (next : Step) (materials : Option Materials)
      (diagnostics : Array Diagnostic) :
      Moves s run (.into gap next) { run with
        frames := run.frames.enter gap
          { address := s.callee?, materials, gasAtEntry := next.gas, opener := some run.steps.size }
        diagnostics }
  | out (levels : Nat) (next : Step) (frames : Frames) (steps : Array AnnotatedStep)
      (h : Frames.leave? next.gas levels run.frames run.steps = some (frames, steps)) :
      Moves s run (.out levels next) { run with frames, steps }

variable {tracer}

theorem moves_of_ok {index : Nat} {s : Step} {run moved : Run} {m : Move}
    {supply supply' : Supply σ}
    (h : (tracer.move index s run m).run supply = (.ok moved, supply')) : Moves s run m moved := by
  cases m with
  | stop =>
    cases h
    exact .stop
  | stay next =>
    cases h
    exact .stay next
  | into gap next =>
    obtain ⟨⟨frame, diagnostics⟩, between, hopen, hmoved⟩ := bind_ok h
    rw [openFrame_eq] at hopen
    obtain ⟨found, between', hfound, hframe⟩ := bind_ok hopen
    cases hframe
    cases hmoved
    exact .into gap next found.1 found.2
  | out levels next =>
    simp only [move] at h
    split at h
    · rename_i frames steps hleave
      cases h
      exact .out levels next frames steps hleave
    · cases h

theorem materialsFor_run (address : Address) (isCreation : Bool) (step : Option Nat)
    (diagnostics : Array Diagnostic) (supply : Supply σ) :
    (tracer.materialsFor address isCreation step diagnostics).run supply =
      match supply.get tracer.source address isCreation with
      | (.ok (some materials), s) => (.ok (some materials, diagnostics), s)
      | (.ok none, s) => (.ok (none, diagnostics.push (.materialsUnavailable address step)), s)
      | (.error cause, s) => (.error (.materialsFailed address cause), s) := by
  have hget : (modifyGet (Supply.get tracer.source address isCreation) : Tracing σ Fetched).run
      supply = (.ok (supply.get tracer.source address isCreation).1,
        (supply.get tracer.source address isCreation).2) := rfl
  rw [materialsFor, run_bind, hget]
  rcases supply.get tracer.source address isCreation with ⟨_ | _ | _, s⟩ <;> rfl

/-- A move fails when materials do, or when it leaves the outermost frame. -/
theorem move_error {index : Nat} {s : Step} {run : Run} {m : Move} {supply supply' : Supply σ}
    {e : TraceError} (h : (tracer.move index s run m).run supply = (.error e, supply')) :
    (∃ address cause, e = .materialsFailed address cause ∧
        (supply.get tracer.source address false).1 = .error cause) ∨
      ∃ levels next, m = .out levels next ∧ e = .frameUnderflow index s.pc s.op ∧
        Frames.leave? next.gas levels run.frames run.steps = none := by
  cases m with
  | stop => cases h
  | stay next => cases h
  | into gap next =>
    left
    rcases bind_error h with hopen | ⟨found, between, -, hmoved⟩
    · rw [openFrame_eq] at hopen
      rcases bind_error hopen with hfound | ⟨found, between, -, hframe⟩
      · unfold calleeMaterials at hfound
        split at hfound
        · rename_i address _
          rw [materialsFor_run] at hfound
          split at hfound
          · cases hfound
          · cases hfound
          · rename_i cause between hget
            cases hfound
            exact ⟨address, cause, rfl, by rw [hget]⟩
        · cases hfound
      · cases hframe
    · cases hmoved
  | out levels next =>
    right
    simp only [move] at h
    split at h
    · cases h
    · rename_i hleave
      cases h
      exact ⟨levels, next, rfl, rfl, hleave⟩

theorem take_ok {keep : Step → Bool} {index : Nat} {s : Step} {next : Option Step}
    {run run' : Run} {supply supply' : Supply σ}
    (h : (tracer.take keep index s next run).run supply = (.ok run', supply')) :
    ∃ moved, Moves s (run.decode index s next) (s.moveTo next) moved ∧
      run' = if (s.moveTo next).isBoundary || keep s then
        { moved with steps := moved.steps.push (tracer.note index s next run) } else moved := by
  rw [take_eq] at h
  obtain ⟨moved, between, hmove, hnoted⟩ := bind_ok h
  cases hnoted
  exact ⟨moved, moves_of_ok hmove, rfl⟩

theorem take_error {keep : Step → Bool} {index : Nat} {s : Step} {next : Option Step} {run : Run}
    {supply supply' : Supply σ} {e : TraceError}
    (h : (tracer.take keep index s next run).run supply = (.error e, supply')) :
    (tracer.move index s (run.decode index s next) (s.moveTo next)).run supply =
      (.error e, supply') := by
  rw [take_eq] at h
  rcases bind_error h with hmove | ⟨moved, between, -, hnoted⟩
  · exact hmove
  · cases hnoted

/-! ## Runs -/

/-- What is left of a trace starts with a step, the next one, and the rest behind it. -/
theorem of_drop_eq_cons {steps rest : List Step} {index : Nat} {s : Step}
    (h : steps.drop index = s :: rest) :
    steps[index]? = some s ∧ rest.head? = steps[index + 1]? ∧ steps.drop (index + 1) = rest := by
  have htail : steps.drop (index + 1) = rest := by
    rw [List.drop_add_one_eq_tail_drop, h, List.tail_cons]
  refine ⟨?_, ?_, htail⟩
  · rw [← List.head?_drop, h, List.head?_cons]
  · rw [← List.head?_drop, htail]

variable (tracer)

/-- The run and the supply before step `index` of a trace, when all steps before it succeed. -/
inductive Reaches (keep : Step → Bool) (steps : List Step) (start : Run) (supply : Supply σ) :
    Nat → Run → Supply σ → Prop
  | start : Reaches keep steps start supply 0 start supply
  | step {index : Nat} {s : Step} {run run' : Run} {between supply' : Supply σ}
      (before : Reaches keep steps start supply index run between)
      (hs : steps[index]? = some s)
      (h : (tracer.take keep index s steps[index + 1]? run).run between = (.ok run', supply')) :
      Reaches keep steps start supply (index + 1) run' supply'

variable {tracer}

theorem Reaches.index_le {keep : Step → Bool} {steps : List Step} {start run : Run}
    {supply between : Supply σ} {index : Nat}
    (h : tracer.Reaches keep steps start supply index run between) : index ≤ steps.length := by
  cases h with
  | start => exact Nat.zero_le _
  | step _ hs _ =>
    obtain ⟨hlt, -⟩ := List.getElem?_eq_some_iff.mp hs
    exact hlt

/-- How the rest of a run goes: to the end of the trace, or to a step that fails. -/
inductive Ends (tracer : Tracer σ) (keep : Step → Bool) (steps : List Step) (start : Run)
    (supply : Supply σ) : Except TraceError Run × Supply σ → Prop
  | ok {final : Run} {supply' : Supply σ}
      (h : tracer.Reaches keep steps start supply steps.length final supply') :
      Ends tracer keep steps start supply (.ok final, supply')
  | error {index : Nat} {s : Step} {run : Run} {between supply' : Supply σ} {e : TraceError}
      (before : tracer.Reaches keep steps start supply index run between)
      (hs : steps[index]? = some s)
      (h : (tracer.take keep index s steps[index + 1]? run).run between = (.error e, supply')) :
      Ends tracer keep steps start supply (.error e, supply')

theorem Reaches.ends {keep : Step → Bool} {steps : List Step} {start : Run} {supply : Supply σ}
    {rest : List Step} {index : Nat} {run : Run} {between : Supply σ}
    (h : tracer.Reaches keep steps start supply index run between)
    (hrest : steps.drop index = rest) :
    Ends tracer keep steps start supply ((tracer.takeAll keep index rest run).run between) := by
  induction rest generalizing index run between with
  | nil =>
    have hle := h.index_le
    have hge := List.drop_eq_nil_iff.mp hrest
    have hlast : index = steps.length := by omega
    subst hlast
    exact .ok h
  | cons s rest ih =>
    obtain ⟨hs, hnext, htail⟩ := of_drop_eq_cons hrest
    rw [takeAll, run_bind, hnext]
    rcases htake : (tracer.take keep index s steps[index + 1]? run).run between with ⟨e | run', s'⟩
    · exact .error h hs htake
    · exact ih (h.step hs htake) htail

variable (tracer)

/-- A run over a whole trace reaches its end, or fails at a step that it reaches. -/
theorem takeAll_ends (keep : Step → Bool) (steps : List Step) (start : Run) (supply : Supply σ) :
    Ends tracer keep steps start supply ((tracer.takeAll keep 0 steps start).run supply) :=
  Reaches.ends .start List.drop_zero

end Tracer

end TraceGloss
