import TraceGloss.Proofs.Decoder.Preimages
import TraceGloss.Proofs.Tracer.Depths
import TraceGloss.Proofs.Tracer.Reuse

/-
  The diagnostics of a trace.
  `diagnosed` reads them off the recorded trace and the replies to the requests for materials: the
  entry first, and then of each step that it is opaque and that its callee has no materials. The
  requests are read off the trace too (`requestAt?`), so a reply is that of a supply that has served
  the requests before, from its memory or not. `Diagnoses` says that a run has listed just that so
  far. Every step preserves it (`Diagnoses.take`), whether or not the step is kept, so every annotated
  trace has the diagnostics that are read off (`diagnoses_traceRaw`).
-/
namespace TraceGloss

open Tracing

/-! ## Opaque steps -/

/-- A step of which only the name can be shown: its name is not that of an instruction, or is that of
one that is never read, or it is a hash and its window cannot be read. -/
def Step.IsOpaque (s : Step) : Prop :=
  s.op ∉ Opcode.spellings.map Prod.fst ∨ s.op ∈ unmodelledNames ∨
    s.op ∈ hashNames ∧ s.windowBytes? = none

instance (s : Step) : Decidable s.IsOpaque :=
  inferInstanceAs (Decidable (_ ∨ _ ∨ _ ∧ _))

theorem Opcode.ofMnemonic?_eq_none_iff {name : String} :
    ofMnemonic? name = none ↔ name ∉ spellings.map Prod.fst := by
  rw [ofMnemonic?, List.lookup_eq_none_iff, List.mem_map]
  constructor
  · rintro h ⟨x, hx, rfl⟩
    exact absurd (h x hx) (by simp)
  · intro h x hx
    rw [bne_iff_ne]
    rintro rfl
    exact h ⟨x, hx, rfl⟩

theorem reading?_eq_none_iff (s : Step) (next : List Word) :
    reading? s next = none ↔ s.IsOpaque := by
  unfold Step.IsOpaque
  rw [← Opcode.ofMnemonic?_eq_none_iff, ← StackEffect.names_hash, ← StackEffect.names_unmodelled,
    StackEffect.mem_names_iff, StackEffect.mem_names_iff]
  cases hop : s.opcode? with
  | none =>
    have hunknown : Opcode.ofMnemonic? s.op = none := hop
    simp [reading?, hop, hunknown]
  | some op =>
    have hknown : Opcode.ofMnemonic? s.op = some op := hop
    simp only [hknown, Option.some.injEq, exists_eq_left', reduceCtorEq, false_or]
    cases heffect : op.stackEffect with
    | hash => simp [reading_of_hash hop heffect, hashWindow?_eq]
    | unmodelled => simp [reading?, hop, heffect]
    | fixed inputs outputs derives | push width | dup n | swap n | log topics =>
      simp [reading?, hop, heffect]

theorem Decoder.modelled_decode (d : Decoder) (s : Step) (next : List Word) :
    (d.decode s next).1.modelled = !decide s.IsOpaque := by
  cases hread : reading? s next with
  | none =>
    have hopaque := (reading?_eq_none_iff s next).mp hread
    rw [decode_of_unread hread, decide_eq_true hopaque]
    rfl
  | some r =>
    have hclear : ¬ s.IsOpaque := by
      rw [← reading?_eq_none_iff s next, hread]
      exact Option.some_ne_none r
    rw [decode_of_reading hread, decide_eq_false hclear]
    rfl

/-! ## What there is to list -/

/-- The request for the materials of the entry. -/
def EntryPoint.request (entry : EntryPoint) : Request := ⟨entry.address, entry.isCreation⟩

/-- The request that step `i` makes: it enters a frame, and is a message call with an address below
the top of its stack. -/
def requestAt? (steps : List Step) (i : Nat) : Option Request :=
  if depthAt steps i < depthAt steps (i + 1) then
    (steps[i]?).bind fun s =>
      if s.op ∈ messageCalls then (fromTop? s.stack 1).map fun w => ⟨w.toAddress, false⟩ else none
  else none

/-- The requests that are made before step `i`. -/
def requestsBefore (entry : EntryPoint) (steps : List Step) (i : Nat) : List Request :=
  entry.request :: (List.range i).filterMap (requestAt? steps)

/-- What is listed of a request with this reply. -/
def unavailable (r : Request) (step : Option Nat) : Fetched → List Diagnostic
  | .ok none => [.materialsUnavailable r.address step]
  | _ => []

/-- What is listed of decoding step `i`. -/
def opaqueAt (steps : List Step) (i : Nat) : List Diagnostic :=
  match steps[i]? with
  | some s => if s.IsOpaque then [.unmodelled i s.op] else []
  | none => []

section Diagnosed

/- The reply to a request, by the requests before it. -/
variable (reply : List Request → Request → Fetched) (entry : EntryPoint) (steps : List Step)

/-- What is listed of the frame that step `i` enters. -/
def unavailableAt (i : Nat) : List Diagnostic :=
  match requestAt? steps i with
  | some r => unavailable r (some i) (reply (requestsBefore entry steps i) r)
  | none => []

/-- What is listed before step `n`. -/
def diagnosedBefore (n : Nat) : List Diagnostic :=
  unavailable entry.request none (reply [] entry.request) ++
    (List.range n).flatMap fun i => opaqueAt steps i ++ unavailableAt reply entry steps i

/-- The diagnostics of a whole trace. -/
def diagnosed : List Diagnostic := diagnosedBefore reply entry steps steps.length

variable {entry steps}

theorem requestsBefore_succ (i : Nat) :
    requestsBefore entry steps (i + 1) =
      requestsBefore entry steps i ++ (requestAt? steps i).toList := by
  rw [requestsBefore, List.range_succ, List.filterMap_append, ← List.cons_append,
    ← requestsBefore]
  cases h : requestAt? steps i <;> simp [h]

theorem diagnosedBefore_succ (n : Nat) :
    diagnosedBefore reply entry steps (n + 1) =
      diagnosedBefore reply entry steps n ++
        (opaqueAt steps n ++ unavailableAt reply entry steps n) := by
  rw [diagnosedBefore, List.range_succ, List.flatMap_append, List.flatMap_singleton,
    ← List.append_assoc, ← diagnosedBefore]

end Diagnosed

/-! ## Replies -/

namespace Supply

variable {σ : Type} {source : MaterialsSource σ}

theorem serve_append (rs others : List Request) (s : Supply σ) :
    (serve source (rs ++ others) s).2 = (serve source others (serve source rs s).2).2 := by
  induction rs generalizing s with
  | nil => rfl
  | cons r rest ih => exact ih (ask source r s).2

variable (source) in
/-- The reply to a request behind others. -/
def replyTo (s : Supply σ) (before : List Request) (r : Request) : Fetched :=
  (ask source r (serve source before s).2).1

/-- If the source does not change its answers, they are the replies to all requests. -/
theorem replyTo_of_answers {answer : Address → Bool → Fetched} (hsource : source.Answers answer)
    {s : Supply σ} (h : s.IsFaithful answer) (before : List Request) (r : Request) :
    replyTo source s before r = answer r.address r.isCreation := by
  induction before generalizing s with
  | nil => exact (serves_isFaithful hsource r.address r.isCreation s h).1
  | cons first rest ih =>
    obtain ⟨-, hafter⟩ := serves_isFaithful hsource first.address first.isCreation s h
    exact ih hafter

end Supply

/-! ## Moves -/

/-- The request for the materials of the contract that a step calls. -/
def Step.request? (s : Step) : Option Request := s.callee?.map fun address => ⟨address, false⟩

/-- The request that a step makes when it moves. -/
def Move.request? (s : Step) : Move → Option Request
  | .into _ _ => s.request?
  | _ => none

theorem requestAt?_eq {steps : List Step} {i : Nat} {s : Step} (hs : steps[i]? = some s) :
    requestAt? steps i = (s.moveTo steps[i + 1]?).request? s := by
  have hrequest : s.request? =
      if s.op ∈ messageCalls then (fromTop? s.stack 1).map fun w => ⟨w.toAddress, false⟩
      else none := by
    rw [Step.request?, callee?_eq]
    split
    · rw [Option.map_map]
      rfl
    · rfl
  rw [requestAt?, hs, Option.bind_some, ← hrequest]
  cases hnext : steps[i + 1]? with
  | none =>
    have hend : depthAt steps (i + 1) = 0 := by simp [depthAt, hnext]
    rw [if_neg (by omega)]
    rfl
  | some next =>
    rcases moveTo_cases hs hnext with ⟨hlt, hmove⟩ | ⟨heq, hmove⟩ | ⟨hgt, hmove⟩
    · rw [if_pos hlt, hmove]
      rfl
    · rw [if_neg (by omega), hmove]
      rfl
    · rw [if_neg (by omega), hmove]
      rfl

namespace Tracer

variable {σ τ : Type} {tracer : Tracer σ} {supply after : Supply σ}

/-- Asking for materials is one request; that there are none is listed. -/
theorem listed_of_materialsFor {r : Request} {step : Option Nat} {diagnostics : Array Diagnostic}
    {found : Option Materials × Array Diagnostic}
    (h : (tracer.materialsFor r.address r.isCreation step diagnostics).run supply =
      (.ok found, after)) :
    after = (Supply.ask tracer.source r supply).2 ∧
      found.2.toList =
        diagnostics.toList ++ unavailable r step (Supply.ask tracer.source r supply).1 := by
  rw [materialsFor_run] at h
  rw [Supply.ask]
  rcases hget : supply.get tracer.source r.address r.isCreation with
    ⟨error | _ | materials, between⟩ <;> rw [hget] at h
  · cases h
  · cases h
    exact ⟨rfl, Array.toList_push⟩
  · cases h
    exact ⟨rfl, (List.append_nil _).symm⟩

theorem listed_of_calleeMaterials {index : Nat} {s : Step} {diagnostics : Array Diagnostic}
    {found : Option Materials × Array Diagnostic}
    (h : (tracer.calleeMaterials index s diagnostics).run supply = (.ok found, after)) :
    after = (Supply.serve tracer.source s.request?.toList supply).2 ∧
      found.2.toList = diagnostics.toList ++ s.request?.toList.flatMap fun r =>
        unavailable r (some index) (Supply.ask tracer.source r supply).1 := by
  unfold calleeMaterials at h
  unfold Step.request?
  cases hcallee : s.callee? with
  | none =>
    rw [hcallee] at h
    cases h
    exact ⟨rfl, (List.append_nil _).symm⟩
  | some address =>
    rw [hcallee] at h
    obtain ⟨hserved, hlisted⟩ := listed_of_materialsFor (r := ⟨address, false⟩) h
    refine ⟨hserved, ?_⟩
    rw [hlisted, Option.map_some, Option.toList_some, List.flatMap_singleton]

/-- A move serves its request, and lists what is unavailable. -/
theorem listed_of_move {index : Nat} {s : Step} {run moved : Run} {m : Move}
    (h : (tracer.move index s run m).run supply = (.ok moved, after)) :
    after = (Supply.serve tracer.source (m.request? s).toList supply).2 ∧
      moved.diagnostics.toList = run.diagnostics.toList ++
        (m.request? s).toList.flatMap fun r =>
          unavailable r (some index) (Supply.ask tracer.source r supply).1 := by
  cases m with
  | stop | stay next =>
    cases h
    exact ⟨rfl, (List.append_nil _).symm⟩
  | out levels next =>
    simp only [move] at h
    split at h
    · cases h
      exact ⟨rfl, (List.append_nil _).symm⟩
    · cases h
  | into gap next =>
    obtain ⟨⟨frame, diagnostics⟩, between, hopen, hmoved⟩ := bind_ok h
    rw [openFrame_eq] at hopen
    obtain ⟨found, between', hfound, hframe⟩ := bind_ok hopen
    cases hframe
    cases hmoved
    exact listed_of_calleeMaterials hfound

theorem diagnostics_decode (run : Run) (index : Nat) (s : Step) (next : Option Step) :
    (run.decode index s next).diagnostics.toList =
      run.diagnostics.toList ++ if s.IsOpaque then [.unmodelled index s.op] else [] := by
  have hmodelled := run.decoder.modelled_decode s ((next.map Step.stack).getD [])
  simp only [Run.decode, hmodelled]
  by_cases h : s.IsOpaque <;> simp [h]

end Tracer

/-! ## Runs -/

/-- Before step `i` a run has made the requests of the steps before it, and has listed what there is
to list of them. -/
structure Diagnoses {σ : Type} (source : MaterialsSource σ) (supply : Supply σ)
    (entry : EntryPoint) (steps : List Step) (i : Nat) (run : Run) (between : Supply σ) :
    Prop where
  served : between = (Supply.serve source (requestsBefore entry steps i) supply).2
  listed : run.diagnostics.toList =
    diagnosedBefore (Supply.replyTo source supply) entry steps i

section Runs

variable {σ τ : Type} {tracer : Tracer σ} {supply between after : Supply σ} {entry : EntryPoint}
  {steps : List Step} {i : Nat} {run run' : Run}

theorem Diagnoses.take (h : Diagnoses tracer.source supply entry steps i run between)
    {keep : Step → Bool} {s : Step} (hs : steps[i]? = some s)
    (htake : (tracer.take keep i s steps[i + 1]? run).run between = (.ok run', after)) :
    Diagnoses tracer.source supply entry steps (i + 1) run' after := by
  rw [Tracer.take_eq] at htake
  obtain ⟨moved, between', hmove, hnoted⟩ := bind_ok htake
  -- Whether the step is kept makes no difference to the diagnostics.
  have hkept : after = between' ∧ run'.diagnostics = moved.diagnostics := by
    split at hnoted
    · cases hnoted
      exact ⟨rfl, rfl⟩
    · cases hnoted
      exact ⟨rfl, rfl⟩
  obtain ⟨rfl, hsame⟩ := hkept
  obtain ⟨hserved, hlisted⟩ := Tracer.listed_of_move hmove
  rw [← requestAt?_eq hs] at hserved hlisted
  constructor
  · rw [requestsBefore_succ, Supply.serve_append, ← h.served]
    exact hserved
  · have hopaque : opaqueAt steps i = if s.IsOpaque then [.unmodelled i s.op] else [] := by
      rw [opaqueAt, hs]
    have hentered : unavailableAt (Supply.replyTo tracer.source supply) entry steps i =
        (requestAt? steps i).toList.flatMap fun r =>
          unavailable r (some i) (Supply.ask tracer.source r between).1 := by
      rw [h.served, unavailableAt]
      cases requestAt? steps i with
      | none => rfl
      | some r => exact (List.append_nil _).symm
    rw [hsame, hlisted, Tracer.diagnostics_decode, h.listed, diagnosedBefore_succ, hopaque,
      hentered, List.append_assoc]

theorem Tracer.Reaches.diagnoses {keep : Step → Bool} {start : Run}
    (hreaches : tracer.Reaches keep steps start between i run after)
    (h : Diagnoses tracer.source supply entry steps 0 start between) :
    Diagnoses tracer.source supply entry steps i run after := by
  induction hreaches with
  | start => exact h
  | step before hs htake ih => exact ih.take hs htake

namespace Tracer

variable {options : Options τ} {raw : RawTrace} {trace : AnnotatedTrace}

/-- The diagnostics of a trace, by the replies that its requests get. -/
theorem diagnostics_of_annotateRaw
    (h : (tracer.annotateRaw options entry raw).run supply = (.ok trace, after)) :
    trace.info.diagnostics =
      diagnosed (Supply.replyTo tracer.source supply) entry raw.steps := by
  obtain ⟨found, between, hfound, hannotate⟩ := bind_ok h
  obtain ⟨run, after', htake, hannotated⟩ := bind_ok hannotate
  cases hannotated
  obtain ⟨hserved, hlisted⟩ := listed_of_materialsFor (r := entry.request) hfound
  have hstart : Diagnoses tracer.source supply entry raw.steps 0
      (tracer.startRun options.constants entry found.1 found.2) between :=
    ⟨hserved, hlisted.trans (List.append_nil _).symm⟩
  have hends := takeAll_ends tracer options.keepStep raw.steps
    (tracer.startRun options.constants entry found.1 found.2) between
  rw [htake] at hends
  cases hends with
  | ok hreaches => exact (hreaches.diagnoses hstart).listed

/-- The diagnostics of an annotated trace, whatever the filters and sinks, are those that the recorded
trace and the replies show, in the order of the trace and once for each. If the source does not change
its answers and nothing else is remembered, the replies are the answers of the source, remembered or
not. -/
theorem diagnoses_traceRaw (h : (tracer.traceRaw options entry raw supply).answer = .ok trace) :
    trace.info.diagnostics =
        diagnosed (Supply.replyTo tracer.source supply) entry raw.steps ∧
      ∀ answer, tracer.source.Answers answer → supply.IsFaithful answer →
        trace.info.diagnostics =
          diagnosed (fun _ r => answer r.address r.isCreation) entry raw.steps := by
  obtain ⟨after, hrun⟩ := annotateRaw_of_answer h
  have hlisted := diagnostics_of_annotateRaw hrun
  refine ⟨hlisted, ?_⟩
  intro answer hsource hfaithful
  have hreplies : Supply.replyTo tracer.source supply =
      fun _ r => answer r.address r.isCreation := by
    funext before r
    exact Supply.replyTo_of_answers hsource hfaithful before r
  rw [hlisted, hreplies]

/-- Two calls of one contract with an opaque step in the first, and a creation. -/
def callTwice : RawTrace where
  steps := [{ depth := 1, op := "CALL", stack := List.replicate 7 .zero },
    { depth := 2, op := "INVALID" },
    { depth := 1, op := "STATICCALL", stack := List.replicate 6 .zero },
    { depth := 2, op := "STOP" }, { depth := 1, op := "CREATE2" }, { depth := 2, op := "STOP" }]

theorem diagnoses_traceRaw_callTwice :
    ∃ trace, (bare.traceRaw ({ keepStep := fun _ => false } : Options Unit) { address := .zero }
        callTwice { state := () }).answer = .ok trace ∧
      trace.info.diagnostics = [.materialsUnavailable .zero none,
        .materialsUnavailable .zero (some 0), .unmodelled 1 "INVALID",
        .materialsUnavailable .zero (some 2), .unmodelled 4 "CREATE2"] := by
  have hfloor : ∀ j, j < callTwice.steps.length →
      depthAt callTwice.steps 0 ≤ depthAt callTwice.steps j := by decide
  obtain ⟨trace, after, hrun⟩ := exists_annotateRaw isUnfailing_bare
    ({ keepStep := fun _ => false } : Options Unit) { address := .zero } { state := () } hfloor
  have hanswer : (bare.traceRaw ({ keepStep := fun _ => false } : Options Unit)
      { address := .zero } callTwice { state := () }).answer = .ok trace := by
    rw [answer_traceRaw, hrun]
    exact handedOut_nil _ trace
  obtain ⟨-, hanswers⟩ := diagnoses_traceRaw hanswer
  refine ⟨trace, hanswer, ?_⟩
  rw [hanswers noMaterials (fun _ _ _ => rfl) (Supply.isFaithful_new noMaterials ())]
  decide +kernel

end Tracer

end Runs

end TraceGloss
