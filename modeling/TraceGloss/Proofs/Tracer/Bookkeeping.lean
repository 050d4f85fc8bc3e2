import TraceGloss.Proofs.Tracer.Frames
import TraceGloss.Proofs.Tracer.Stepping

/-
  What a run knows follows from the columns of the trace.
  `frameAt` is the frame at a depth as the depth column tells it, and `FramesFollow` says that the
  stack before a step holds exactly those, from the depth of the step up to that of the first one.
  With it a run that keeps all steps has noted each of them as the columns say (`Follows`), which
  every step preserves (`Follows.take`) and a whole run ends with (`Reaches.noted`).
-/
namespace TraceGloss

/-- The frame at depth `d` before step `i`: that of the entry, or one that a step has opened, or one
of a level that the trace skips. Materials are left out. -/
def frameAt (entry : Address) (steps : List Step) (i d : Nat) : Frame :=
  match openerBefore? steps i d with
  | none => { address := some entry }
  | some j =>
    if depthAt steps (j + 1) = d then
      { address := (steps[j]?).bind Step.callee?, gasAtEntry := gasAt steps (j + 1),
        opener := some j }
    else {}

section FrameAt

variable (entry : Address) (steps : List Step)

theorem frameAt_zero (d : Nat) : frameAt entry steps 0 d = { address := some entry } := rfl

/-- A step does not touch the frames at its depth and around. -/
theorem frameAt_succ_of_le {i d : Nat} (h : d ≤ depthAt steps i) :
    frameAt entry steps (i + 1) d = frameAt entry steps i d := by
  rw [frameAt, frameAt, openerBefore?_succ, if_neg (by omega)]

theorem frameAt_succ_of_lt {i d : Nat} (h : depthAt steps i < d) :
    frameAt entry steps (i + 1) d =
      if depthAt steps (i + 1) = d then
        { address := (steps[i]?).bind Step.callee?, gasAtEntry := gasAt steps (i + 1),
          opener := some i }
      else {} := by
  rw [frameAt, openerBefore?_succ, if_pos h]

/-- A frame has an opener when the step that opened its level opened nothing deeper. -/
theorem opener_frameAt {i d k : Nat} :
    (frameAt entry steps i d).opener = some k ↔
      openerBefore? steps i d = some k ∧ depthAt steps (k + 1) = d := by
  unfold frameAt
  cases openerBefore? steps i d with
  | none => simp
  | some j =>
    simp only [Option.some.injEq]
    constructor
    · intro h
      split at h
      · cases h
        exact ⟨rfl, ‹_›⟩
      · cases h
    · rintro ⟨rfl, hdepth⟩
      rw [if_pos hdepth]

theorem gasAtEntry_frameAt {i d k : Nat} (h : (frameAt entry steps i d).opener = some k) :
    (frameAt entry steps i d).gasAtEntry = gasAt steps (k + 1) := by
  obtain ⟨hopener, hdepth⟩ := (opener_frameAt entry steps).mp h
  rw [frameAt, hopener]
  simp only [hdepth, if_true]

end FrameAt

/-! ## Frames -/

/-- The stack before step `i` holds the frames at the depths from that of the step to that of the
first step, which is nowhere undercut. -/
structure FramesFollow (entry : Address) (steps : List Step) (i : Nat) (frames : Frames) :
    Prop where
  floor : ∀ j, j ≤ i → depthAt steps 0 ≤ depthAt steps j
  depth : frames.depth = depthAt steps i - depthAt steps 0
  frame : ∀ l frame, frames.levels[l]? = some frame →
    { frame with materials := none } = frameAt entry steps i (depthAt steps i - l)

namespace FramesFollow

variable {entry : Address} {steps : List Step} {i : Nat} {frames : Frames}

theorem start (entry : Address) (steps : List Step) (materials : Option Materials) :
    FramesFollow entry steps 0 { current := { address := some entry, materials } } := by
  refine ⟨?_, ?_, ?_⟩
  · intro j hj
    exact Nat.le_of_eq (congrArg (depthAt steps) (Nat.le_zero.mp hj).symm)
  · exact (Nat.sub_self _).symm
  · intro l frame hl
    rw [frameAt_zero]
    cases l with
    | zero =>
      cases hl
      rfl
    | succ l => cases hl

theorem stay (h : FramesFollow entry steps i frames)
    (heq : depthAt steps (i + 1) = depthAt steps i) : FramesFollow entry steps (i + 1) frames := by
  refine ⟨?_, ?_, ?_⟩
  · intro j hj
    rcases Nat.lt_or_eq_of_le hj with hj | rfl
    · exact h.floor j (by omega)
    · rw [heq]
      exact h.floor i (Nat.le_refl i)
  · rw [heq]
    exact h.depth
  · intro l frame hl
    rw [heq, frameAt_succ_of_le entry steps (by omega)]
    exact h.frame l frame hl

/-- Entering puts the opened frame on top, and blank ones at the levels that are skipped. -/
theorem enter (h : FramesFollow entry steps i frames)
    (hlt : depthAt steps i < depthAt steps (i + 1)) (materials : Option Materials) :
    FramesFollow entry steps (i + 1)
      (frames.enter (depthAt steps (i + 1) - depthAt steps i - 1)
        { address := (steps[i]?).bind Step.callee?, materials, gasAtEntry := gasAt steps (i + 1),
          opener := some i }) := by
  have hfloor := h.floor i (Nat.le_refl i)
  refine ⟨?_, ?_, ?_⟩
  · intro j hj
    rcases Nat.lt_or_eq_of_le hj with hj | rfl
    · exact h.floor j (by omega)
    · omega
  · have hdepth := h.depth
    simp only [Frames.depth, Frames.enter, List.length_append, List.length_replicate,
      List.length_cons] at hdepth ⊢
    omega
  · intro l frame hl
    rw [Frames.levels_enter] at hl
    cases l with
    | zero =>
      cases hl
      rw [Nat.sub_zero, frameAt_succ_of_lt entry steps hlt, if_pos rfl]
    | succ l =>
      rw [List.getElem?_cons_succ] at hl
      by_cases hgap : l < depthAt steps (i + 1) - depthAt steps i - 1
      · rw [List.getElem?_append_left (by simpa using hgap), List.getElem?_replicate,
          if_pos hgap] at hl
        cases hl
        rw [frameAt_succ_of_lt entry steps (by omega), if_neg (by omega)]
      · rw [List.getElem?_append_right (by simpa using hgap), List.length_replicate] at hl
        rw [frameAt_succ_of_le entry steps (by omega), h.frame _ frame hl]
        congr 1
        omega

/-- Leaving drops the frames that are deeper than the next step. -/
theorem leave (h : FramesFollow entry steps i frames)
    (hlt : depthAt steps (i + 1) < depthAt steps i) {left : Frames}
    (hleft : left.levels = frames.levels.drop (depthAt steps i - depthAt steps (i + 1))) :
    FramesFollow entry steps (i + 1) left := by
  have hdepth := h.depth
  have hlength : left.depth + 1 =
      frames.depth + 1 - (depthAt steps i - depthAt steps (i + 1)) := by
    rw [← Frames.length_levels, hleft, List.length_drop, Frames.length_levels]
  refine ⟨?_, ?_, ?_⟩
  · intro j hj
    rcases Nat.lt_or_eq_of_le hj with hj | rfl
    · exact h.floor j (by omega)
    · omega
  · omega
  · intro l frame hl
    rw [hleft, List.getElem?_drop] at hl
    rw [frameAt_succ_of_le entry steps (by omega), h.frame _ frame hl]
    congr 1
    omega

theorem opener (h : FramesFollow entry steps i frames) {l k : Nat} {frame : Frame}
    (hl : frames.levels[l]? = some frame) (hk : frame.opener = some k) :
    openerBefore? steps i (depthAt steps i - l) = some k ∧
      depthAt steps (k + 1) = depthAt steps i - l ∧ frame.gasAtEntry = gasAt steps (k + 1) := by
  have hframe := h.frame l frame hl
  have hopener : (frameAt entry steps i (depthAt steps i - l)).opener = some k := by
    rw [← hframe]
    exact hk
  obtain ⟨hbefore, hdepth⟩ := (opener_frameAt entry steps).mp hopener
  refine ⟨hbefore, hdepth, ?_⟩
  rw [← gasAtEntry_frameAt entry steps hopener, ← hframe]

/-- The openers of the frames that a step leaves are the steps whose frames are left there. -/
theorem isOpener_iff_leftAt (h : FramesFollow entry steps i frames) {k : Nat} (hk : k < i) :
    Frames.isOpener (frames.levels.take (depthAt steps i - depthAt steps (i + 1))) k = true ↔
      LeftAt steps i k := by
  rw [Frames.isOpener_iff, leftAt_iff steps hk]
  constructor
  · rintro ⟨frame, hmem, hopener⟩
    obtain ⟨l, hl⟩ := List.mem_iff_getElem?.mp hmem
    rw [List.getElem?_take] at hl
    split at hl
    · obtain ⟨hbefore, hdepth, -⟩ := h.opener hl hopener
      rw [hdepth]
      exact ⟨by omega, by omega, hbefore⟩
    · cases hl
  · rintro ⟨hleft, hinside, hbefore⟩
    obtain ⟨-, hopens, -⟩ := (openerBefore?_eq_some_iff steps _ _ _).mp hbefore
    have hfloor := h.floor k (by omega)
    have hdepth := h.depth
    have hlength : depthAt steps i - depthAt steps (k + 1) < frames.levels.length := by
      rw [Frames.length_levels]
      omega
    refine ⟨frames.levels[depthAt steps i - depthAt steps (k + 1)], ?_, ?_⟩
    · apply List.mem_iff_getElem?.mpr
      refine ⟨depthAt steps i - depthAt steps (k + 1), ?_⟩
      rw [List.getElem?_take, if_pos (by omega), List.getElem?_eq_getElem hlength]
    · have hframe := h.frame _ _ (List.getElem?_eq_getElem hlength)
      have hopener := (opener_frameAt entry steps).mpr ⟨hbefore, rfl⟩
      rw [Nat.sub_sub_self hinside] at hframe
      rw [← hframe] at hopener
      exact hopener

/-- A move to the next step keeps the frames in line, and charges the steps whose frames are left.
-/
theorem moves {run moved : Run} (h : FramesFollow entry steps i run.frames)
    (hsize : run.steps.size = i) {s next : Step} (hs : steps[i]? = some s)
    (hnext : steps[i + 1]? = some next)
    (hmoves : Tracer.Moves s run (s.moveTo (some next)) moved) :
    FramesFollow entry steps (i + 1) moved.frames ∧ moved.steps.size = i ∧
      ∀ k, k < i →
        (LeftAt steps i k → moved.steps[k]? = (run.steps[k]?).map
          (·.withCost ((gasAt steps (k + 1)).toNat - (gasAt steps (i + 1)).toNat))) ∧
        (¬ LeftAt steps i k → moved.steps[k]? = run.steps[k]?) := by
  have hcallee : (steps[i]?).bind Step.callee? = s.callee? := by rw [hs, Option.bind_some]
  have hgas := gasAt_of_getElem? hnext
  rcases moveTo_cases hs hnext with ⟨hlt, hmove⟩ | ⟨heq, hmove⟩ | ⟨hgt, hmove⟩
  · rw [hmove] at hmoves
    cases hmoves with
    | into _ _ materials diagnostics =>
      refine ⟨?_, hsize, ?_⟩
      · have henter := h.enter hlt materials
        rw [hcallee, hgas] at henter
        rw [hsize]
        exact henter
      · intro k hk
        rw [leftAt_iff steps hk]
        exact ⟨by omega, fun _ => rfl⟩
  · rw [hmove] at hmoves
    cases hmoves
    refine ⟨h.stay heq, hsize, ?_⟩
    intro k hk
    rw [leftAt_iff steps hk]
    exact ⟨by omega, fun _ => rfl⟩
  · rw [hmove] at hmoves
    cases hmoves with
    | out _ _ left charged hleave =>
      obtain ⟨hleft, rfl⟩ := Frames.leave?_eq_some hleave
      refine ⟨h.leave hgt hleft, by rw [Frames.size_chargeAll, hsize], ?_⟩
      intro k hk
      have hgiven : ∀ frame ∈ run.frames.levels.take (depthAt steps i - depthAt steps (i + 1)),
          frame.opener = some k → frame.gasAtEntry.toNat = (gasAt steps (k + 1)).toNat := by
        intro frame hmem hopener
        obtain ⟨l, hl⟩ := List.mem_iff_getElem?.mp (List.mem_of_mem_take hmem)
        rw [(h.opener hl hopener).2.2]
      rw [Frames.getElem?_chargeAll hgiven, ← h.isOpener_iff_leftAt hk, ← hgas]
      constructor
      · intro hleftAt
        rw [if_pos hleftAt]
      · intro hleftAt
        rw [if_neg hleftAt]

end FramesFollow

/-! ## Notes -/

/-- What is noted of step `i` once the first `m` steps have shown what is behind them. -/
structure Noted (entry : Address) (steps : List Step) (m i : Nat) (a : AnnotatedStep) : Prop where
  index : a.index = i
  step : steps[i]? = some a.step
  depthIndex : a.depthIndex = depthAt steps i - depthAt steps 0
  address : a.address = (frameAt entry steps i (depthAt steps i)).address
  cost : a.cost = costSeen steps m i
  previous : a.previous = none

theorem Noted.withCost {entry : Address} {steps : List Step} {m n i cost : Nat} {a : AnnotatedStep}
    (h : Noted entry steps m i a) (hcost : cost = costSeen steps n i) :
    Noted entry steps n i (a.withCost cost) :=
  ⟨h.index, h.step, h.depthIndex, h.address, hcost, h.previous⟩

theorem Noted.later {entry : Address} {steps : List Step} {m n i : Nat} {a : AnnotatedStep}
    (h : Noted entry steps m i a) (hcost : costSeen steps n i = costSeen steps m i) :
    Noted entry steps n i a :=
  ⟨h.index, h.step, h.depthIndex, h.address, h.cost.trans hcost.symm, h.previous⟩

/-- A run before step `i` that has kept every step so far. -/
structure Follows (entry : Address) (steps : List Step) (i : Nat) (run : Run) : Prop where
  frames : FramesFollow entry steps i run.frames
  size : run.steps.size = i
  noted : ∀ k a, run.steps[k]? = some a → Noted entry steps i k a

namespace Follows

variable {σ : Type} {tracer : Tracer σ} {entry : Address} {steps : List Step} {i : Nat} {run : Run}

theorem start (tracer : Tracer σ) (constants : Constants) (entry : EntryPoint) (steps : List Step)
    (materials : Option Materials) (diagnostics : Array Diagnostic) :
    Follows entry.address steps 0 (tracer.startRun constants entry materials diagnostics) := by
  refine ⟨FramesFollow.start entry.address steps materials, rfl, ?_⟩
  intro k a hk
  cases hk

theorem decode (h : Follows entry steps i run) (index : Nat) (s : Step) (next : Option Step) :
    Follows entry steps i (run.decode index s next) := ⟨h.frames, h.size, h.noted⟩

/-- The note of a step, whatever is behind it. -/
theorem note (h : Follows entry steps i run) {s : Step} (hs : steps[i]? = some s)
    {next : Option Step} {m : Nat} (hcost : (s.moveTo next).cost = costSeen steps m i) :
    Noted entry steps m i (tracer.note i s next run) := by
  refine ⟨rfl, hs, h.frames.depth, ?_, hcost, rfl⟩
  have hframe := h.frames.frame 0 run.frames.current rfl
  rw [Nat.sub_zero] at hframe
  have haddress := congrArg Frame.address hframe
  exact haddress

/-- Taking a step that is not the last one. -/
theorem take (h : Follows entry steps i run) {s next : Step} (hs : steps[i]? = some s)
    (hnext : steps[i + 1]? = some next) {run' : Run} {supply supply' : Supply σ}
    (htake : (tracer.take (fun _ => true) i s (some next) run).run supply =
      (.ok run', supply')) :
    Follows entry steps (i + 1) run' := by
  obtain ⟨moved, hmoves, hrun'⟩ := Tracer.take_ok htake
  have hdecoded := h.decode i s (some next)
  obtain ⟨hframes, hsize, hcharged⟩ := hdecoded.frames.moves hdecoded.size hs hnext hmoves
  rw [Bool.or_true, if_pos rfl] at hrun'
  subst hrun'
  refine ⟨hframes, by rw [Array.size_push, hsize], ?_⟩
  intro k a hk
  rw [Array.getElem?_push] at hk
  split at hk
  · rename_i hlast
    cases hk
    rw [hlast, hsize]
    exact h.note hs (costSeen_self steps hs hnext).symm
  · obtain ⟨hlt, -⟩ := Array.getElem?_eq_some_iff.mp hk
    rw [hsize] at hlt
    obtain ⟨hleft, hstays⟩ := hcharged k hlt
    by_cases hleftAt : LeftAt steps i k
    · rw [hleft hleftAt] at hk
      obtain ⟨b, hb, rfl⟩ := Option.map_eq_some_iff.mp hk
      exact (h.noted k b hb).withCost (costSeen_of_leftAt steps hlt hleftAt).symm
    · rw [hstays hleftAt] at hk
      exact (h.noted k a hk).later (costSeen_of_not_leftAt steps hlt hleftAt)

/-- Taking the last step. -/
theorem takeLast (h : Follows entry steps i run) {s : Step} (hs : steps[i]? = some s) {run' : Run}
    {supply supply' : Supply σ}
    (htake : (tracer.take (fun _ => true) i s none run).run supply = (.ok run', supply')) :
    run'.steps.size = i + 1 ∧ ∀ k a, run'.steps[k]? = some a → Noted entry steps i k a := by
  obtain ⟨moved, hmoves, hrun'⟩ := Tracer.take_ok htake
  rw [Bool.or_true, if_pos rfl] at hrun'
  subst hrun'
  cases hmoves
  have hsize := (h.decode i s none).size
  refine ⟨by rw [Array.size_push, hsize], ?_⟩
  intro k a hk
  rw [Array.getElem?_push] at hk
  split at hk
  · rename_i hlast
    cases hk
    rw [hlast, hsize]
    exact h.note hs (costSeen_last steps (Nat.le_refl i)).symm
  · exact h.noted k a hk

end Follows

/-! ## Runs -/

namespace Tracer.Reaches

variable {σ : Type} {tracer : Tracer σ} {entry : EntryPoint} {steps : List Step}
  {constants : Constants} {materials : Option Materials} {diagnostics : Array Diagnostic}
  {run : Run} {supply supply' : Supply σ}

/-- Before each step, a run that keeps all steps follows the columns. -/
theorem follows {i : Nat}
    (h : tracer.Reaches (fun _ => true) steps
      (tracer.startRun constants entry materials diagnostics) supply i run supply')
    (hi : i < steps.length) : Follows entry.address steps i run := by
  induction h with
  | start => exact .start tracer constants entry steps materials diagnostics
  | step before hs htake ih =>
    obtain ⟨hlt, -⟩ := List.getElem?_eq_some_iff.mp hs
    have hnext := List.getElem?_eq_getElem hi
    rw [hnext] at htake
    exact (ih hlt).take hs hnext htake

/-- A whole run notes every step, with what the whole trace shows; no step is shallower than the
first one. -/
theorem noted
    (h : tracer.Reaches (fun _ => true) steps
      (tracer.startRun constants entry materials diagnostics) supply steps.length run supply') :
    run.steps.size = steps.length ∧
      (∀ k a, run.steps[k]? = some a → Noted entry.address steps (steps.length - 1) k a) ∧
      ∀ j, j < steps.length → depthAt steps 0 ≤ depthAt steps j := by
  generalize hn : steps.length = n at h
  cases h with
  | start =>
    refine ⟨rfl, ?_, ?_⟩
    · intro k a hk
      cases hk
    · intro j hj
      cases hj
  | step before hs htake =>
    rename_i i s before' between
    have hfollows := before.follows (by omega)
    have hlast : steps[i + 1]? = none := List.getElem?_eq_none (by omega)
    rw [hlast] at htake
    obtain ⟨hsize, hnoted⟩ := hfollows.takeLast hs htake
    exact ⟨hsize, hnoted, fun j hj => hfollows.frames.floor j (by omega)⟩

end Tracer.Reaches

end TraceGloss
