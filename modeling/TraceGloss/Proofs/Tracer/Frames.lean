import TraceGloss.Proofs.Tracer.Columns

/-
  The stack of frames as a list.
  `levels` lists all frames, innermost first. Entering puts frames in front (`levels_enter`);
  leaving drops as many and charges their openers (`leave?_eq_some`), unless no frame would remain
  (`leave?_eq_none_iff`). Charging changes costs only, and only those of openers
  (`getElem?_chargeAll`).
-/
namespace TraceGloss

/-- The step with another cost. -/
def AnnotatedStep.withCost (s : AnnotatedStep) (cost : Nat) : AnnotatedStep := { s with cost }

namespace Frames

/-- All frames, innermost first. -/
def levels (f : Frames) : List Frame := f.current :: f.outer

theorem length_levels (f : Frames) : f.levels.length = f.depth + 1 := rfl

theorem levels_enter (f : Frames) (gap : Nat) (frame : Frame) :
    (f.enter gap frame).levels = frame :: (List.replicate gap ({} : Frame) ++ f.levels) := rfl

/-! ## Charges -/

/-- Charges the openers of frames, `gas` being left behind all of them. -/
def chargeAll (gas : UInt64) (frames : List Frame) (steps : Array AnnotatedStep) :
    Array AnnotatedStep :=
  frames.foldl (fun steps frame => charge frame gas steps) steps

theorem chargeAll_cons (gas : UInt64) (frame : Frame) (frames : List Frame)
    (steps : Array AnnotatedStep) :
    chargeAll gas (frame :: frames) steps = chargeAll gas frames (charge frame gas steps) := rfl

/-- Whether one of the frames was opened by the step noted at a place. -/
def isOpener (frames : List Frame) (k : Nat) : Bool :=
  frames.any fun frame => frame.opener == some k

theorem isOpener_iff {frames : List Frame} {k : Nat} :
    isOpener frames k = true ↔ ∃ frame ∈ frames, frame.opener = some k := by
  simp [isOpener]

theorem getElem?_charge (frame : Frame) (gas : UInt64) (steps : Array AnnotatedStep) (k : Nat) :
    (charge frame gas steps)[k]? =
      if frame.opener = some k then
        (steps[k]?).map (·.withCost (frame.gasAtEntry.toNat - gas.toNat))
      else steps[k]? := by
  unfold charge
  cases frame.opener with
  | none => simp
  | some place =>
    rw [Array.getElem?_modify]
    simp only [Option.some.injEq, AnnotatedStep.withCost]

/-- Charging all frames puts on the opener of any of them what went into that frame. -/
theorem getElem?_chargeAll {gas : UInt64} {frames : List Frame} {k given : Nat}
    (h : ∀ frame ∈ frames, frame.opener = some k → frame.gasAtEntry.toNat = given)
    (steps : Array AnnotatedStep) :
    (chargeAll gas frames steps)[k]? =
      if isOpener frames k then (steps[k]?).map (·.withCost (given - gas.toNat))
      else steps[k]? := by
  induction frames generalizing steps with
  | nil => rfl
  | cons frame frames ih =>
    have hcons : isOpener (frame :: frames) k = (frame.opener == some k || isOpener frames k) :=
      List.any_cons
    rw [chargeAll_cons, ih fun f hf => h f (List.mem_cons_of_mem frame hf), getElem?_charge, hcons]
    by_cases hframe : frame.opener = some k
    · rw [if_pos hframe, h frame (List.mem_cons_self ..) hframe, hframe, beq_self_eq_true,
        Bool.true_or, if_pos rfl]
      -- A step that opened several of the frames is charged again, with the same cost.
      split
      · rw [Option.map_map]
        rfl
      · rfl
    · rw [if_neg hframe, beq_eq_false_iff_ne.mpr hframe, Bool.false_or]

theorem size_charge (frame : Frame) (gas : UInt64) (steps : Array AnnotatedStep) :
    (charge frame gas steps).size = steps.size := by
  unfold charge
  split
  · exact Array.size_modify
  · rfl

theorem size_chargeAll (gas : UInt64) (frames : List Frame) (steps : Array AnnotatedStep) :
    (chargeAll gas frames steps).size = steps.size := by
  induction frames generalizing steps with
  | nil => rfl
  | cons frame frames ih => rw [chargeAll_cons, ih, size_charge]

/-! ## Leaving -/

theorem leave?_eq_none_iff (gas : UInt64) (n : Nat) (frames : Frames)
    (steps : Array AnnotatedStep) :
    leave? gas n frames steps = none ↔ frames.levels.length ≤ n := by
  induction n generalizing frames steps with
  | zero => simp [leave?, levels]
  | succ n ih =>
    rcases frames with ⟨current, _ | ⟨frame, outer⟩⟩
    · simp [leave?, levels]
    · rw [leave?, ih]
      simp [levels]

theorem leave?_eq_some {gas : UInt64} {n : Nat} {frames left : Frames}
    {steps charged : Array AnnotatedStep}
    (h : leave? gas n frames steps = some (left, charged)) :
    left.levels = frames.levels.drop n ∧
      charged = chargeAll gas (frames.levels.take n) steps := by
  induction n generalizing frames steps with
  | zero =>
    cases h
    exact ⟨rfl, rfl⟩
  | succ n ih =>
    rcases frames with ⟨current, _ | ⟨frame, outer⟩⟩
    · cases h
    · exact ih h

end Frames

end TraceGloss
