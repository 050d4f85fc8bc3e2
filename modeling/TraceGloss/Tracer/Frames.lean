import TraceGloss.Annotation.Basic

/-
  Call frames.
  `Frames` is the stack of frames around the step that is executed; there is always one. A step moves
  between frames as the depth of the next step says. Leaving a frame charges the step that opened it
  with the gas that went into the frame and did not come back.
-/
namespace TraceGloss

structure Frame where
  /-- The contract executed; unknown while it is being created. -/
  address : Option Address := none
  materials : Option Materials := none
  /-- The gas before the first step of the frame. -/
  gasAtEntry : UInt64 := 0
  /-- Place of the opening step among the steps that were kept. -/
  opener : Option Nat := none
deriving Inhabited

/-- The frame that is executed, and those around it, innermost first. -/
structure Frames where
  current : Frame
  outer : List Frame := []

namespace Frames

/-- The number of frames around the current one. -/
def depth (f : Frames) : Nat := f.outer.length

/-- Opens a frame below `gap` frames of which nothing is known. -/
def enter (f : Frames) (gap : Nat) (frame : Frame) : Frames where
  current := frame
  outer := List.replicate gap {} ++ f.current :: f.outer

/-- Charges the step that opened a frame, when `gas` is left behind it. -/
def charge (frame : Frame) (gas : UInt64) (steps : Array AnnotatedStep) : Array AnnotatedStep :=
  match frame.opener with
  | some place => steps.modify place fun s => { s with cost := frame.gasAtEntry.toNat - gas.toNat }
  | none => steps

/-- Leaves a number of frames, `gas` being left behind them; the outermost one cannot be left. -/
def leave? (gas : UInt64) : Nat → Frames → Array AnnotatedStep → Option (Frames × Array AnnotatedStep)
  | 0, frames, steps => some (frames, steps)
  | n + 1, frames, steps =>
    match frames.outer with
    | [] => none
    | frame :: outer => leave? gas n ⟨frame, outer⟩ (charge frames.current gas steps)

end Frames

/-- Where execution goes behind a step. -/
inductive Move
  /-- Nowhere: the trace ends. -/
  | stop
  | stay (next : Step)
  /-- Into a frame, below `gap` levels that the trace skips. -/
  | into (gap : Nat) (next : Step)
  | out (levels : Nat) (next : Step)

namespace Step

/-- The move from a step to the next one, by their depths. -/
def moveTo (s : Step) : Option Step → Move
  | none => .stop
  | some next =>
    if s.depth < next.depth then .into (next.depth.toNat - s.depth.toNat - 1) next
    else if next.depth < s.depth then .out (s.depth.toNat - next.depth.toNat) next
    else .stay next

/-- The contract that a step calls, if it is a message call. -/
def callee? (s : Step) : Option Address :=
  match s.opcode? with
  | some op => if op.isCall then (fromTop? s.stack 1).map Word.toAddress else none
  | none => none

end Step

namespace Move

/-- Whether the step enters or leaves a frame. -/
def isBoundary : Move → Bool
  | into .. | out .. => true
  | _ => false

/-- The cost of the step, as far as it is known before a frame it opens is left. -/
def cost : Move → Nat
  | stay next | into _ next => next.gasCost.toNat
  | _ => 0

end Move

end TraceGloss
