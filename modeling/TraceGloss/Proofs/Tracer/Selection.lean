import TraceGloss.Proofs.Tracer.Answers
import TraceGloss.Proofs.Tracer.Bookkeeping

/-
  Filters select, and change nothing else.
  A run with a pre-filter is at every step the run without one, less the notes that are not kept
  (`Run.pick`). Frames name their opening step by its place among the notes, so those places are
  counted anew; that they still name the same steps rests on openers being kept (`leave?_pick`). The
  two runs go in step (`take_pick`, `takeAll_pick`), and so do their answers
  (`annotateRaw_filtered`).
-/
namespace TraceGloss

open Tracing

/-- Whether a step enters or leaves a frame. -/
def crossesFrame (steps : List Step) (i : Nat) : Bool :=
  i + 1 < steps.length && depthAt steps (i + 1) != depthAt steps i

/-- Whether the pre-filter lets a step be noted. -/
def isKept (keep : Step → Bool) (steps : List Step) (i : Nat) : Bool :=
  crossesFrame steps i || (steps[i]?).any keep

theorem isBoundary_moveTo {steps : List Step} {i : Nat} {s : Step} (hs : steps[i]? = some s) :
    (s.moveTo steps[i + 1]?).isBoundary = crossesFrame steps i := by
  unfold crossesFrame
  by_cases hlast : i + 1 < steps.length
  · have hnext := List.getElem?_eq_getElem hlast
    rw [decide_eq_true hlast, Bool.true_and, hnext]
    rcases moveTo_cases hs hnext with ⟨hlt, hmove⟩ | ⟨heq, hmove⟩ | ⟨hgt, hmove⟩
    · rw [hmove, bne_iff_ne.mpr (Nat.ne_of_gt hlt)]
      rfl
    · rw [hmove, heq, bne_self_eq_false]
      rfl
    · rw [hmove, bne_iff_ne.mpr (Nat.ne_of_lt hgt)]
      rfl
  · rw [List.getElem?_eq_none (Nat.le_of_not_lt hlast), decide_eq_false hlast]
    rfl

theorem isKept_eq {keep : Step → Bool} {steps : List Step} {i : Nat} {s : Step}
    (hs : steps[i]? = some s) :
    ((s.moveTo steps[i + 1]?).isBoundary || keep s) = isKept keep steps i := by
  rw [isKept, isBoundary_moveTo hs, hs, Option.any_some]

/-! ## Places -/

/-- The place of a step among those that are kept. -/
def place (kept : Nat → Bool) (i : Nat) : Nat := (List.range i).countP kept

/-- Whether a note is that of a step that is kept. -/
def AnnotatedStep.isAmong (kept : Nat → Bool) (a : AnnotatedStep) : Bool := kept a.index

/-- Every note stands at the place of its step, the first one at `first`. -/
def Numbered (notes : List AnnotatedStep) (first : Nat) : Prop :=
  notes.map (·.index) = List.range' first notes.length

variable {kept : Nat → Bool}

theorem Numbered.of_getElem? {notes : List AnnotatedStep}
    (h : ∀ (k : Nat) (a : AnnotatedStep), notes[k]? = some a → a.index = k) : Numbered notes 0 := by
  apply List.ext_getElem (by simp)
  intro k hk hk'
  rw [List.getElem_map, List.getElem_range', Nat.zero_add, Nat.one_mul]
  rw [List.length_map] at hk
  exact h k _ (List.getElem?_eq_getElem hk)

theorem Numbered.modify {f : AnnotatedStep → AnnotatedStep} (hf : ∀ a, (f a).index = a.index)
    {notes : List AnnotatedStep} {first : Nat} (h : Numbered notes first) (k : Nat) :
    Numbered (notes.modify k f) first := by
  rw [Numbered, List.length_modify, ← h]
  apply List.ext_getElem (by simp)
  intro j hj hj'
  rw [List.getElem_map, List.getElem_map, List.getElem_modify]
  split
  · exact hf _
  · rfl

/-- A note keeps its neighbours when notes are left out, and is found at its place among them. -/
theorem filter_modify_place {f : AnnotatedStep → AnnotatedStep} (hf : ∀ a, (f a).index = a.index)
    {notes : List AnnotatedStep} {first k : Nat} (h : Numbered notes first)
    (hk : kept (first + k) = true) :
    (notes.modify k f).filter (AnnotatedStep.isAmong kept) =
      (notes.filter (AnnotatedStep.isAmong kept)).modify
        ((List.range' first k).countP kept) f := by
  induction notes generalizing first k with
  | nil => simp
  | cons a notes ih =>
    rw [Numbered, List.map_cons, List.length_cons, List.range'_succ, List.cons.injEq] at h
    obtain ⟨rfl, hnotes⟩ := h
    cases k with
    | zero =>
      have hkept : a.isAmong kept = true := hk
      have hkept' : (f a).isAmong kept = true := by rwa [AnnotatedStep.isAmong, hf]
      rw [List.modify_zero_cons, List.filter_cons_of_pos hkept, List.filter_cons_of_pos hkept']
      rfl
    | succ k =>
      have hrest := ih (k := k) hnotes (by rwa [Nat.add_assoc, Nat.add_comm 1])
      rw [List.range'_succ, List.modify_succ_cons]
      by_cases hkept : a.isAmong kept = true
      · rw [List.filter_cons_of_pos hkept, List.filter_cons_of_pos hkept,
          List.countP_cons_of_pos (p := kept) hkept, List.modify_succ_cons, hrest]
      · rw [List.filter_cons_of_neg hkept, List.filter_cons_of_neg hkept,
          List.countP_cons_of_neg (p := kept) hkept, hrest]

/-- The notes of the steps that are kept. -/
def pickNotes (kept : Nat → Bool) (notes : Array AnnotatedStep) : Array AnnotatedStep :=
  notes.filter (AnnotatedStep.isAmong kept)

theorem size_pickNotes {notes : Array AnnotatedStep} (h : Numbered notes.toList 0) :
    (pickNotes kept notes).size = place kept notes.size := by
  rw [pickNotes, ← Array.length_toList, Array.toList_filter, ← List.countP_eq_length_filter, place,
    List.range_eq_range', ← Array.length_toList, ← h, List.countP_map]
  rfl

theorem pickNotes_push (notes : Array AnnotatedStep) (a : AnnotatedStep) :
    pickNotes kept (notes.push a) =
      if kept a.index then (pickNotes kept notes).push a else pickNotes kept notes := by
  rw [pickNotes, Array.filter_push]
  rfl

/-! ## Frames -/

/-- The frame with its opener at its place among the notes that are kept. -/
def Frame.pick (kept : Nat → Bool) (frame : Frame) : Frame :=
  { frame with opener := frame.opener.map (place kept) }

namespace Frames

def pick (kept : Nat → Bool) (frames : Frames) : Frames where
  current := frames.current.pick kept
  outer := frames.outer.map (Frame.pick kept)

theorem pick_enter (frames : Frames) (gap : Nat) (frame : Frame) :
    (frames.enter gap frame).pick kept = (frames.pick kept).enter gap (frame.pick kept) := by
  simp only [pick, enter, List.map_append, List.map_replicate, List.map_cons]
  rfl

theorem charge_pick {frame : Frame} (hframe : ∀ k, frame.opener = some k → kept k = true)
    (gas : UInt64) {notes : Array AnnotatedStep} (h : Numbered notes.toList 0) :
    charge (frame.pick kept) gas (pickNotes kept notes) =
      pickNotes kept (charge frame gas notes) := by
  unfold charge Frame.pick
  cases hopener : frame.opener with
  | none => rfl
  | some k =>
    apply Array.toList_inj.mp
    simp only [Option.map_some, pickNotes, Array.toList_modify, Array.toList_filter]
    rw [filter_modify_place _ h (by rw [Nat.zero_add]; exact hframe k hopener), place,
      List.range_eq_range']
    intro a
    rfl

theorem numbered_charge (frame : Frame) (gas : UInt64) {notes : Array AnnotatedStep}
    (h : Numbered notes.toList 0) : Numbered (charge frame gas notes).toList 0 := by
  unfold charge
  split
  · rw [Array.toList_modify]
    exact Numbered.modify (fun a => by rfl) h _
  · exact h

/-- Leaving frames charges the same steps, whether the other notes are there or not. -/
theorem leave?_pick (gas : UInt64) (n : Nat) {frames : Frames} {notes : Array AnnotatedStep}
    (hframes : ∀ frame ∈ frames.levels, ∀ k, frame.opener = some k → kept k = true)
    (h : Numbered notes.toList 0) :
    leave? gas n (frames.pick kept) (pickNotes kept notes) =
      (leave? gas n frames notes).map fun left => (left.1.pick kept, pickNotes kept left.2) := by
  induction n generalizing frames notes with
  | zero => rfl
  | succ n ih =>
    rcases frames with ⟨current, _ | ⟨frame, outer⟩⟩
    · rfl
    · have hcurrent := hframes current (List.mem_cons_self ..)
      have houter : ∀ f ∈ levels ⟨frame, outer⟩, ∀ k, f.opener = some k → kept k = true :=
        fun f hf => hframes f (List.mem_cons_of_mem current hf)
      show leave? gas n (pick kept ⟨frame, outer⟩)
        (charge (current.pick kept) gas (pickNotes kept notes)) = _
      rw [charge_pick hcurrent gas h, ih houter (numbered_charge current gas h), leave?]

end Frames

/-! ## Steps -/

/-- The run with the notes that are kept, and no others. -/
def Run.pick (kept : Nat → Bool) (run : Run) : Run :=
  { run with frames := run.frames.pick kept, steps := pickNotes kept run.steps }

section Follows

variable {entry : Address} {steps : List Step} {i : Nat} {run : Run}

theorem Follows.numbered (h : Follows entry steps i run) : Numbered run.steps.toList 0 := by
  apply Numbered.of_getElem?
  intro k a hk
  rw [Array.getElem?_toList] at hk
  exact (h.noted k a hk).index

/-- A step that opened a frame crosses into it, and so is kept. -/
theorem Follows.isKept_opener (h : Follows entry steps i run) (hi : i < steps.length)
    (keep : Step → Bool) :
    ∀ frame ∈ run.frames.levels, ∀ k, frame.opener = some k → isKept keep steps k = true := by
  intro frame hmem k hopener
  obtain ⟨l, hl⟩ := List.mem_iff_getElem?.mp hmem
  obtain ⟨hbefore, hdepth, -⟩ := h.frames.opener hl hopener
  obtain ⟨hk, hlt, -⟩ := (openerBefore?_eq_some_iff steps _ _ _).mp hbefore
  have hinside : k + 1 < steps.length := by omega
  have hcrosses : crossesFrame steps k = true := by
    rw [crossesFrame, decide_eq_true hinside, Bool.true_and, bne_iff_ne]
    omega
  rw [isKept, hcrosses, Bool.true_or]

end Follows

namespace Tracer

variable {σ : Type} (tracer : Tracer σ)

theorem move_pick {run : Run}
    (hframes : ∀ frame ∈ run.frames.levels, ∀ k, frame.opener = some k → kept k = true)
    (h : Numbered run.steps.toList 0) (index : Nat) (s : Step) (m : Move) :
    tracer.move index s (run.pick kept) m = Run.pick kept <$> tracer.move index s run m := by
  cases m with
  | stop => rfl
  | stay next => rfl
  | into gap next =>
    have hopener : (run.pick kept).steps.size = place kept run.steps.size := size_pickNotes h
    simp only [move, openFrame_eq, bind_assoc, pure_bind, map_bind, map_pure, hopener]
    congr 1
    funext found
    rw [Run.pick, Run.pick, Frames.pick_enter]
    rfl
  | out levels next =>
    have hleave := Frames.leave?_pick next.gas levels hframes h
    simp only [move, Run.pick, hleave]
    cases Frames.leave? next.gas levels run.frames run.steps <;> rfl

/-- A step takes the picked run to the pick of where it takes the whole run. -/
theorem take_pick {entry : Address} {steps : List Step} {i : Nat} {run : Run}
    (h : Follows entry steps i run) {s : Step} (hs : steps[i]? = some s) (keep : Step → Bool) :
    tracer.take keep i s steps[i + 1]? (run.pick (isKept keep steps)) =
      Run.pick (isKept keep steps) <$> tracer.take (fun _ => true) i s steps[i + 1]? run := by
  obtain ⟨hi, -⟩ := List.getElem?_eq_some_iff.mp hs
  have hnote : tracer.note i s steps[i + 1]? (run.pick (isKept keep steps)) =
      tracer.note i s steps[i + 1]? run := by
    simp only [note, Run.pick, Frames.pick, Frames.depth, List.length_map]
    rfl
  have hindex : (tracer.note i s steps[i + 1]? run).index = i := rfl
  have hdecode : (run.pick (isKept keep steps)).decode i s steps[i + 1]? =
      (run.decode i s steps[i + 1]?).pick (isKept keep steps) := rfl
  have hmove : tracer.move i s ((run.decode i s steps[i + 1]?).pick (isKept keep steps))
      (s.moveTo steps[i + 1]?) = Run.pick (isKept keep steps) <$>
        tracer.move i s (run.decode i s steps[i + 1]?) (s.moveTo steps[i + 1]?) :=
    have hdecoded := h.decode i s steps[i + 1]?
    tracer.move_pick (hdecoded.isKept_opener hi keep) hdecoded.numbered i s (s.moveTo steps[i + 1]?)
  rw [take_eq, take_eq, hnote, isKept_eq hs, hdecode, hmove]
  simp only [map_bind, map_pure, bind_map_left, Bool.or_true, if_true]
  congr 1
  funext moved
  simp only [Run.pick, pickNotes_push, hindex]
  split <;> rfl

/-- From a step on, the picked run goes where the whole run goes, less what is not kept. -/
theorem takeAll_pick {entry : Address} {steps : List Step} (keep : Step → Bool) {rest : List Step}
    {i : Nat} {run : Run} (h : i < steps.length → Follows entry steps i run)
    (hrest : steps.drop i = rest) (supply : Supply σ) :
    (tracer.takeAll keep i rest (run.pick (isKept keep steps))).run supply =
      (Run.pick (isKept keep steps) <$> tracer.takeAll (fun _ => true) i rest run).run supply := by
  induction rest generalizing i run supply with
  | nil => rfl
  | cons s rest ih =>
    obtain ⟨hs, hnext, htail⟩ := of_drop_eq_cons hrest
    obtain ⟨hi, -⟩ := List.getElem?_eq_some_iff.mp hs
    rw [takeAll, takeAll, hnext, tracer.take_pick (h hi) hs, bind_map_left, map_bind, run_bind,
      run_bind]
    rcases htake : (tracer.take (fun _ => true) i s steps[i + 1]? run).run supply with
      ⟨error | run', between⟩
    · rfl
    · refine ih ?_ htail between
      intro hi'
      have hnext' := List.getElem?_eq_getElem hi'
      rw [hnext'] at htake
      exact (h hi).take hs hnext' htake

end Tracer

/-! ## Answers -/

/-- The trace with the steps that both filters keep, linked anew. `keep` sees them without links. -/
def AnnotatedTrace.select (kept : Nat → Bool) (keep : AnnotatedStep → Bool) (t : AnnotatedTrace) :
    AnnotatedTrace :=
  { t with
    steps := (relink none (t.steps.toList.filter fun a =>
      a.isAmong kept && keep a.unlinked)).toArray }

/-- Links that were set before a selection do not matter. -/
theorem relink_filter_relink {keep : AnnotatedStep → Bool}
    (hkeep : ∀ a, keep a.unlinked = keep a) (previous : Option Nat) (notes : List AnnotatedStep) :
    relink none ((relink previous notes).filter keep) = relink none (notes.filter keep) := by
  have hfilter : ∀ l : List AnnotatedStep, (l.filter keep).map AnnotatedStep.unlinked =
      (l.map AnnotatedStep.unlinked).filter keep := by
    intro l
    rw [List.filter_map]
    congr 2
    funext a
    exact (hkeep a).symm
  rw [← relink_map_unlinked none ((relink previous notes).filter keep), hfilter,
    map_unlinked_relink, ← hfilter, relink_map_unlinked]

namespace Tracer

variable {σ τ : Type} (tracer : Tracer σ)

theorem annotated_pick (kept : Nat → Bool) (keep : AnnotatedStep → Bool) (raw : RawTrace)
    {run : Run} (h : ∀ a ∈ run.steps.toList, a.unlinked = a) :
    tracer.annotated keep raw (run.pick kept) =
      (tracer.annotated (fun _ => true) raw run).select kept keep := by
  have hkeep : (run.pick kept).steps.toList.filter keep =
      run.steps.toList.filter fun a => a.isAmong kept && keep a.unlinked := by
    rw [Run.pick, pickNotes, Array.toList_filter, List.filter_filter]
    apply List.filter_congr
    intro a ha
    rw [h a ha, Bool.and_comm]
  rw [AnnotatedTrace.select, steps_annotated_all, relink_filter_relink (fun a => by rfl), ← hkeep]
  rfl

/-- A run with filters computes what the run without filters does, less what they leave out. -/
theorem annotateRaw_filtered (options : Options τ) (entry : EntryPoint) (raw : RawTrace)
    (supply : Supply σ) :
    (tracer.annotateRaw options entry raw).run supply =
      (AnnotatedTrace.select (isKept options.keepStep raw.steps) options.keepAnnotated <$>
        tracer.annotateRaw ({ constants := options.constants } : Options τ) entry raw).run
          supply := by
  rw [annotateRaw, annotateRaw, map_bind, run_bind, run_bind]
  rcases (tracer.materialsFor entry.address entry.isCreation none #[]).run supply with
    ⟨error | ⟨materials, diagnostics⟩, between⟩
  · rfl
  · have hstart : (tracer.startRun options.constants entry materials diagnostics).pick
        (isKept options.keepStep raw.steps) =
          tracer.startRun options.constants entry materials diagnostics := rfl
    have htake := tracer.takeAll_pick options.keepStep
      (fun _ => Follows.start tracer options.constants entry raw.steps materials diagnostics)
      List.drop_zero between
    have hends := tracer.takeAll_ends (fun _ => true) raw.steps
      (tracer.startRun options.constants entry materials diagnostics) between
    rw [hstart, map_eq_pure_bind, run_bind] at htake
    dsimp only
    rw [annotate, annotate, map_bind, run_bind, run_bind, htake]
    rcases hrun : (tracer.takeAll (fun _ => true) 0 raw.steps
      (tracer.startRun options.constants entry materials diagnostics)).run between with
      ⟨error | run, after⟩
    · rfl
    · rw [hrun] at hends
      cases hends with
      | ok hreaches =>
        obtain ⟨-, hnoted, -⟩ := hreaches.noted
        have hunlinked : ∀ a ∈ run.steps.toList, a.unlinked = a := by
          intro a ha
          obtain ⟨k, hk⟩ := List.mem_iff_getElem?.mp ha
          rw [Array.getElem?_toList] at hk
          rw [AnnotatedStep.unlinked, ← (hnoted k a hk).previous]
        simp only [run_pure, map_pure]
        rw [annotated_pick tracer _ _ raw hunlinked]

/-- Filters only select: with them a trace fails exactly where it fails without them, and else shows
the steps that they keep, unchanged but for their links. -/
theorem traceRaw_filtered_eq_select (constants : Constants) (keepStep : Step → Bool)
    (keepAnnotated : AnnotatedStep → Bool) (entry : EntryPoint) (raw : RawTrace)
    (supply : Supply σ) :
    (tracer.traceRaw ({ constants, keepStep, keepAnnotated } : Options τ) entry raw supply).answer =
      (tracer.traceRaw ({ constants } : Options τ) entry raw supply).answer.map
        (AnnotatedTrace.select (isKept keepStep raw.steps) keepAnnotated) := by
  rw [answer_traceRaw, answer_traceRaw, annotateRaw_filtered, map_eq_pure_bind, run_bind]
  rcases (tracer.annotateRaw ({ constants } : Options τ) entry raw).run supply with
    ⟨error | trace, after⟩
  · rfl
  · show handedOut _ [] _ = Except.map _ (handedOut _ [] trace)
    rw [handedOut_nil, handedOut_nil]
    rfl

end Tracer

end TraceGloss
