import TraceGloss.Decoder
import TraceGloss.Proofs.Provenance.Rendering

/-
  A decoder over a run of calls.
  Decoding registers what a step produced and showing a word registers nothing, so the provenance of a
  decoder is a snapshot of the history of its calls (`after_provenance`), and its session, which all
  calls share, follows that history. Hence what it shows is the plain expansion (`render_after`), as a
  session of its own would show it (`render_fresh`).
-/
namespace TraceGloss

open Provenance

/-- One request to a decoder: to decode a step before a stack, or to show a word. -/
inductive Call
  | decode (s : Step) (next : List Word)
  | render (w : Word)

/-- What a reading reports to the provenance. -/
def Reading.registration? (r : Reading) : Option Registration :=
  r.origin.map fun origin => ⟨r.results, origin, r.operands⟩

/-- What a call reports to the provenance. -/
def Call.registration? : Call → Option Registration
  | .decode s next => (reading? s next).bind Reading.registration?
  | .render _ => none

/-- The reports of a run, in order. -/
def historyOf (calls : List Call) : List Registration := calls.filterMap Call.registration?

namespace Decoder

/-- The decoder after one call. -/
def call (d : Decoder) : Call → Decoder
  | .decode s next => (d.decode s next).2
  | .render w => (d.render w).2

/-- The decoder after a run of calls. -/
def after (d : Decoder) (calls : List Call) : Decoder := calls.foldl call d

/-! ## One step of a run -/

@[simp] theorem render_provenance (d : Decoder) (w : Word) :
    (d.render w).2.provenance = d.provenance := rfl

/-- Showing words teaches a decoder nothing. -/
theorem renderAll_keeps (d : Decoder) (ws : List Word) :
    (d.renderAll ws).2.preimages = d.preimages ∧ (d.renderAll ws).2.provenance = d.provenance := by
  induction ws generalizing d with
  | nil => exact ⟨rfl, rfl⟩
  | cons w rest ih => exact ih (d.render w).2

theorem decode_of_reading {s : Step} {next : List Word} {r : Reading} (h : reading? s next = some r)
    (d : Decoder) :
    d.decode s next =
      (⟨(d.describe r).1, r.operands, r.results, true⟩, (d.describe r).2.learn r) := by
  rw [decode, h]

theorem decode_of_unread {s : Step} {next : List Word} (h : reading? s next = none)
    (d : Decoder) : d.decode s next = (⟨s.op, [], [], false⟩, d) := by
  rw [decode, h]

theorem learn_provenance (d : Decoder) (r : Reading) :
    (d.learn r).provenance =
      r.registration?.elim d.provenance fun report =>
        d.provenance.register report.outputs report.origin report.inputs := by
  rw [learn, Reading.registration?]
  cases r.origin <;> rfl

/-- What a decoder keeps when it has made the first `n` reports of a history: it has that much of the
history, and its session follows the whole of it. -/
structure Tracks (constants : List (String × Word)) (threshold : UInt64)
    (history : List Registration) (n : Nat) (d : Decoder) : Prop where
  provenance : d.provenance = snapshot constants history n
  threshold : d.session.threshold = threshold
  follows : Follows constants history d.session

variable {constants : List (String × Word)} {threshold : UInt64} {history : List Registration}
  {n : Nat} {d : Decoder}

theorem tracks_new (constants : List (String × Word)) (threshold : UInt64)
    (history : List Registration) :
    Tracks constants threshold history 0 (new constants threshold) :=
  ⟨rfl, rfl, follows_new constants history threshold⟩

namespace Tracks

/-- Showing a word gives its plain expansion. -/
theorem render (h : Tracks constants threshold history n d) (w : Word) :
    (d.render w).1 = (d.provenance.expand threshold w).text ∧
      Tracks constants threshold history n (d.render w).2 := by
  obtain ⟨hexpand, hthreshold, hfollows⟩ := follows_expression h.follows n w
  rw [← h.provenance] at hexpand hthreshold hfollows
  rw [h.threshold] at hexpand hthreshold
  exact ⟨congrArg Expression.text hexpand, h.provenance, hthreshold, hfollows⟩

theorem renderAll (h : Tracks constants threshold history n d) (ws : List Word) :
    (d.renderAll ws).1 = ws.map (fun w => (d.provenance.expand threshold w).text) ∧
      Tracks constants threshold history n (d.renderAll ws).2 := by
  induction ws generalizing d with
  | nil => exact ⟨rfl, h⟩
  | cons w ws ih =>
    obtain ⟨hfirst, hkept⟩ := h.render w
    obtain ⟨hrest, hlast⟩ := ih hkept
    refine ⟨?_, hlast⟩
    rw [Decoder.renderAll, List.map_cons, hfirst, hrest, render_provenance]

theorem learn (h : Tracks constants threshold history n d) {r : Reading} {rest : List Registration}
    (hrest : history.drop n = r.registration?.toList ++ rest) :
    Tracks constants threshold history (n + r.registration?.toList.length) (d.learn r) := by
  refine ⟨?_, h.threshold, h.follows⟩
  rw [learn_provenance]
  cases hreport : r.registration? with
  | none => exact h.provenance
  | some report =>
    have hnext : history[n]? = some report := by
      rw [hreport] at hrest
      have hhead := congrArg List.head? hrest
      rwa [List.head?_drop] at hhead
    rw [Option.elim_some, h.provenance]
    exact (snapshot_succ constants hnext).symm

theorem call (h : Tracks constants threshold history n d) {c : Call} {rest : List Registration}
    (hrest : history.drop n = c.registration?.toList ++ rest) :
    Tracks constants threshold history (n + c.registration?.toList.length) (d.call c) := by
  cases c with
  | render w => exact (h.render w).2
  | decode s next =>
    cases hread : reading? s next with
    | none =>
      rw [Call.registration?, hread, Decoder.call, decode_of_unread hread]
      exact h
    | some r =>
      rw [Call.registration?, hread, Option.bind_some] at hrest ⊢
      rw [Decoder.call, decode_of_reading hread]
      exact (h.renderAll r.operands).2.learn hrest

theorem after (h : Tracks constants threshold history n d) {calls : List Call}
    {rest : List Registration} (hrest : history.drop n = historyOf calls ++ rest) :
    Tracks constants threshold history (n + (historyOf calls).length) (d.after calls) := by
  induction calls generalizing n d with
  | nil => exact h
  | cons c calls ih =>
    have hcons : historyOf (c :: calls) = c.registration?.toList ++ historyOf calls := by
      rw [historyOf, List.filterMap_cons]
      cases c.registration? <;> rfl
    rw [hcons, List.append_assoc] at hrest
    have hlater : history.drop (n + c.registration?.toList.length) = historyOf calls ++ rest := by
      rw [← List.drop_drop, hrest, List.drop_left]
    have hcalls := ih (h.call hrest) hlater
    rw [hcons, List.length_append, ← Nat.add_assoc]
    exact hcalls

end Tracks

/-! ## A whole run -/

theorem tracks_after (constants : List (String × Word)) (threshold : UInt64) (calls : List Call) :
    Tracks constants threshold (historyOf calls) (historyOf calls).length
      ((new constants threshold).after calls) := by
  have hwhole : (historyOf calls).drop 0 = historyOf calls ++ [] := by
    rw [List.drop_zero, List.append_nil]
  have h := (tracks_new constants threshold (historyOf calls)).after hwhole
  rwa [Nat.zero_add] at h

theorem after_provenance (constants : List (String × Word)) (threshold : UInt64)
    (calls : List Call) :
    ((new constants threshold).after calls).provenance =
      empty.log (constantEntries constants ++ (historyOf calls).flatMap entriesOf) := by
  rw [(tracks_after constants threshold calls).provenance, snapshot_eq, List.take_length]

/-- After any run a word is shown as its plain expansion. -/
theorem render_after (constants : List (String × Word)) (threshold : UInt64) (calls : List Call)
    (w : Word) :
    (((new constants threshold).after calls).render w).1 =
      (((new constants threshold).after calls).provenance.expand threshold w).text :=
  ((tracks_after constants threshold calls).render w).1

/-- A session that has shown nothing yet gives the plain expansion as well. -/
theorem render_fresh (constants : List (String × Word)) (threshold : UInt64) (calls : List Call)
    (w : Word) :
    (((new constants threshold).after calls).provenance.render w { threshold }).1 =
      (((new constants threshold).after calls).provenance.expand threshold w).text := by
  rw [(tracks_after constants threshold calls).provenance]
  exact congrArg Expression.text
    (follows_expression (follows_new constants (historyOf calls) threshold) _ w).1

end Decoder

end TraceGloss
