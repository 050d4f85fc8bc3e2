import Mathlib.Algebra.GroupWithZero.Nat
import TraceGloss.Proofs.Decoder.Log
import TraceGloss.Proofs.Provenance.Evaluation

/-
  What a decoder shows is true.
  A semantics admits a run of steps when each recorded instruction finds its operands and leaves on the
  next stack what it computes. Decoding such a run keeps the provenance truthful
  (`truthful_after`), so every word is what its expression evaluates to (`evaluates_render`).
-/
namespace TraceGloss

open Provenance

/-- The calls that decode a list of steps: each step before the stack of the one behind it. -/
def Step.calls : List Step → List Call
  | [] => []
  | s :: rest => .decode s ((rest.head?.map Step.stack).getD []) :: Step.calls rest

/-- From `s` to `next` the semantics was followed, as far as results are recorded. -/
structure Semantics.Admits (m : Semantics) (s next : Step) : Prop where
  computes : ∀ op inputs outputs, s.opcode? = some op →
    op.stackEffect = .fixed inputs outputs true →
    inputs ≤ s.stack.length ∧
      fromTop? next.stack 0 = some (m.compute op (topWords s.stack inputs))
  hashes : ∀ op bytes, s.opcode? = some op → op.stackEffect = .hash →
    s.windowBytes? = some bytes → fromTop? next.stack 0 = some (m.hash bytes)

/-- The semantics was followed from each step to the next. -/
def Semantics.AdmitsRun (m : Semantics) (steps : List Step) : Prop := steps.IsChain m.Admits

variable {m : Semantics} {constants : List (String × Word)}

theorem length_topWords {stack : List Word} {n : Nat} (h : n ≤ stack.length) :
    (topWords stack n).length = n := by
  rw [topWords, List.length_drop]
  omega

/-- What a followed step is recorded as explains the word on top of the next stack. -/
theorem explains_of_admits {s next : Step} (h : m.Admits s next) {p : Production}
    (hp : s.production? = some p) {w : Word} (htop : fromTop? next.stack 0 = some w) :
    p.Explains m constants w := by
  obtain ⟨op, hop, ⟨inputs, heffect, rfl⟩ | ⟨width, heffect, rfl⟩ | ⟨window, heffect, hwindow, rfl⟩⟩ :=
    production_cases hp
  · obtain ⟨hfound, hresult⟩ := h.computes op inputs 1 hop heffect
    rw [htop, Option.some.injEq] at hresult
    show m.Yields op (topWords s.stack inputs) w
    rw [Semantics.Yields, heffect]
    exact ⟨length_topWords hfound, hresult⟩
  · exact trivial
  · rw [hashWindow?_eq] at hwindow
    obtain ⟨bytes, hbytes, rfl⟩ := Option.map_eq_some_iff.mp hwindow
    have hresult := h.hashes op bytes hop heffect hbytes
    rw [htop, Option.some.injEq] at hresult
    show m.Yields op [Word.ofBytes bytes] w
    rw [Semantics.Yields, heffect]
    exact ⟨bytes, rfl, hresult⟩

/-- What the calls of a followed run record explains the word it is recorded for. -/
theorem explains_of_admitsRun {steps : List Step} (h : m.AdmitsRun steps) {c : Call}
    (hc : c ∈ Step.calls steps) {w : Word} {p : Production} (hp : c.production? w = some p) :
    p.Explains m constants w := by
  induction steps with
  | nil => cases hc
  | cons s rest ih =>
    rcases List.mem_cons.mp hc with rfl | hc
    · rw [Call.production?] at hp
      split at hp
      · rename_i htop
        obtain ⟨hproduction, -⟩ := Option.filter_eq_some_iff.mp hp
        cases rest with
        | nil => cases htop
        | cons next rest =>
          exact explains_of_admits (List.isChain_cons_cons.mp h).1 hproduction htop
      · cases hp
    · exact ih (List.IsChain.of_cons h) hc

namespace Decoder

/-- After a followed run every record explains its word. -/
theorem truthful_after (constants : List (String × Word)) (threshold : UInt64) {steps : List Step}
    (h : m.AdmitsRun steps) :
    ((new constants threshold).after (Step.calls steps)).provenance.Truthful m constants := by
  intro w r hr
  rw [records_after] at hr
  rcases List.mem_append.mp hr with hr | hr
  · obtain ⟨⟨name, v⟩, hconstant, rfl⟩ := List.mem_map.mp hr
    obtain ⟨hmem, hvalue⟩ := List.mem_filter.mp hconstant
    have hv : v = w := of_decide_eq_true hvalue
    subst hv
    exact hmem
  · obtain ⟨c, hc, hproduction⟩ := List.mem_filterMap.mp hr
    exact explains_of_admitsRun h hc hproduction

/-- After a followed run, every word is what its records and its expression say. -/
theorem evaluates_render (m : Semantics) (constants : List (String × Word)) (threshold : UInt64)
    (steps : List Step) (h : m.AdmitsRun steps) (w : Word) :
    let d := (new constants threshold).after (Step.calls steps)
    (∀ r ∈ d.provenance.records w, ∀ op, r.origin = .computed op → m.Yields op r.inputs w) ∧
      (d.render w).1 = (d.provenance.expand threshold w).text ∧
      Evaluates m constants (d.provenance.expand threshold w) w := by
  intro d
  have htruthful : d.provenance.Truthful m constants := truthful_after constants threshold h
  refine ⟨?_, render_after constants threshold _ w, evaluates_expand htruthful threshold w⟩
  intro r hr op horigin
  have hrecord := htruthful w r hr
  rw [Production.Explains, horigin] at hrecord
  exact hrecord

/-- Sums for additions, and a digest that is the bytes it is made of with the first one set. -/
def sums : Semantics where
  compute op inputs :=
    match op with
    | .add => Word.ofBytes (toBigEndian 32 (inputs.map Word.value).sum)
    | _ => .zero
  hash bytes := Word.ofBytes (1 :: bytes.tail)

/-- One slot of memory, which holds seven, is hashed. -/
def hashOfSeven : Step where
  op := "KECCAK256"
  stack := [Word.ofUInt64 32, Word.zero]
  memory := some [Word.ofUInt64 7]

/-- Three and four are added, and the sum is hashed from memory. -/
def addThenHash : List Step :=
  [{ op := "ADD", stack := [Word.ofUInt64 4, Word.ofUInt64 3] },
    { op := "PUSH1", stack := [Word.ofUInt64 7] }, hashOfSeven,
    { op := "STOP", stack := [sums.hash (Word.ofUInt64 7).bytes] }]

theorem admitsRun_addThenHash : sums.AdmitsRun addThenHash := by
  have hadd : Opcode.ofMnemonic? "ADD" = some .add := by decide +kernel
  have hpush : Opcode.ofMnemonic? "PUSH1" = some (.push 1) := by decide +kernel
  have hhash : Opcode.ofMnemonic? "KECCAK256" = some .sha3 := by decide +kernel
  refine .cons_cons ⟨?_, ?_⟩ (.cons_cons ⟨?_, ?_⟩ (.cons_cons ⟨?_, ?_⟩ (.singleton _)))
  · intro op inputs outputs hop heffect
    cases hadd.symm.trans hop
    cases heffect
    decide +kernel
  · intro op bytes hop heffect
    cases hadd.symm.trans hop
    cases heffect
  · intro op inputs outputs hop heffect
    cases hpush.symm.trans hop
    cases heffect
  · intro op bytes hop heffect
    cases hpush.symm.trans hop
    cases heffect
  · intro op inputs outputs hop heffect
    cases hhash.symm.trans hop
    cases heffect
  · intro op bytes hop heffect hbytes
    cases hhash.symm.trans hop
    have hwindow : hashOfSeven.windowBytes? = some (Word.ofUInt64 7).bytes := by decide +kernel
    cases hwindow.symm.trans hbytes
    rfl

theorem evaluates_render_addThenHash :
    sums.AdmitsRun addThenHash ∧
      let d := (new [("THREE", Word.ofUInt64 3)] 0).after (Step.calls addThenHash)
      let digest := sums.hash (Word.ofUInt64 7).bytes
      d.provenance.records digest = [⟨.computed .sha3, [Word.ofUInt64 7]⟩] ∧
        sums.Yields .sha3 [Word.ofUInt64 7] digest ∧
        Evaluates sums [("THREE", Word.ofUInt64 3)] (d.provenance.expand 0 digest) digest := by
  have hrecords : ((new [("THREE", Word.ofUInt64 3)] 0).after
      (Step.calls addThenHash)).provenance.records (sums.hash (Word.ofUInt64 7).bytes) =
        [⟨.computed .sha3, [Word.ofUInt64 7]⟩] := by
    rw [records_after]
    decide +kernel
  obtain ⟨hyields, -, hevaluates⟩ := evaluates_render sums [("THREE", Word.ofUInt64 3)] 0
    addThenHash admitsRun_addThenHash (sums.hash (Word.ofUInt64 7).bytes)
  refine ⟨admitsRun_addThenHash, hrecords, ?_, hevaluates⟩
  exact hyields ⟨.computed .sha3, [Word.ofUInt64 7]⟩ (by simp [hrecords]) .sha3 rfl

end Decoder

end TraceGloss
