import TraceGloss.Proofs.Decoder.Instructions
import TraceGloss.Proofs.Decoder.Reading
import TraceGloss.Proofs.Decoder.Run

/-
  The windows in which an instruction shows its operands and results.
  `StackEffect.Turns` says how an instruction turns the stack before it into the one behind it, with what
  it takes and what it leaves there. `StackEffect.Shows` says what is shown between any two stacks: windows
  inside them, each as long as its stack allows (`shows_of_reading`). Such windows are unique, so between
  the stacks of an instruction they are what it took and left (`Turns.eq_of_shows`). The name of a step
  says which instruction it is of (`windows_decode`).
-/
namespace TraceGloss

/-! ## Windows -/

/-- A window of the top `n` words of a stack, or of all of them if there are fewer. -/
def IsTop (n : Nat) (stack window : List Word) : Prop :=
  window <:+ stack ∧ window.length = min n stack.length

/-- A window of the word `depth` places below the top, empty if the stack does not reach down to it. -/
def IsAt (depth : Nat) (stack window : List Word) : Prop :=
  (∃ below w above, stack = below ++ w :: above ∧ above.length = depth ∧ window = [w]) ∨
    (stack.length ≤ depth ∧ window = [])

variable {n depth : Nat} {stack window window' : List Word}

theorem IsTop.eq (h : IsTop n stack window) (h' : IsTop n stack window') : window = window' := by
  obtain ⟨⟨rest, hrest⟩, hlength⟩ := h
  obtain ⟨⟨rest', hrest'⟩, hlength'⟩ := h'
  exact (List.append_inj' (hrest.trans hrest'.symm) (hlength.trans hlength'.symm)).2

theorem isTop_append (rest window : List Word) : IsTop window.length (rest ++ window) window := by
  refine ⟨List.suffix_append rest window, ?_⟩
  rw [List.length_append, Nat.min_eq_left (Nat.le_add_left _ _)]

theorem isTop_topWords (n : Nat) (stack : List Word) : IsTop n stack (topWords stack n) := by
  refine ⟨List.drop_suffix _ _, ?_⟩
  rw [topWords, List.length_drop]
  omega

theorem IsAt.eq (h : IsAt depth stack window) (h' : IsAt depth stack window') :
    window = window' := by
  -- a stack that reaches down to the word is longer than the depth
  have hreach : ∀ (below : List Word) (w : Word) (above : List Word),
      above.length < (below ++ w :: above).length := by
    intro below w above
    rw [List.length_append, List.length_cons]
    omega
  rcases h with ⟨below, w, above, hstack, hdepth, rfl⟩ | ⟨hshort, rfl⟩
  · rcases h' with ⟨below', w', above', hstack', hdepth', rfl⟩ | ⟨hshort, rfl⟩
    · have htails : (w :: above).length = (w' :: above').length := by
        rw [List.length_cons, List.length_cons, hdepth, hdepth']
      have htail := (List.append_inj' (hstack.symm.trans hstack') htails).2
      rw [(List.cons.inj htail).1]
    · have := hreach below w above
      rw [← hstack] at this
      omega
  · rcases h' with ⟨below, w, above, hstack, hdepth, rfl⟩ | ⟨-, rfl⟩
    · have := hreach below w above
      rw [← hstack] at this
      omega
    · rfl

theorem isAt_append (below : List Word) (w : Word) (above : List Word) :
    IsAt above.length (below ++ w :: above) [w] :=
  .inl ⟨below, w, above, rfl, rfl, rfl⟩

theorem isAt_fromTop? (depth : Nat) (stack : List Word) :
    IsAt depth stack (fromTop? stack depth).toList := by
  by_cases h : depth < stack.reverse.length
  · -- the word splits the stack seen from its top
    have hsplit := congrArg List.reverse (List.take_append_drop depth stack.reverse)
    rw [List.drop_eq_getElem_cons h, List.reverse_reverse, List.reverse_append,
      List.reverse_cons, List.append_assoc, List.singleton_append] at hsplit
    have hfound : fromTop? stack depth = some stack.reverse[depth] := List.getElem?_eq_getElem h
    rw [hfound]
    refine .inl ⟨_, _, _, hsplit.symm, ?_, rfl⟩
    rw [List.length_reverse, List.length_take, Nat.min_eq_left (Nat.le_of_lt h)]
  · have hnone : fromTop? stack depth = none := List.getElem?_eq_none (Nat.le_of_not_lt h)
    rw [hnone]
    rw [List.length_reverse] at h
    exact .inr ⟨Nat.le_of_not_lt h, rfl⟩

/-! ## What instructions do to the stack, and what is shown of it -/

namespace StackEffect

/-- How an instruction turns the stack before it into the one behind it, with the words that it takes and
those that it leaves. A copy takes and leaves the words from below the one copied up to the copy; an
exchange brings up what it takes and puts down what it leaves. -/
inductive Turns : StackEffect → List Word → List Word → List Word → List Word → Prop
  | fixed (rest operands results : List Word) (derives : Bool) :
      Turns (.fixed operands.length results.length derives) (rest ++ operands) (rest ++ results)
        operands results
  | push (width : Nat) (stack : List Word) (w : Word) : Turns (.push width) stack (stack ++ [w]) [] [w]
  | dup (rest above : List Word) (w : Word) :
      Turns (.dup (above.length + 1)) (rest ++ w :: above) (rest ++ w :: above ++ [w])
        (above ++ [w]) (above ++ [w])
  | swap (rest between : List Word) (low top : Word) :
      Turns (.swap (between.length + 1)) (rest ++ low :: (between ++ [top]))
        (rest ++ top :: (between ++ [low])) [low] [top]

/-- What is shown of an instruction between the stack before it and the one behind it. The operand of a
hash is no window of a stack. -/
def Shows (before next operands results : List Word) : StackEffect → Prop
  | .fixed inputs outputs _ => IsTop inputs before operands ∧ IsTop outputs next results
  | .push _ => operands = [] ∧ IsTop 1 next results
  | .dup n => IsTop n next operands ∧ IsTop n next results
  | .swap n => IsAt 0 next operands ∧ IsAt n next results
  | .log topics => IsTop topics before operands ∧ results = []
  | .hash => operands.length = 1 ∧ IsTop 1 next results
  | .unmodelled => operands = [] ∧ results = []

/-- Between the stacks of an instruction, what it took and what it left is shown. -/
theorem Turns.eq_of_shows {effect : StackEffect} {before next operands results : List Word}
    {shown shown' : List Word} (h : effect.Turns before next operands results)
    (hshows : effect.Shows before next shown shown') : shown = operands ∧ shown' = results := by
  cases h with
  | fixed rest =>
    exact ⟨hshows.1.eq (isTop_append rest operands), hshows.2.eq (isTop_append rest results)⟩
  | push width _ w => exact ⟨hshows.1, hshows.2.eq (isTop_append before [w])⟩
  | dup rest above w =>
    have hcopied : IsTop (above.length + 1) (rest ++ w :: above ++ [w]) (above ++ [w]) := by
      have h := isTop_append (rest ++ [w]) (above ++ [w])
      rwa [List.length_append, List.append_assoc, List.singleton_append, ← List.cons_append,
        ← List.append_assoc] at h
    exact ⟨hshows.1.eq hcopied, hshows.2.eq hcopied⟩
  | swap rest between low top =>
    have hlow : IsAt 0 (rest ++ top :: (between ++ [low])) [low] := by
      have h := isAt_append (rest ++ top :: between) low []
      rwa [List.append_assoc, List.cons_append] at h
    have htop : IsAt (between.length + 1) (rest ++ top :: (between ++ [low])) [top] := by
      have h := isAt_append rest top (between ++ [low])
      rwa [List.length_append] at h
    exact ⟨hshows.1.eq hlow, hshows.2.eq htop⟩

theorem Turns.ne {effect : StackEffect} {before next operands results : List Word}
    (h : effect.Turns before next operands results) : effect ≠ .hash ∧ effect ≠ .unmodelled := by
  cases h <;> exact ⟨nofun, nofun⟩

end StackEffect

/-! ## What a decoder shows -/

variable {s : Step} {op : Opcode} {next : List Word}

/-- Only an instruction without a model, or a hash without a window, is shown by name only. -/
theorem effect_of_unread (hop : s.opcode? = some op) (h : reading? s next = none) :
    op.stackEffect = .unmodelled ∨ op.stackEffect = .hash ∧ s.hashWindow? = none := by
  cases heffect : op.stackEffect with
  | hash =>
    rw [reading_of_hash hop heffect, Option.map_eq_none_iff] at h
    exact .inr ⟨rfl, h⟩
  | unmodelled => exact .inl rfl
  | fixed inputs outputs derives | push width | dup n | swap n | log topics =>
    simp [reading?, hop, heffect] at h

theorem shows_of_reading {r : Reading} (hop : s.opcode? = some op) (h : reading? s next = some r) :
    op.stackEffect.Shows s.stack next r.operands r.results := by
  simp only [reading?, hop, Option.bind_eq_bind, Option.bind_some] at h
  split at h <;> rename_i heffect <;> rw [heffect]
  case h_6 =>
    obtain ⟨window, -, hr⟩ := Option.bind_eq_some_iff.mp h
    cases hr
    exact ⟨rfl, isTop_topWords _ _⟩
  all_goals cases h
  · exact ⟨isTop_topWords _ _, isTop_topWords _ _⟩
  · exact ⟨rfl, isTop_topWords _ _⟩
  · exact ⟨isTop_topWords _ _, isTop_topWords _ _⟩
  · exact ⟨isAt_fromTop? _ _, isAt_fromTop? _ _⟩
  · exact ⟨isTop_topWords _ _, rfl⟩

namespace Decoder

/-- The windows that are shown are those of the effect that the step's name is listed for. -/
theorem shows_decode (d : Decoder) (s : Step) (next : List Word) :
    let answer := (d.decode s next).1
    if answer.modelled then
      (∃ effect : StackEffect, s.op ∈ effect.names) ∧
      ∀ effect : StackEffect, s.op ∈ effect.names →
        effect.Shows s.stack next answer.operands answer.results
    else
      (∀ effect : StackEffect, s.op ∈ effect.names →
        effect = .unmodelled ∨ effect = .hash ∧ s.hashWindow? = none) ∧
      answer.operands = [] ∧ answer.results = [] := by
  intro answer
  cases hread : reading? s next with
  | none =>
    have hdecode := decode_of_unread hread d
    simp only [answer, hdecode, Bool.false_eq_true, if_false, and_self, and_true]
    intro effect hname
    obtain ⟨op, hop, rfl⟩ := StackEffect.mem_names_iff.mp hname
    exact effect_of_unread hop hread
  | some r =>
    obtain ⟨op, hop, -⟩ := Option.bind_eq_some_iff.mp hread
    have hdecode := decode_of_reading hread d
    simp only [answer, hdecode, if_true]
    refine ⟨⟨_, StackEffect.mem_names_iff.mpr ⟨op, hop, rfl⟩⟩, ?_⟩
    intro effect hname
    obtain ⟨op, hop, rfl⟩ := StackEffect.mem_names_iff.mp hname
    exact shows_of_reading hop hread

theorem decode_of_turns (d : Decoder) {effect : StackEffect} {operands results : List Word}
    (hname : s.op ∈ effect.names) (h : effect.Turns s.stack next operands results) :
    let answer := (d.decode s next).1
    answer.modelled ∧ answer.operands = operands ∧ answer.results = results := by
  intro answer
  have hshown := shows_decode d s next
  dsimp only at hshown
  split at hshown
  · rename_i hmodelled
    exact ⟨hmodelled, h.eq_of_shows (hshown.2 effect hname)⟩
  · rcases hshown.1 effect hname with hunmodelled | ⟨hhash, -⟩
    · exact absurd hunmodelled h.ne.2
    · exact absurd hhash h.ne.1

/-- Between the stacks of an instruction, what it took and what it left is shown as its operands and
results; those of an exchange look alike only if the words exchanged are the same. Between any two
stacks, also none behind the last step, what is shown are windows inside them, each as long as its
stack allows, and nothing is shown of a step that is shown by name only. Which windows these are is a
matter of the step's name alone. -/
theorem windows_decode (d : Decoder) (s : Step) (next : List Word) :
    let answer := (d.decode s next).1
    (∀ (effect : StackEffect) (operands results : List Word), s.op ∈ effect.names →
      effect.Turns s.stack next operands results →
      answer.modelled ∧ answer.operands = operands ∧ answer.results = results) ∧
    (∀ rest between low top, s.op ∈ (StackEffect.swap (between.length + 1)).names →
      s.stack = rest ++ low :: (between ++ [top]) → next = rest ++ top :: (between ++ [low]) →
      answer.operands = answer.results → low = top) ∧
    if answer.modelled then
      (∃ effect : StackEffect, s.op ∈ effect.names) ∧
      ∀ effect : StackEffect, s.op ∈ effect.names →
        effect.Shows s.stack next answer.operands answer.results
    else
      (∀ effect : StackEffect, s.op ∈ effect.names →
        effect = .unmodelled ∨ effect = .hash ∧ s.hashWindow? = none) ∧
      answer.operands = [] ∧ answer.results = [] := by
  intro answer
  refine ⟨?_, ?_, shows_decode d s next⟩
  · intro effect operands results hname h
    exact decode_of_turns d hname h
  · intro rest between low top hname hstack hnext hequal
    have h := StackEffect.Turns.swap rest between low top
    rw [← hstack, ← hnext] at h
    obtain ⟨-, hoperands, hresults⟩ := decode_of_turns d hname h
    rw [hoperands, hresults] at hequal
    exact List.singleton_inj.mp hequal

/-- A copy of the third word from the top. -/
def copying : Step := { op := "DUP3", stack := [.ofUInt64 1, .ofUInt64 2, .ofUInt64 3] }

/-- An exchange of the word on top with the one three places below it. -/
def exchanging : Step :=
  { op := "SWAP3", stack := [.ofUInt64 40, .ofUInt64 20, .ofUInt64 30, .ofUInt64 10] }

theorem windows_decode_copying_exchanging :
    let copied := [.ofUInt64 1, .ofUInt64 2, .ofUInt64 3, .ofUInt64 1]
    let exchanged := [.ofUInt64 10, .ofUInt64 20, .ofUInt64 30, .ofUInt64 40]
    let copy := ((new [] defaultThreshold).decode copying copied).1
    let exchange := ((new [] defaultThreshold).decode exchanging exchanged).1
    (copy.modelled ∧ copy.operands = [.ofUInt64 2, .ofUInt64 3, .ofUInt64 1] ∧
      copy.results = [.ofUInt64 2, .ofUInt64 3, .ofUInt64 1]) ∧
    (exchange.modelled ∧ exchange.operands = [.ofUInt64 40] ∧
      exchange.results = [.ofUInt64 10]) ∧
    exchange.operands ≠ exchange.results := by
  intro copied exchanged copy exchange
  obtain ⟨hcopy, -⟩ := windows_decode (new [] defaultThreshold) copying copied
  obtain ⟨hexchange, hdiffer, -⟩ := windows_decode (new [] defaultThreshold) exchanging exchanged
  have hdup : copying.op ∈ (StackEffect.dup 3).names := by decide +kernel
  have hswap : exchanging.op ∈ (StackEffect.swap 3).names := by decide +kernel
  refine ⟨hcopy _ _ _ hdup (.dup [] [.ofUInt64 2, .ofUInt64 3] (.ofUInt64 1)), ?_, ?_⟩
  · exact hexchange _ _ _ hswap
      (.swap [] [.ofUInt64 20, .ofUInt64 30] (.ofUInt64 40) (.ofUInt64 10))
  · intro hequal
    have h := hdiffer [] [.ofUInt64 20, .ofUInt64 30] (.ofUInt64 40) (.ofUInt64 10) hswap rfl rfl hequal
    exact absurd h (by decide)

end Decoder

end TraceGloss
