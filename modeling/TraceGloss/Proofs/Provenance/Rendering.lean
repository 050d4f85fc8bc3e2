import TraceGloss.Provenance.Session
import TraceGloss.Proofs.Provenance.Expansion
import TraceGloss.Proofs.Provenance.History

/-
  The memo never shows.
  A memo is `Faithful` when it holds grounded words only, each with the expression it has below the
  empty path. A walk gives the plain expansion and leaves the memo faithful, and a walk in which
  nothing was cut proves its word grounded (`walkSlot_spec`). A session follows a history when its
  memo is faithful to every snapshot at its revision, which rendering through any snapshot keeps
  (`follows_expression`). So every text of a session is the text of the plain expansion
  (`render_eq_text_expand`).
-/
namespace TraceGloss

namespace Session

@[simp] theorem sync_threshold (s : Session) (revision : Nat) :
    (s.sync revision).threshold = s.threshold := by
  unfold sync
  split <;> rfl

@[simp] theorem sync_revision (s : Session) (revision : Nat) :
    (s.sync revision).revision = revision := by
  unfold sync
  split
  · assumption
  · rfl

end Session

namespace Provenance

/-- Every remembered word is grounded, and remembered with its plain expansion. -/
def Faithful (p : Provenance) (threshold : UInt64) (memo : Std.HashMap Word Expression) : Prop :=
  ∀ w e, memo[w]? = some e → p.Grounded threshold w ∧ p.expandSlot threshold [] w = e

theorem faithful_empty (p : Provenance) (threshold : UInt64) : p.Faithful threshold {} := by
  intro w e h
  simp at h

theorem Faithful.congr {p q : Provenance} {threshold : UInt64}
    {memo : Std.HashMap Word Expression} (h : p.Faithful threshold memo)
    (hproducer : ∀ w, p.producer? w = q.producer? w) : q.Faithful threshold memo := by
  intro w e hw
  obtain ⟨hground, hexpand⟩ := h w e hw
  rw [← grounded_congr hproducer, ← expandSlot_congr hproducer]
  exact ⟨hground, hexpand⟩

theorem Faithful.insert {p : Provenance} {threshold : UInt64}
    {memo : Std.HashMap Word Expression} (h : p.Faithful threshold memo) {w : Word} {e : Expression}
    (hground : p.Grounded threshold w) (hexpand : p.expandSlot threshold [] w = e) :
    p.Faithful threshold (memo.insert w e) := by
  intro v found hv
  rw [Std.HashMap.getElem?_insert] at hv
  by_cases hvw : w = v
  · simp only [hvw, beq_self_eq_true, if_true, Option.some.injEq] at hv
    rw [← hvw, ← hv]
    exact ⟨hground, hexpand⟩
  · simp only [beq_iff_eq, hvw, if_false] at hv
    exact h v found hv

/-! ## Walks -/

/-- What a stretch of a walk does: its memo stays faithful, and `settled` is shown unless a cycle
was cut on the way. -/
structure Advances (p : Provenance) (threshold : UInt64) (before after : Walk) (settled : Prop) :
    Prop where
  faithful : p.Faithful threshold after.memo
  cuts_le : before.cuts ≤ after.cuts
  settled : after.cuts = before.cuts → settled

variable {p : Provenance} {threshold : UInt64}

theorem Advances.stay {walk : Walk} (h : p.Faithful threshold walk.memo) {settled : Prop}
    (hs : settled) : p.Advances threshold walk walk settled :=
  ⟨h, Nat.le_refl _, fun _ => hs⟩

theorem Advances.trans {a b c : Walk} {P Q : Prop} (h1 : p.Advances threshold a b P)
    (h2 : p.Advances threshold b c Q) : p.Advances threshold a c (P ∧ Q) := by
  have hle1 := h1.cuts_le
  have hle2 := h2.cuts_le
  exact ⟨h2.faithful, by omega, fun h => ⟨h1.settled (by omega), h2.settled (by omega)⟩⟩

theorem Advances.imp {a b : Walk} {P Q : Prop} (h : p.Advances threshold a b P) (hPQ : P → Q) :
    p.Advances threshold a b Q :=
  ⟨h.faithful, h.cuts_le, fun hc => hPQ (h.settled hc)⟩

/-- `f` walks from any faithful memo and finds `e`; if nothing is cut then `settled`. -/
def Finds (p : Provenance) (threshold : UInt64) {β : Type} (f : Walk → β × Walk) (e : β)
    (settled : Prop) : Prop :=
  ∀ walk, p.Faithful threshold walk.memo →
    (f walk).1 = e ∧ p.Advances threshold walk (f walk).2 settled

theorem finds_mapThread {α β : Type} {f : α → Walk → β × Walk} {g : α → β} {settled : α → Prop}
    {items : List α} (h : ∀ a ∈ items, p.Finds threshold (f a) (g a) (settled a)) :
    p.Finds threshold (mapThread f items) (items.map g) (∀ a ∈ items, settled a) := by
  induction items with
  | nil =>
    intro walk hwalk
    exact ⟨rfl, .stay hwalk (by simp)⟩
  | cons a rest ih =>
    intro walk hwalk
    obtain ⟨hfirst, hadvance⟩ := h a (List.mem_cons_self ..) walk hwalk
    obtain ⟨hrest, hadvances⟩ :=
      ih (fun b hb => h b (List.mem_cons_of_mem a hb)) (f a walk).2 hadvance.faithful
    refine ⟨?_, ?_⟩
    · rw [mapThread, hfirst, hrest, List.map_cons]
    · exact (hadvance.trans hadvances).imp List.forall_mem_cons.mpr

theorem finds_assembleThread {f : Word → Walk → Expression × Walk} {g : Word → Expression}
    {settled : Word → Prop} {w : Word}
    (h : ∀ v ∈ w.parts, p.Finds threshold (f v) (g v) (settled v)) :
    p.Finds threshold (w.assembleThread f) (w.assemble g) (∀ v ∈ w.parts, settled v) := by
  intro walk hwalk
  by_cases hwide : w.isWide = true
  · rw [Word.parts, if_pos hwide] at h ⊢
    rw [Word.assembleThread, if_pos hwide, Word.assemble, if_pos hwide]
    obtain ⟨hparts, hadvance⟩ := finds_mapThread h walk hwalk
    exact ⟨congrArg Expression.concat hparts, hadvance⟩
  · rw [Word.parts, if_neg hwide] at h ⊢
    rw [Word.assembleThread, if_neg hwide, Word.assemble, if_neg hwide]
    obtain ⟨hword, hadvance⟩ := h w (List.mem_singleton_self w) walk hwalk
    exact ⟨hword, hadvance.imp fun hs v hv => List.mem_singleton.mp hv ▸ hs⟩

theorem walkSlot_hit {walk : Walk} {w : Word} {e : Expression} (h : walk.memo[w]? = some e)
    (path : List Word) : p.walkSlot threshold path w walk = (e, walk) := by
  rw [walkSlot, h]

theorem walkSlot_leaf {walk : Walk} {w : Word} {e : Expression} (hmiss : walk.memo[w]? = none)
    (h : p.view threshold w = .leaf e) (path : List Word) :
    p.walkSlot threshold path w walk = (e, walk.remember w e) := by
  rw [walkSlot]
  simp only [hmiss]
  split <;> simp_all

theorem walkSlot_cut {walk : Walk} {w : Word} {op : Opcode} {inputs : List Word}
    (hmiss : walk.memo[w]? = none) (h : p.view threshold w = .node op inputs) {path : List Word}
    (hw : w ∈ path) : p.walkSlot threshold path w walk = (.literal w, walk.cut) := by
  rw [walkSlot]
  simp only [hmiss]
  split <;> simp_all

theorem walkSlot_node {walk : Walk} {w : Word} {op : Opcode} {inputs : List Word}
    (hmiss : walk.memo[w]? = none) (h : p.view threshold w = .node op inputs) {path : List Word}
    (hw : w ∉ path) :
    p.walkSlot threshold path w walk =
      let args := mapThread (Word.assembleThread (p.walkSlot threshold (w :: path))) inputs walk
      (.apply op args.1,
        if args.2.cuts = walk.cuts then args.2.remember w (.apply op args.1) else args.2) := by
  rw [walkSlot]
  simp only [hmiss]
  split <;> simp_all

/-- A walk finds the plain expansion, and if it cuts nothing then its word is grounded. -/
theorem walkSlot_spec (path : List Word) (w : Word) (hpath : p.LeadsTo threshold path w) :
    p.Finds threshold (p.walkSlot threshold path w) (p.expandSlot threshold path w)
      (p.Grounded threshold w) := by
  intro walk
  induction path, w, walk using walkSlot.induct p threshold with
  | case1 path w walk e hhit =>
    intro hwalk
    obtain ⟨hground, hexpand⟩ := hwalk w e hhit
    rw [walkSlot_hit hhit, expandSlot_of_grounded hground hpath]
    exact ⟨hexpand.symm, .stay hwalk hground⟩
  | case2 path w walk hmiss e hview =>
    intro hwalk
    have hground := grounded_of_leaf hview
    rw [walkSlot_leaf hmiss hview, expandSlot_leaf hview]
    refine ⟨rfl, ?_, Nat.le_refl _, fun _ => hground⟩
    exact hwalk.insert hground (expandSlot_leaf hview [])
  | case3 path w walk hmiss op inputs hview hw =>
    intro hwalk
    rw [walkSlot_cut hmiss hview hw, expandSlot_cut hview hw]
    -- The counter has moved, so nothing is claimed about `w`.
    refine ⟨rfl, hwalk, Nat.le_succ _, ?_⟩
    intro h
    exact absurd h (Nat.succ_ne_self _)
  | case4 path w walk hmiss op inputs hview hw ih =>
    intro hwalk
    have hinputs : p.Finds threshold
        (mapThread (Word.assembleThread (p.walkSlot threshold (w :: path))) inputs)
        (inputs.map (Word.assemble (p.expandSlot threshold (w :: path))))
        (∀ input ∈ inputs, ∀ v ∈ input.parts, p.Grounded threshold v) := by
      apply finds_mapThread
      intro input hinput
      apply finds_assembleThread
      intro v hv walk
      exact ih v walk (hpath.cons (feeds_of_node hview hinput hv))
    obtain ⟨hargs, hadvance⟩ := hinputs walk hwalk
    rw [walkSlot_node hmiss hview hw, expandSlot_node hview hw]
    refine ⟨congrArg (Expression.apply op) hargs, ?_⟩
    dsimp only
    split
    · rename_i hcuts
      have hground := grounded_of_node hview (hadvance.settled hcuts)
      refine ⟨hadvance.faithful.insert hground ?_, hadvance.cuts_le, fun _ => hground⟩
      rw [← expandSlot_of_grounded hground hpath, expandSlot_node hview hw, hargs]
    · rename_i hcuts
      exact ⟨hadvance.faithful, hadvance.cuts_le, fun h => absurd h hcuts⟩

/-- A whole word from an empty path. -/
theorem finds_expand (w : Word) :
    p.Finds threshold (w.assembleThread (p.walkSlot threshold [])) (p.expand threshold w)
      (∀ v ∈ w.parts, p.Grounded threshold v) :=
  finds_assembleThread fun v _ => walkSlot_spec [] v (leadsTo_nil v)

/-! ## Sessions -/

/-- The memo of a session is faithful to every snapshot at the session's revision. -/
def Follows (constants : List (String × Word)) (history : List Registration) (s : Session) : Prop :=
  ∀ n, (snapshot constants history n).revision = s.revision →
    (snapshot constants history n).Faithful s.threshold s.memo

theorem follows_new (constants : List (String × Word)) (history : List Registration)
    (threshold : UInt64) : Follows constants history { threshold } := by
  intro n _
  exact faithful_empty _ _

theorem faithful_sync {constants : List (String × Word)} {history : List Registration}
    {s : Session} (h : Follows constants history s) (n : Nat) :
    (snapshot constants history n).Faithful s.threshold
      (s.sync (snapshot constants history n).revision).memo := by
  unfold Session.sync
  split
  · rename_i hrevision
    exact h n hrevision.symm
  · exact faithful_empty _ _

/-- Rendering through a snapshot gives its plain expansion, and the session still follows. -/
theorem follows_expression {constants : List (String × Word)} {history : List Registration}
    {s : Session} (h : Follows constants history s) (n : Nat) (w : Word) :
    ((snapshot constants history n).expression w s).1 =
        (snapshot constants history n).expand s.threshold w ∧
      ((snapshot constants history n).expression w s).2.threshold = s.threshold ∧
      Follows constants history ((snapshot constants history n).expression w s).2 := by
  obtain ⟨hexpand, hadvance⟩ :=
    finds_expand w ⟨(s.sync (snapshot constants history n).revision).memo, 0⟩ (faithful_sync h n)
  simp only [expression, Session.sync_threshold]
  refine ⟨hexpand, trivial, ?_⟩
  intro m hm
  simp only [Session.sync_revision] at hm
  exact hadvance.faithful.congr (producer?_snapshot constants history hm.symm)

theorem follows_render {constants : List (String × Word)} {history : List Registration}
    {threshold : UInt64} (requests : List (Nat × Word)) {s : Session}
    (h : Follows constants history s) (hthreshold : s.threshold = threshold) :
    (mapThread (fun r => (snapshot constants history r.1).render r.2) requests s).1 =
      requests.map fun r => ((snapshot constants history r.1).expand threshold r.2).text := by
  induction requests generalizing s with
  | nil => rfl
  | cons r rest ih =>
    obtain ⟨hexpand, hkept, hfollows⟩ := follows_expression h r.1 r.2
    have htext : ((snapshot constants history r.1).render r.2 s).1 =
        ((snapshot constants history r.1).expand threshold r.2).text := by
      rw [render, hexpand, hthreshold]
    exact List.cons_eq_cons.mpr ⟨htext, ih hfollows (hkept.trans hthreshold)⟩

end Provenance

/-- Requests for words through snapshots of one history, put to one session in any order: every
answer is the text of the plain expansion against the snapshot that was asked. -/
theorem render_eq_text_expand (constants : List (String × Word)) (history : List Registration)
    (threshold : UInt64) (requests : List (Nat × Word)) :
    (mapThread (fun r => (Provenance.snapshot constants history r.1).render r.2) requests
        { threshold }).1 =
      requests.map fun r =>
        ((Provenance.snapshot constants history r.1).expand threshold r.2).text :=
  Provenance.follows_render requests (Provenance.follows_new constants history threshold) rfl

end TraceGloss
