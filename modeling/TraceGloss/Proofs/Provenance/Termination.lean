import Mathlib.Data.Set.Card
import TraceGloss.Proofs.Provenance.Evaluation
import TraceGloss.Proofs.Provenance.Rendering

/-
  Why rendering comes to an end.
  A `Descent` is a walk that pushes the word it expands onto a path and pops it again, with every
  visit on record. Expansions nest only as deep as an allowance says; a descent that needs more gives
  up. A path is `Expanding` when it holds distinct words that can be expanded, and then it is no
  longer than there are such words (`Expanding.length_le`). So with that allowance a descent never
  gives up, does what the walk does, and has every visit end on the path it began on
  (`mirrors_visitSlot`, `render_ends`), whatever cycles the map has.
-/
namespace TraceGloss

/-- A visit to a word that is over: the path when it began and the path when it ended. A path grows
just before a visit and shrinks just after one, so these are all the paths of a walk. -/
structure Visit where
  word : Word
  before : List Word
  after : List Word

/-- A walk with its path, which holds the words being expanded, innermost first. -/
structure Descent where
  walk : Walk
  path : List Word := []
  visits : List Visit := []

namespace Descent

def remember (d : Descent) (w : Word) (e : Expression) : Descent :=
  { d with walk := d.walk.remember w e }

/-- A cycle was cut. -/
def cut (d : Descent) : Descent := { d with walk := d.walk.cut }

/-- The expansion of a word begins. -/
def push (d : Descent) (w : Word) : Descent := { d with path := w :: d.path }

/-- The innermost expansion is over. -/
def pop (d : Descent) : Descent := { d with path := d.path.tail }

@[simp] theorem push_walk (d : Descent) (w : Word) : (d.push w).walk = d.walk := rfl

@[simp] theorem pop_walk (d : Descent) : d.pop.walk = d.walk := rfl

/-- Makes a visit to `w` and puts it on record. -/
def record (w : Word) (visit : Descent → Option (Expression × Descent)) (d : Descent) :
    Option (Expression × Descent) := do
  let (e, after) ← visit d
  return (e, { after with visits := after.visits ++ [⟨w, d.path, after.path⟩] })

/-- Visits words from left to right. -/
def visitAll (visit : Word → Descent → Option (Expression × Descent)) :
    List Word → Descent → Option (List Expression × Descent)
  | [], d => some ([], d)
  | w :: rest, d => do
    let (e, d) ← visit w d
    let (es, d) ← visitAll visit rest d
    return (e :: es, d)

/-- Visits a word through its slots. -/
def visitWord (visit : Word → Descent → Option (Expression × Descent)) (w : Word) :
    Descent → Option (Expression × Descent) :=
  record w fun d =>
    if w.isWide then do
      let (parts, d) ← visitAll visit w.slots d
      return (.concat parts, d)
    else visit w d

end Descent

namespace Provenance

open Descent

/-- Looks at a slot-sized word. The inputs of a word to expand are visited by `descend`. -/
def look (p : Provenance) (threshold : UInt64)
    (descend : List Word → Descent → Option (List Expression × Descent)) (w : Word) (d : Descent) :
    Option (Expression × Descent) :=
  match d.walk.memo[w]? with
  | some e => some (e, d)
  | none =>
    match p.view threshold w with
    | .leaf e => some (e, d.remember w e)
    | .node op inputs =>
      if w ∈ d.path then some (.literal w, d.cut)
      else do
        let (args, below) ← descend inputs (d.push w)
        let e := .apply op args
        let after := below.pop
        return (e, if after.walk.cuts = d.walk.cuts then after.remember w e else after)

/-- Visits a slot-sized word, with no more expansions nested than the allowance, its own included. -/
def visitSlot (p : Provenance) (threshold : UInt64) :
    Nat → Word → Descent → Option (Expression × Descent)
  | 0, w => record w (p.look threshold (fun _ _ => none) w)
  | allowance + 1, w =>
    record w (p.look threshold (visitAll (visitWord (visitSlot p threshold allowance))) w)

/-- A word that can be expanded: it fits in a slot, and its producer computed it from one input or
more. -/
def Expandable (p : Provenance) (w : Word) : Prop :=
  w.isWide = false ∧ ∃ op input inputs, p.producer? w = some ⟨.computed op, input :: inputs⟩

/-- A path of distinct words that can be expanded. -/
structure Expanding (p : Provenance) (path : List Word) : Prop where
  nodup : path.Nodup
  expandable : ∀ w ∈ path, p.Expandable w

/-- Every visit began on an expanding path, and ended on the path it began on. -/
def Tidy (p : Provenance) (visits : List Visit) : Prop :=
  ∀ v ∈ visits, p.Expanding v.before ∧ v.after = v.before

variable {p : Provenance} {threshold : UInt64}

/-! ## Paths -/

theorem expandable_of_view {w : Word} {op : Opcode} {inputs : List Word}
    (h : p.view threshold w = .node op inputs) (hw : w.isWide = false) : p.Expandable w := by
  refine ⟨hw, ?_⟩
  rw [view] at h
  split at h
  · cases h
  · split at h
    all_goals cases h
    rename_i heq
    exact ⟨_, _, _, heq⟩

theorem finite_expandable (p : Provenance) : {w | p.Expandable w}.Finite := by
  apply (List.finite_toSet p.derived).subset
  rintro w ⟨-, op, input, inputs, hw⟩
  show w ∈ p.derived
  rw [mem_derived, isDerived, hw]

theorem expanding_nil (p : Provenance) : p.Expanding [] :=
  ⟨List.nodup_nil, by simp⟩

theorem Expanding.cons {path : List Word} (h : p.Expanding path) {w : Word} (hw : w ∉ path)
    (hexpandable : p.Expandable w) : p.Expanding (w :: path) :=
  ⟨List.nodup_cons.mpr ⟨hw, h.nodup⟩, List.forall_mem_cons.mpr ⟨hexpandable, h.expandable⟩⟩

/-- A path is no longer than there are words that can be expanded. -/
theorem Expanding.length_le {path : List Word} (h : p.Expanding path) :
    path.length ≤ {w | p.Expandable w}.ncard := by
  have hsubset : (path.toFinset : Set Word) ⊆ {w | p.Expandable w} := by
    intro w hw
    exact h.expandable w (List.mem_toFinset.mp hw)
  have hcard := Set.ncard_le_ncard hsubset (finite_expandable p)
  rwa [Set.ncard_coe_finset, List.toFinset_card_of_nodup h.nodup] at hcard

/-! ## Descents mirror walks -/

/-- From every state on this path, `visit` comes to an end; it finds what `plain` finds, leaves the
same walk behind, and is back on the path. -/
def Mirrors (p : Provenance) (path : List Word) {α : Type} (visit : Descent → Option (α × Descent))
    (plain : Walk → α × Walk) : Prop :=
  ∀ d : Descent, d.path = path → p.Tidy d.visits →
    ∃ after, visit d = some ((plain d.walk).1, after) ∧ after.walk = (plain d.walk).2 ∧
      after.path = path ∧ p.Tidy after.visits

theorem mirrors_record {path : List Word} (hpath : p.Expanding path) {w : Word}
    {visit : Descent → Option (Expression × Descent)} {plain : Walk → Expression × Walk}
    (h : p.Mirrors path visit plain) : p.Mirrors path (record w visit) plain := by
  intro d hd htidy
  obtain ⟨after, hvisit, hwalk, hafter, hvisits⟩ := h d hd htidy
  refine ⟨{ after with visits := after.visits ++ [⟨w, d.path, after.path⟩] }, ?_, hwalk, hafter, ?_⟩
  · simp [record, hvisit]
  · intro v hv
    rcases List.mem_append.mp hv with hv | hv
    · exact hvisits v hv
    · rw [List.mem_singleton.mp hv]
      exact ⟨hd ▸ hpath, hafter.trans hd.symm⟩

theorem mirrors_visitAll {path : List Word} {visit : Word → Descent → Option (Expression × Descent)}
    {plain : Word → Walk → Expression × Walk} {words : List Word}
    (h : ∀ w ∈ words, p.Mirrors path (visit w) (plain w)) :
    p.Mirrors path (visitAll visit words) (mapThread plain words) := by
  induction words with
  | nil =>
    intro d hd htidy
    exact ⟨d, rfl, rfl, hd, htidy⟩
  | cons w rest ih =>
    intro d hd htidy
    obtain ⟨between, hfirst, hwalk, hpath, hvisits⟩ := h w (List.mem_cons_self ..) d hd htidy
    obtain ⟨after, hrest, hwalks, hpaths, hall⟩ :=
      ih (fun v hv => h v (List.mem_cons_of_mem w hv)) between hpath hvisits
    rw [hwalk] at hrest hwalks
    exact ⟨after, by simp [visitAll, hfirst, hrest, mapThread], hwalks, hpaths, hall⟩

theorem mirrors_visitWord {path : List Word} (hpath : p.Expanding path)
    {visit : Word → Descent → Option (Expression × Descent)}
    {plain : Word → Walk → Expression × Walk} {w : Word}
    (h : ∀ v ∈ w.parts, p.Mirrors path (visit v) (plain v)) :
    p.Mirrors path (visitWord visit w) (w.assembleThread plain) := by
  apply mirrors_record hpath
  by_cases hwide : w.isWide = true
  · rw [Word.parts, if_pos hwide] at h
    intro d hd htidy
    obtain ⟨after, hparts, hwalk, hafter, hvisits⟩ := mirrors_visitAll h d hd htidy
    rw [Word.assembleThread, if_pos hwide]
    exact ⟨after, by simp [hwide, hparts], hwalk, hafter, hvisits⟩
  · rw [Word.parts, if_neg hwide] at h
    intro d hd htidy
    obtain ⟨after, hvisit, hwalk, hafter, hvisits⟩ := h w (List.mem_singleton_self w) d hd htidy
    rw [Word.assembleThread, if_neg hwide]
    exact ⟨after, by simp [hwide, hvisit], hwalk, hafter, hvisits⟩

theorem mirrors_look {path : List Word} {w : Word}
    {descend : List Word → Descent → Option (List Expression × Descent)}
    (h : ∀ op inputs, p.view threshold w = .node op inputs → w ∉ path →
      p.Mirrors (w :: path) (descend inputs)
        (mapThread (Word.assembleThread (p.walkSlot threshold (w :: path))) inputs)) :
    p.Mirrors path (p.look threshold descend w) (p.walkSlot threshold path w) := by
  rintro d rfl htidy
  rw [look]
  cases hmemo : d.walk.memo[w]? with
  | some e =>
    rw [walkSlot_hit hmemo]
    exact ⟨d, rfl, rfl, rfl, htidy⟩
  | none =>
    cases hview : p.view threshold w with
    | leaf e =>
      rw [walkSlot_leaf hmemo hview]
      exact ⟨d.remember w e, rfl, rfl, rfl, htidy⟩
    | node op inputs =>
      by_cases hmem : w ∈ d.path
      · rw [walkSlot_cut hmemo hview hmem]
        exact ⟨d.cut, if_pos hmem, rfl, rfl, htidy⟩
      · obtain ⟨below, hbelow, hwalk, hpath, hvisits⟩ :=
          h op inputs hview hmem (d.push w) rfl htidy
        have hpop : below.pop.path = d.path := congrArg List.tail hpath
        rw [push_walk] at hbelow hwalk
        rw [walkSlot_node hmemo hview hmem]
        dsimp only
        rw [if_neg hmem, hbelow, ← hwalk]
        refine ⟨_, rfl, ?_⟩
        rw [pop_walk]
        by_cases hcuts : below.walk.cuts = d.walk.cuts
        · rw [if_pos hcuts, if_pos hcuts]
          exact ⟨rfl, hpop, hvisits⟩
        · rw [if_neg hcuts, if_neg hcuts]
          exact ⟨rfl, hpop, hvisits⟩

/-- A descent mirrors the walk as long as its allowance covers the words that are not yet on the
path. -/
theorem mirrors_visitSlot {allowance : Nat} {path : List Word} (hpath : p.Expanding path)
    (hallowance : {w | p.Expandable w}.ncard ≤ path.length + allowance) {w : Word}
    (hw : w.isWide = false) :
    p.Mirrors path (visitSlot p threshold allowance w) (p.walkSlot threshold path w) := by
  induction allowance generalizing path w with
  | zero =>
    apply mirrors_record hpath
    apply mirrors_look
    intro op inputs hview hmem
    -- Every word that can be expanded is on the path already.
    have hlength := (hpath.cons hmem (expandable_of_view hview hw)).length_le
    rw [List.length_cons] at hlength
    omega
  | succ allowance ih =>
    apply mirrors_record hpath
    apply mirrors_look
    intro op inputs hview hmem
    have hpush := hpath.cons hmem (expandable_of_view hview hw)
    apply mirrors_visitAll
    intro input _
    apply mirrors_visitWord hpush
    intro v hv
    refine ih hpush ?_ (Word.isWide_of_mem_parts hv)
    rw [List.length_cons]
    omega

/-- Rendering a word ends, whatever the map and whatever the session remembers: with expansions nested
as deep as there are words that can be expanded, and no deeper. A visit begins on a path of distinct
words of that kind, and is back on it when it ends. -/
theorem render_ends (p : Provenance) (s : Session) (w : Word) :
    ∃ e after,
      visitWord (p.visitSlot s.threshold {u | p.Expandable u}.ncard) w
          { walk := ⟨(s.sync p.revision).memo, 0⟩ } = some (e, after) ∧
        p.render w s = (e.text, { s.sync p.revision with memo := after.walk.memo }) ∧
        after.path = [] ∧
        ∀ v ∈ after.visits,
          v.before.Nodup ∧ (∀ u ∈ v.before, p.Expandable u) ∧
            v.before.length ≤ {u | p.Expandable u}.ncard ∧ v.after = v.before := by
  have hmirrors : p.Mirrors [] (visitWord (p.visitSlot s.threshold {u | p.Expandable u}.ncard) w)
      (w.assembleThread (p.walkSlot s.threshold [])) := by
    apply mirrors_visitWord p.expanding_nil
    intro v hv
    exact mirrors_visitSlot p.expanding_nil (by simp) (Word.isWide_of_mem_parts hv)
  obtain ⟨after, hvisit, hwalk, hpath, hvisits⟩ :=
    hmirrors { walk := ⟨(s.sync p.revision).memo, 0⟩ } rfl (by simp [Tidy])
  refine ⟨_, after, hvisit, ?_, hpath, ?_⟩
  · simp only [render, expression, hwalk, Session.sync_threshold]
  · intro v hv
    obtain ⟨hbefore, hafter⟩ := hvisits v hv
    exact ⟨hbefore.nodup, hbefore.expandable, hbefore.length_le, hafter⟩

end Provenance

end TraceGloss
