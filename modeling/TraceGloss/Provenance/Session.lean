import TraceGloss.Provenance.Expansion

/-
  Rendering with a memo.
  A `Session` remembers the expressions of slot-sized words at one revision of a provenance, and
  starts afresh at another. A walk counts the cycles it cuts: an expression in which something was cut
  depends on where the walk started and is not remembered.
-/
namespace TraceGloss

/-- Values below this are shown as literals unless a session says otherwise. -/
def defaultThreshold : UInt64 := 10000

/-- Expressions remembered at one revision. -/
structure Session where
  threshold : UInt64 := defaultThreshold
  revision : Nat := 0
  memo : Std.HashMap Word Expression := {}

instance : Inhabited Session := ⟨{}⟩

namespace Session

/-- The number of expressions remembered. -/
def cached (s : Session) : Nat := s.memo.size

/-- The session at a revision. -/
def sync (s : Session) (revision : Nat) : Session :=
  if s.revision = revision then s else { s with revision, memo := {} }

end Session

/-- The state of a walk: what is remembered, and how many cycles were cut. -/
structure Walk where
  memo : Std.HashMap Word Expression
  cuts : Nat

namespace Walk

def remember (walk : Walk) (w : Word) (e : Expression) : Walk :=
  { walk with memo := walk.memo.insert w e }

/-- A cycle was cut. -/
def cut (walk : Walk) : Walk := { walk with cuts := walk.cuts + 1 }

end Walk

/-- Maps a list from left to right while a state is handed on. -/
def mapThread {α β σ : Type} (f : α → σ → β × σ) : List α → σ → List β × σ
  | [], s => ([], s)
  | a :: rest, s =>
    let first := f a s
    let others := mapThread f rest first.2
    (first.1 :: others.1, others.2)

/-- A word through the walk `f` of its slots. -/
def Word.assembleThread (f : Word → Walk → Expression × Walk) (w : Word) (walk : Walk) :
    Expression × Walk :=
  if w.isWide then
    let parts := mapThread f w.slots walk
    (.concat parts.1, parts.2)
  else f w walk

namespace Provenance

/-- The expression of a slot-sized word below the words of `path`, with the memo of a walk. -/
def walkSlot (p : Provenance) (threshold : UInt64) (path : List Word) (w : Word) (walk : Walk) :
    Expression × Walk :=
  match walk.memo[w]? with
  | some e => (e, walk)
  | none =>
    match _ : p.view threshold w with
    | .leaf e => (e, walk.remember w e)
    | .node op inputs =>
      if _ : w ∈ path then (.literal w, walk.cut)
      else
        let args := mapThread (fun input => input.assembleThread fun slot walk =>
          walkSlot p threshold (w :: path) slot walk) inputs walk
        let e := .apply op args.1
        (e, if args.2.cuts = walk.cuts then args.2.remember w e else args.2)
termination_by p.remaining path
decreasing_by exact remaining_cons_lt (isDerived_of_view ‹_›) ‹_›

/-- The expression of a word in a session, and the session afterwards. -/
def expression (p : Provenance) (w : Word) (s : Session) : Expression × Session :=
  let s := s.sync p.revision
  let found := w.assembleThread (p.walkSlot s.threshold []) ⟨s.memo, 0⟩
  (found.1, { s with memo := found.2.memo })

/-- The text of a word in a session, and the session afterwards. -/
def render (p : Provenance) (w : Word) (s : Session) : String × Session :=
  let found := p.expression w s
  (found.1.text, found.2)

end Provenance

end TraceGloss
