import TraceGloss.Tracer.Frames

/-
  The depth column of a trace, and what it says about frames.
  `openerBefore?` is the step that opened the level of a depth as it stands before some step, and
  `exitBefore?` the step at which the frame opened by a step is left, as far as a part of the trace
  shows. Both look at depths only. `costSeen` is the gas that a step is charged with on that
  evidence.
-/
namespace TraceGloss

/-- The depth of a step; nought behind the end. -/
def depthAt (steps : List Step) (i : Nat) : Nat := ((steps[i]?).map (·.depth.toNat)).getD 0

/-- The gas left before a step. -/
def gasAt (steps : List Step) (i : Nat) : UInt64 := ((steps[i]?).map (·.gas)).getD 0

/-- The cost that the trace itself has at a step. -/
def gasCostAt (steps : List Step) (i : Nat) : Nat := ((steps[i]?).map (·.gasCost.toNat)).getD 0

/-- The last step before step `i` whose depth is below `d`. -/
def openerBefore? (steps : List Step) (i d : Nat) : Option Nat :=
  (List.range i).reverse.find? fun j => depthAt steps j < d

/-- The first step `j` behind step `i` with a shallower step than `i + 1` behind it, among the first
`m` steps. -/
def exitBefore? (steps : List Step) (m i : Nat) : Option Nat :=
  (List.range m).find? fun j => i < j ∧ depthAt steps (j + 1) < depthAt steps (i + 1)

/-- What step `i` costs, as far as the first `m` steps show, with the step behind each. -/
def costSeen (steps : List Step) (m i : Nat) : Nat :=
  if m ≤ i then 0
  else if depthAt steps (i + 1) = depthAt steps i then gasCostAt steps (i + 1)
  else if depthAt steps (i + 1) < depthAt steps i then 0
  else
    match exitBefore? steps m i with
    | some j => (gasAt steps (i + 1)).toNat - (gasAt steps (j + 1)).toNat
    | none => gasCostAt steps (i + 1)

section Columns

variable {steps : List Step} {s : Step} {i : Nat}

theorem depthAt_of_getElem? (h : steps[i]? = some s) : depthAt steps i = s.depth.toNat := by
  simp [depthAt, h]

theorem gasAt_of_getElem? (h : steps[i]? = some s) : gasAt steps i = s.gas := by
  simp [gasAt, h]

theorem gasCostAt_of_getElem? (h : steps[i]? = some s) : gasCostAt steps i = s.gasCost.toNat := by
  simp [gasCostAt, h]

/-! ## Moves -/

variable {next : Step}

/-- Where a step goes, by its depth and the next one. -/
theorem moveTo_cases (hs : steps[i]? = some s) (hnext : steps[i + 1]? = some next) :
    (depthAt steps i < depthAt steps (i + 1) ∧
        s.moveTo (some next) = .into (depthAt steps (i + 1) - depthAt steps i - 1) next) ∨
      (depthAt steps (i + 1) = depthAt steps i ∧ s.moveTo (some next) = .stay next) ∨
      (depthAt steps (i + 1) < depthAt steps i ∧
        s.moveTo (some next) = .out (depthAt steps i - depthAt steps (i + 1)) next) := by
  rw [depthAt_of_getElem? hs, depthAt_of_getElem? hnext]
  simp only [Step.moveTo, UInt32.lt_iff_toNat_lt]
  rcases Nat.lt_trichotomy s.depth.toNat next.depth.toNat with hlt | heq | hgt
  · exact .inl ⟨hlt, if_pos hlt⟩
  · right
    left
    rw [if_neg (by omega), if_neg (by omega)]
    exact ⟨heq.symm, rfl⟩
  · right
    right
    rw [if_neg (by omega), if_pos hgt]
    exact ⟨hgt, rfl⟩

theorem of_moveTo_eq_out {levels : Nat} (hs : steps[i]? = some s)
    (h : s.moveTo steps[i + 1]? = .out levels next) :
    i + 1 < steps.length ∧ depthAt steps (i + 1) < depthAt steps i ∧
      levels = depthAt steps i - depthAt steps (i + 1) := by
  cases hnext : steps[i + 1]? with
  | none =>
    rw [hnext] at h
    cases h
  | some next' =>
    obtain ⟨hlast, -⟩ := List.getElem?_eq_some_iff.mp hnext
    rw [hnext] at h
    rcases moveTo_cases hs hnext with ⟨-, hmove⟩ | ⟨-, hmove⟩ | ⟨hgt, hmove⟩
    · rw [hmove] at h
      cases h
    · rw [hmove] at h
      cases h
    · rw [hmove] at h
      cases h
      exact ⟨hlast, hgt, rfl⟩

end Columns

variable (steps : List Step)

/-! ## Openers -/

theorem openerBefore?_zero (d : Nat) : openerBefore? steps 0 d = none := rfl

theorem openerBefore?_succ (i d : Nat) :
    openerBefore? steps (i + 1) d =
      if depthAt steps i < d then some i else openerBefore? steps i d := by
  rw [openerBefore?, List.range_succ, List.reverse_append, List.reverse_singleton,
    List.singleton_append, List.find?_cons]
  split <;> rename_i h
  · rw [if_pos (of_decide_eq_true h)]
  · rw [if_neg (of_decide_eq_false h), openerBefore?]

theorem openerBefore?_eq_some_iff (i d k : Nat) :
    openerBefore? steps i d = some k ↔
      k < i ∧ depthAt steps k < d ∧ ∀ j, k < j → j < i → d ≤ depthAt steps j := by
  induction i with
  | zero =>
    rw [openerBefore?_zero]
    simp
  | succ i ih =>
    rw [openerBefore?_succ]
    split
    · rename_i hlt
      constructor
      · intro h
        cases h
        exact ⟨Nat.lt_succ_self _, hlt, by omega⟩
      · rintro ⟨hk, -, hbetween⟩
        by_cases heq : k = i
        · rw [heq]
        · have := hbetween i (by omega) (Nat.lt_succ_self i)
          omega
    · rename_i hge
      rw [ih]
      constructor
      · rintro ⟨hk, hdepth, hbetween⟩
        refine ⟨by omega, hdepth, ?_⟩
        intro j hkj hj
        by_cases heq : j = i
        · rw [heq]
          omega
        · exact hbetween j hkj (by omega)
      · rintro ⟨hk, hdepth, hbetween⟩
        have hne : k ≠ i := by
          rintro rfl
          exact hge hdepth
        exact ⟨by omega, hdepth, fun j hkj hj => hbetween j hkj (by omega)⟩

theorem openerBefore?_eq_none_iff (i d : Nat) :
    openerBefore? steps i d = none ↔ ∀ j, j < i → d ≤ depthAt steps j := by
  simp [openerBefore?]

/-! ## Underflow -/

/-- Behind step `k` the trace first goes below the depth at which it starts. -/
structure UnderflowsAt (steps : List Step) (k : Nat) : Prop where
  next_lt : k + 1 < steps.length
  below : depthAt steps (k + 1) < depthAt steps 0
  floor : ∀ j, j ≤ k → depthAt steps 0 ≤ depthAt steps j

variable {steps} in
theorem UnderflowsAt.unique {k l : Nat} (hk : UnderflowsAt steps k) (hl : UnderflowsAt steps l) :
    k = l := by
  rcases Nat.lt_trichotomy k l with hlt | heq | hgt
  · have hbelow := hk.below
    have hfloor := hl.floor (k + 1) hlt
    omega
  · exact heq
  · have hbelow := hl.below
    have hfloor := hk.floor (l + 1) hgt
    omega

theorem exists_underflowsAt_iff :
    (∃ k, UnderflowsAt steps k) ↔ ∃ j, j < steps.length ∧ depthAt steps j < depthAt steps 0 := by
  constructor
  · rintro ⟨k, hk⟩
    exact ⟨k + 1, hk.next_lt, hk.below⟩
  · rintro ⟨j, hj⟩
    -- The first of all steps below is behind one that is not.
    induction j using Nat.strongRecOn with
    | ind j ih =>
      obtain ⟨hlt, hbelow⟩ := hj
      have hpositive : 0 < j := Nat.pos_of_ne_zero fun h => by
        rw [h] at hbelow
        exact Nat.lt_irrefl _ hbelow
      by_cases hfirst : ∀ l, l < j → depthAt steps 0 ≤ depthAt steps l
      · refine ⟨j - 1, ?_, ?_, ?_⟩
        · omega
        · rwa [Nat.sub_add_cancel hpositive]
        · intro l hl
          exact hfirst l (by omega)
      · obtain ⟨l, hl⟩ := Classical.not_forall.mp hfirst
        obtain ⟨hlj, hl⟩ := Classical.not_imp.mp hl
        exact ih l hlj ⟨by omega, Nat.lt_of_not_le hl⟩

/-! ## Exits -/

theorem exitBefore?_succ (m i : Nat) :
    exitBefore? steps (m + 1) i =
      (exitBefore? steps m i).or
        (if i < m ∧ depthAt steps (m + 1) < depthAt steps (i + 1) then some m else none) := by
  rw [exitBefore?, List.range_succ, List.find?_append, exitBefore?]
  congr 1
  simp only [List.find?_cons, List.find?_nil]
  split <;> simp_all

theorem exitBefore?_eq_none_iff (m i : Nat) :
    exitBefore? steps m i = none ↔
      ∀ j, i < j → j < m → depthAt steps (i + 1) ≤ depthAt steps (j + 1) := by
  simp only [exitBefore?, List.find?_eq_none, List.mem_range, decide_eq_true_eq]
  constructor
  · intro h j hij hj
    have := h j hj
    omega
  · intro h j hj hlt
    have := h j hlt.1 hj
    omega

/-! ## Costs -/

/-- Step `i` opened a frame that is left behind step `m`, and not before. -/
def LeftAt (steps : List Step) (m i : Nat) : Prop :=
  depthAt steps i < depthAt steps (i + 1) ∧ exitBefore? steps m i = none ∧
    depthAt steps (m + 1) < depthAt steps (i + 1)

/-- The frame that step `i` opened is among those left behind step `m` when `i` opened a level
between the two depths. -/
theorem leftAt_iff {m i : Nat} (him : i < m) :
    LeftAt steps m i ↔
      depthAt steps (m + 1) < depthAt steps (i + 1) ∧
        depthAt steps (i + 1) ≤ depthAt steps m ∧
        openerBefore? steps m (depthAt steps (i + 1)) = some i := by
  rw [LeftAt, exitBefore?_eq_none_iff, openerBefore?_eq_some_iff]
  constructor
  · rintro ⟨hopen, hstays, hleft⟩
    have hbetween : ∀ j, i < j → j ≤ m → depthAt steps (i + 1) ≤ depthAt steps j := by
      intro j hij hj
      by_cases hfirst : j = i + 1
      · exact Nat.le_of_eq (congrArg (depthAt steps) hfirst.symm)
      · have hprevious := hstays (j - 1) (by omega) (by omega)
        rwa [Nat.sub_add_cancel (by omega)] at hprevious
    exact ⟨hleft, hbetween m him (Nat.le_refl m), him, hopen,
      fun j hij hj => hbetween j hij (Nat.le_of_lt hj)⟩
  · rintro ⟨hleft, hinside, -, hopen, hbetween⟩
    refine ⟨hopen, ?_, hleft⟩
    intro j hij hj
    by_cases hlast : j + 1 = m
    · rw [hlast]
      exact hinside
    · exact hbetween (j + 1) (by omega) (by omega)

theorem costSeen_of_opens {m i : Nat} (him : i < m)
    (hopen : depthAt steps i < depthAt steps (i + 1)) :
    costSeen steps m i =
      match exitBefore? steps m i with
      | some j => (gasAt steps (i + 1)).toNat - (gasAt steps (j + 1)).toNat
      | none => gasCostAt steps (i + 1) := by
  rw [costSeen, if_neg (by omega), if_neg (by omega), if_neg (by omega)]

theorem costSeen_of_not_opens {m i : Nat} (him : i < m)
    (hopen : depthAt steps (i + 1) ≤ depthAt steps i) :
    costSeen steps m i =
      if depthAt steps (i + 1) = depthAt steps i then gasCostAt steps (i + 1) else 0 := by
  rw [costSeen, if_neg (by omega)]
  split
  · rfl
  · rw [if_pos (by omega)]

theorem costSeen_of_leftAt {m i : Nat} (him : i < m) (h : LeftAt steps m i) :
    costSeen steps (m + 1) i = (gasAt steps (i + 1)).toNat - (gasAt steps (m + 1)).toNat := by
  obtain ⟨hopen, hstays, hleft⟩ := h
  rw [costSeen_of_opens steps (by omega) hopen, exitBefore?_succ, hstays, Option.none_or,
    if_pos ⟨him, hleft⟩]

theorem costSeen_of_not_leftAt {m i : Nat} (him : i < m) (h : ¬ LeftAt steps m i) :
    costSeen steps (m + 1) i = costSeen steps m i := by
  by_cases hopen : depthAt steps i < depthAt steps (i + 1)
  · rw [costSeen_of_opens steps (by omega) hopen, costSeen_of_opens steps him hopen,
      exitBefore?_succ]
    cases hexit : exitBefore? steps m i with
    | some j => rw [Option.some_or]
    | none =>
      have hinside : ¬ (i < m ∧ depthAt steps (m + 1) < depthAt steps (i + 1)) := by
        rintro ⟨-, hleft⟩
        exact h ⟨hopen, hexit, hleft⟩
      rw [if_neg hinside, Option.none_or]
  · rw [costSeen_of_not_opens steps (by omega) (by omega),
      costSeen_of_not_opens steps him (by omega)]

/-- The cost of a step as far as the next step shows it. -/
theorem costSeen_self {i : Nat} {s next : Step} (hs : steps[i]? = some s)
    (hnext : steps[i + 1]? = some next) :
    costSeen steps (i + 1) i = (s.moveTo (some next)).cost := by
  rcases moveTo_cases hs hnext with ⟨hlt, hmove⟩ | ⟨heq, hmove⟩ | ⟨hgt, hmove⟩
  · have hexit : exitBefore? steps (i + 1) i = none := by
      rw [exitBefore?_eq_none_iff]
      omega
    rw [costSeen_of_opens steps (by omega) hlt, hexit, hmove]
    exact gasCostAt_of_getElem? hnext
  · rw [costSeen_of_not_opens steps (by omega) (by omega), if_pos heq, hmove]
    exact gasCostAt_of_getElem? hnext
  · rw [costSeen_of_not_opens steps (by omega) (by omega), if_neg (by omega), hmove]
    rfl

theorem costSeen_last {m i : Nat} (h : m ≤ i) : costSeen steps m i = 0 := by
  rw [costSeen, if_pos h]

end TraceGloss
