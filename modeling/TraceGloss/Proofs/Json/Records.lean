import TraceGloss.Json.Reading

/-
  Records that are written by name and read by name.
  A member whose key is a field sets that part of the draft (`fillNamed_part`), members with other keys
  change nothing (`fillNamed_unknown`), and members are taken one after another (`fillNamed_append`).
  Lists and tables are read back item by item from what each item is read from (`readItems_map`,
  `readTable_entries`).
-/
namespace TraceGloss.Json

/-! ## Values without faults -/

theorem readableMembers_eq_all (members : List (String × Json)) :
    readableMembers members = members.all fun m => m.2.readable := by
  induction members with
  | nil => rfl
  | cons m rest ih => rw [readableMembers, ih, List.all_cons]

theorem readable_record_iff (members : List (String × Json)) :
    (record members).readable = true ↔ ∀ m ∈ members, m.2.readable = true := by
  unfold record
  rw [readable, readableMembers_eq_all, Option.isNone_none, Bool.and_true, List.all_eq_true]

mutual

/-- A value without faults is JSON throughout. -/
theorem intact_of_readable (value : Json) (h : value.readable = true) : value.intact = true := by
  match value with
  | .null | .bool _ | .natural _ | .decimal _ | .string _ => rfl
  | .array items =>
    rw [readable] at h
    rw [intact]
    exact intactItems_of_readable items h
  | .object members ending =>
    rw [readable, Bool.and_eq_true, Option.isNone_iff_eq_none] at h
    rw [intact, intactMembers_of_readable members h.1, h.2]
    rfl
  | .fault _ => cases h

theorem intactItems_of_readable (items : List Json) (h : readableItems items = true) :
    intactItems items = true := by
  match items with
  | [] => rfl
  | item :: rest =>
    rw [readableItems, Bool.and_eq_true] at h
    rw [intactItems, intact_of_readable item h.1, intactItems_of_readable rest h.2]
    rfl

theorem intactMembers_of_readable (members : List (String × Json))
    (h : readableMembers members = true) : intactMembers members = true := by
  match members with
  | [] => rfl
  | (_, value) :: rest =>
    rw [readableMembers, Bool.and_eq_true] at h
    rw [intactMembers, intact_of_readable value h.1, intactMembers_of_readable rest h.2]
    rfl

end

/-! ## Fields -/

section Fields

variable {δ α : Type} {fields : List (RecordField δ)}

theorem fillNamed_append (members more : List (String × Json)) (draft : δ) :
    fillNamed fields (members ++ more) draft =
      (fillNamed fields members draft).bind (fillNamed fields more) := by
  induction members generalizing draft with
  | nil => rfl
  | cons m rest ih =>
    obtain ⟨key, value⟩ := m
    rw [List.cons_append, fillNamed, fillNamed]
    split
    · cases value.skip with
      | error e => rfl
      | ok _ => exact ih draft
    · rename_i field _
      split
      · rfl
      · cases field.fill value draft with
        | error e => rfl
        | ok filled => exact ih filled

/-- Members that are no fields are passed over. -/
theorem fillNamed_unknown {members : List (String × Json)} (draft : δ)
    (h : ∀ m ∈ members, fields.find? (·.name == m.1) = none ∧ m.2.readable = true) :
    fillNamed fields members draft = .ok draft := by
  induction members with
  | nil => rfl
  | cons m rest ih =>
    obtain ⟨hfind, hreadable⟩ := h m (List.mem_cons_self ..)
    have hskip : m.2.skip = .ok () := by
      unfold skip
      rw [if_pos (intact_of_readable m.2 hreadable)]
    rw [fillNamed, hfind]
    dsimp only
    rw [hskip]
    exact ih fun m' hm' => h m' (List.mem_cons_of_mem m hm')

variable {key : String} {read : Json → Read α} {get : δ → Option α} {set : δ → α → δ}
  (hfind : fields.find? (·.name == key) = some (.part key read get set))
include hfind

/-- A member that is a field sets its part. -/
theorem fillNamed_part {value : Json} {a : α} {draft : δ} (hfree : get draft = none)
    (hread : read value = .ok a) (rest : List (String × Json)) :
    fillNamed fields ((key, value) :: rest) draft = fillNamed fields rest (set draft a) := by
  have hopen : ¬ (get draft).isSome = true := by
    rw [hfree]
    exact Bool.false_ne_true
  rw [fillNamed, hfind]
  dsimp only [RecordField.part]
  rw [if_neg hopen, hread]
  rfl

/-- A member that may be left out sets its part if it is there. -/
theorem fillNamed_optional {β : Type} {write : β → Json} {value : β → α} {draft : δ}
    (hfree : get draft = none) (hread : ∀ b, read (write b) = .ok (value b)) (found : Option β)
    (rest : List (String × Json)) :
    fillNamed fields ((found.map fun b => (key, write b)).toList ++ rest) draft =
      fillNamed fields rest (found.elim draft fun b => set draft (value b)) := by
  cases found with
  | none => rfl
  | some b => exact fillNamed_part hfind hfree (hread b) rest

end Fields

/-! ## Lists and tables -/

theorem readItems_map {α : Type} {read : Json → Read α} {write : α → Json}
    (h : ∀ a, read (write a) = .ok a) (items : List α) :
    readItems read (items.map write) = .ok items := by
  induction items with
  | nil => rfl
  | cons a rest ih =>
    rw [List.map_cons, readItems, h, ih]
    rfl

section Tables

variable {κ ν : Type} [LT κ]

/-- An entry behind all others goes to the end. -/
theorem place_of_lt [DecidableLT κ] [LinearKey κ] {k : κ} (v : ν) {entries : List (κ × ν)}
    (h : ∀ e ∈ entries, e.1 < k) : Table.place k v entries = entries ++ [(k, v)] := by
  induction entries with
  | nil => rfl
  | cons e rest ih =>
    have hfirst := h e (List.mem_cons_self ..)
    have hrest := ih fun e' he' => h e' (List.mem_cons_of_mem e he')
    have hbehind : ¬ k < e.1 := fun hlt => LinearKey.irrefl k (LinearKey.trans hlt hfirst)
    rw [Table.place, if_neg hbehind, if_pos hfirst, hrest, List.cons_append]

variable [DecidableLT κ] [LinearKey κ] {key : String → Read κ} {read : Json → Read ν}
  {name : κ → String} {write : ν → Json}

/-- Entries that stand in key order behind those of a table are added to it as they are. -/
theorem readBindings_entries (hkey : ∀ k, key (name k) = .ok k) (hread : ∀ v, read (write v) = .ok v)
    (entries : List (κ × ν)) (table whole : Table κ ν)
    (hwhole : whole.entries = table.entries ++ entries) :
    readBindings key read (entries.map fun e => (name e.1, write e.2)) table = .ok whole := by
  induction entries generalizing table with
  | nil =>
    rw [List.append_nil] at hwhole
    rw [Table.ext hwhole]
    rfl
  | cons e rest ih =>
    have hsorted := whole.sorted
    rw [hwhole] at hsorted
    have hbelow : ∀ e' ∈ table.entries, e'.1 < e.1 := fun e' he' =>
      (List.pairwise_append.mp hsorted).2.2 e' he' e (List.mem_cons_self ..)
    have hplaced : (table.insert e.1 e.2).entries = table.entries ++ [e] := place_of_lt e.2 hbelow
    rw [List.map_cons, readBindings, hkey, hread]
    refine ih (table.insert e.1 e.2) ?_
    rw [hplaced, List.append_assoc]
    exact hwhole

theorem readTable_entries (hkey : ∀ k, key (name k) = .ok k) (hread : ∀ v, read (write v) = .ok v)
    (table : Table κ ν) :
    readTable key read (record (table.entries.map fun e => (name e.1, write e.2))) = .ok table := by
  have hbindings := readBindings_entries hkey hread table.entries Table.empty table rfl
  unfold record
  rw [readTable, hbindings]
  rfl

end Tables

end TraceGloss.Json
