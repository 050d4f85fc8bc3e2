import Mathlib.Data.List.Nodup
import TraceGloss.Artifact
import TraceGloss.Proofs.Json.Columns
import TraceGloss.Proofs.Json.Compact

/-
  The source files of a build.
  Contracts name sources in their metadata, and sources may come with their text. Going through all that is
  named, each path is placed where it is met first, and the last text given for it stands (`Gathered`, one
  more source at a time by `Gathered.add`). The files of a build are these, or those of the list that it
  gives, with these texts (`files_ofText`).
-/
namespace TraceGloss

namespace ArtifactStore

open Json

/-! ## What is known of sources -/

/-- The paths in the order in which they are met first among names, each of them once. -/
structure FirstSeen (names paths : List String) : Prop where
  mem_iff : ∀ path, path ∈ paths ↔ path ∈ names
  nodup : paths.Nodup
  ordered : paths.Pairwise fun p q => names.idxOf p < names.idxOf q

/-- The last text that is given for a path. -/
def lastContent? (path : String) (named : List (String × Json)) : Option String :=
  (named.filterMap fun s => if s.1 = path then contentOf? s.2 else none).getLast?

theorem FirstSeen.append {names paths : List String} (h : FirstSeen names paths) (path : String) :
    FirstSeen (names ++ [path]) (if path ∈ paths then paths else paths ++ [path]) := by
  have hplace : ∀ p ∈ paths, (names ++ [path]).idxOf p = names.idxOf p :=
    fun p hp => List.idxOf_append_of_mem ((h.mem_iff p).mp hp)
  have hordered : paths.Pairwise fun p q =>
      (names ++ [path]).idxOf p < (names ++ [path]).idxOf q := by
    refine h.ordered.imp_of_mem ?_
    intro p q hp hq hlt
    rwa [hplace p hp, hplace q hq]
  by_cases hknown : path ∈ paths
  · rw [if_pos hknown]
    refine ⟨fun p => ?_, h.nodup, hordered⟩
    rw [List.mem_append, List.mem_singleton, h.mem_iff, iff_self_or]
    rintro rfl
    exact (h.mem_iff p).mp hknown
  · rw [if_neg hknown]
    have hnew : path ∉ names := mt (h.mem_iff path).mpr hknown
    refine ⟨fun p => ?_, ?_, ?_⟩
    · rw [List.mem_append, List.mem_append, h.mem_iff]
    · rw [← List.concat_eq_append]
      exact h.nodup.concat hknown
    · refine List.pairwise_append.mpr ⟨hordered, List.pairwise_singleton _ _, ?_⟩
      intro p hp q hq
      rw [List.mem_singleton.mp hq, hplace p hp, List.idxOf_append_of_notMem hnew]
      exact Nat.lt_add_right _ (List.idxOf_lt_length_iff.mpr ((h.mem_iff p).mp hp))

theorem lastContent?_append (path : String) (named : List (String × Json)) (s : String × Json) :
    lastContent? path (named ++ [s]) =
      if s.1 = path then (contentOf? s.2).or (lastContent? path named)
      else lastContent? path named := by
  unfold lastContent?
  rw [List.filterMap_append, List.getLast?_append]
  split
  · rename_i heq
    cases hcontent : contentOf? s.2 <;> simp [heq, hcontent]
  · rename_i hne
    simp [hne]

theorem map_fst_addSource (path : String) (content : Option String) (contents : Contents) :
    (addSource path content contents).map (·.1) =
      if path ∈ contents.map (·.1) then contents.map (·.1) else contents.map (·.1) ++ [path] := by
  induction contents with
  | nil => rfl
  | cons c rest ih =>
    obtain ⟨p, c⟩ := c
    rw [addSource]
    by_cases hp : p = path
    · subst hp
      simp
    · rw [if_neg hp, List.map_cons, ih]
      simp only [List.map_cons, List.mem_cons, Ne.symm hp, false_or]
      split <;> rfl

theorem lookup_addSource (path : String) (content : Option String) (contents : Contents)
    (p : String) :
    (addSource path content contents).lookup p =
      if path = p then some (content.or ((contents.lookup path).getD none))
      else contents.lookup p := by
  induction contents with
  | nil =>
    rw [addSource, List.lookup_cons, List.lookup_nil]
    by_cases hp : path = p
    · simp [hp]
    · rw [if_neg hp, beq_false_of_ne (Ne.symm hp)]
  | cons c rest ih =>
    obtain ⟨q, c⟩ := c
    rw [addSource]
    by_cases hq : q = path
    · subst hq
      by_cases hp : q = p
      · simp [hp]
      · simp [hp, List.lookup_cons, beq_false_of_ne (Ne.symm hp)]
    · rw [if_neg hq, List.lookup_cons, List.lookup_cons, ih, List.lookup_cons,
        beq_false_of_ne (Ne.symm hq)]
      by_cases hp : path = p
      · subst hp
        simp [beq_false_of_ne (Ne.symm hq)]
      · simp [hp]

/-- Of paths that are there once, each is found with what stands beside it. -/
theorem lookup_of_mem {contents : Contents} (hnodup : (contents.map (·.1)).Nodup)
    {c : String × Option String} (hc : c ∈ contents) : contents.lookup c.1 = some c.2 := by
  induction contents with
  | nil => cases hc
  | cons first rest ih =>
    obtain ⟨hnew, hrest⟩ := List.nodup_cons.mp hnodup
    rcases List.mem_cons.mp hc with rfl | hc
    · exact List.lookup_cons_self
    · have hne : c.1 ≠ first.1 := by
        intro heq
        exact hnew (List.mem_map.mpr ⟨c, hc, heq⟩)
      rw [List.lookup_cons, beq_false_of_ne hne]
      exact ih hrest hc

/-- What is known of sources once some are named. -/
structure Gathered (named : List (String × Json)) (contents : Contents) : Prop where
  paths : FirstSeen (named.map (·.1)) (contents.map (·.1))
  content : ∀ path, (contents.lookup path).getD none = lastContent? path named

theorem gathered_nil : Gathered [] [] :=
  ⟨⟨fun _ => Iff.rfl, List.nodup_nil, .nil⟩, fun _ => rfl⟩

variable {named sources : List (String × Json)} {contents : Contents}

/-- One more source is placed if its path is new, and its text, if it has one, is the last one. -/
theorem Gathered.add (h : Gathered named contents) (s : String × Json) :
    Gathered (named ++ [s]) (addSource s.1 (contentOf? s.2) contents) := by
  refine ⟨?_, fun path => ?_⟩
  · rw [map_fst_addSource, List.map_append]
    exact h.paths.append s.1
  · rw [lookup_addSource, lastContent?_append, ← h.content]
    split
    · rename_i heq
      rw [Option.getD_some, heq]
    · rfl

theorem Gathered.addAll (h : Gathered named contents) :
    Gathered (named ++ sources) (addSources sources contents) := by
  induction sources generalizing named contents with
  | nil =>
    rw [List.append_nil]
    exact h
  | cons s rest ih =>
    have hrest := ih (h.add s)
    rw [List.append_assoc] at hrest
    exact hrest

/-! ## Builds -/

/-- The sources that a contract names: those of its metadata, if that can be read. -/
def sourcesOf (contract : Json) : List (String × Json) :=
  metadataSources ((contract.column? "metadata" 4).getD .null)

theorem isColumn_metadata : IsColumn contractFields "metadata" 4 .ok Draft.metadata := by
  refine ⟨contractFields.take 4, _, [], rfl, rfl, fun _ _ => rfl, ?_⟩
  simp only [contractFields, List.take, List.append_nil, List.forall_mem_cons]
  refine ⟨⟨by decide, ?_⟩, ⟨by decide, ?_⟩, ⟨by decide, ?_⟩, ⟨by decide, ?_⟩, List.forall_mem_nil _⟩
  all_goals exact spares_part fun _ _ => rfl

theorem isColumn_contracts : IsColumn buildFields "contracts" 0 readObject BuildDraft.contracts := by
  refine ⟨[], _, buildFields.drop 1, rfl, rfl, fun _ _ => rfl, ?_⟩
  exact List.forall_mem_singleton.mpr ⟨by decide, spares_part fun _ _ => rfl⟩

theorem isColumn_sourceList :
    IsColumn buildFields "sourceList" 1 (readOption (readList readString))
      BuildDraft.sourceList := by
  refine ⟨buildFields.take 1, _, [], rfl, rfl, fun _ _ => rfl, ?_⟩
  exact List.forall_mem_singleton.mpr ⟨by decide, spares_part fun _ _ => rfl⟩

/-- A contract without metadata has `null` for it. -/
theorem metadata_of_read {value : Json} {contract : Contract}
    (h : readContract value = .ok contract) :
    contract.metadata = (value.column? "metadata" 4).getD .null := by
  obtain ⟨missing, draft, hfinish, hfound⟩ := readRecord_column isColumn_metadata rfl h
  cases hfinish
  show draft.metadata.getD .null = _
  generalize draft.metadata = found, value.column? "metadata" 4 = column at hfound
  cases hfound with
  | missing => rfl
  | present hread =>
    cases hread
    rfl

theorem of_buildOfDraft {missing : String → ReadError} {draft : BuildDraft} {build : Build}
    (h : buildOfDraft missing draft = .ok build) :
    draft.contracts = some build.contracts ∧ build.sourceList = draft.sourceList.getD none := by
  obtain ⟨contracts, hrequired, hbuild⟩ := exists_of_bind_eq_ok h
  cases hbuild
  cases hcontracts : draft.contracts with
  | none =>
    rw [hcontracts] at hrequired
    cases hrequired
  | some found =>
    rw [hcontracts] at hrequired
    cases hrequired
    exact ⟨rfl, rfl⟩

theorem contracts_of_read {root : Json} {build : Build} (h : readBuild root = .ok build) :
    ∃ contracts, root.column? "contracts" 0 = some contracts ∧
      build.contracts = contracts.entries := by
  obtain ⟨missing, draft, hfinish, hfound⟩ := readRecord_column isColumn_contracts rfl h
  rw [(of_buildOfDraft hfinish).1] at hfound
  generalize root.column? "contracts" 0 = column at hfound
  cases hfound with
  | present hread => exact ⟨_, rfl, eq_entries_of_readObject hread⟩

/-- A list of files that is missing or `null` is no list. -/
theorem sourceList_of_read {root : Json} {build : Build} (h : readBuild root = .ok build) :
    (root.column? "sourceList" 1).getD .null =
      build.sourceList.elim .null fun paths => .array (paths.map .string) := by
  obtain ⟨missing, draft, hfinish, hfound⟩ := readRecord_column isColumn_sourceList rfl h
  rw [(of_buildOfDraft hfinish).2]
  generalize root.column? "sourceList" 1 = column, draft.sourceList = found at hfound
  cases hfound with
  | missing => rfl
  | present hread =>
    rcases of_readOption hread with ⟨rfl, rfl⟩ | ⟨paths, hpaths, rfl⟩
    · rfl
    · exact eq_of_readStrings hpaths

/-- Whatever becomes of a contract, the sources that it names are known behind it. -/
theorem gathered_of_load {members : List (String × Json)} {loaded : List Artifact × Contents}
    (hknown : Gathered named contents) (h : loadContracts members contents = .ok loaded) :
    Gathered (named ++ members.flatMap fun c => sourcesOf c.2) loaded.2 := by
  induction members generalizing named contents loaded with
  | nil =>
    cases h
    rw [List.flatMap_nil, List.append_nil]
    exact hknown
  | cons member rest ih =>
    obtain ⟨name, value⟩ := member
    rw [loadContracts] at h
    split at h
    · cases h
    · rename_i contract hread
      obtain ⟨artifact, -, hothers⟩ := exists_of_bind_eq_ok h
      obtain ⟨others, hrest, hloaded⟩ := exists_of_bind_eq_ok hothers
      cases hloaded
      have hgathered := ih hknown.addAll hrest
      rw [metadata_of_read hread, List.append_assoc] at hgathered
      exact hgathered

/-! ## Files -/

theorem paths_filesOf (sourceList : Option (List String)) (contents : Contents) :
    (filesOf sourceList contents).map (·.path) = sourceList.getD (contents.map (·.1)) := by
  cases sourceList with
  | none =>
    rw [filesOf, List.map_map]
    rfl
  | some paths =>
    rw [filesOf, List.map_map]
    exact List.map_id' paths

/-- A file has the last text that was given for it, and none if none was. -/
theorem content_filesOf (h : Gathered named contents) (sourceList : Option (List String)) :
    ∀ file ∈ filesOf sourceList contents,
      file.content = (lastContent? file.path named).getD "" := by
  intro file hfile
  cases sourceList with
  | none =>
    obtain ⟨c, hc, rfl⟩ := List.mem_map.mp hfile
    rw [← h.content, lookup_of_mem h.paths.nodup hc]
    rfl
  | some paths =>
    obtain ⟨path, -, rfl⟩ := List.mem_map.mp hfile
    rw [← h.content]

/-- Sources as JSON metadata, with their texts where they have one. -/
def metadataOf (sources : List (String × Option String)) : Json :=
  record [("sources", record (sources.map fun s =>
    (s.1, record (s.2.map fun text => ("content", Json.string text)).toList)))]

/-- The contracts of a build: an interface, whose metadata is an object, and a contract, whose metadata is
a text. Both name the same two sources, and each gives the text of one of them. -/
def sharing : List (String × Json) :=
  [("a.sol:I", record [("metadata", metadataOf [("lib.sol", some "library L"), ("a.sol", none)])]),
    ("b.sol:B", record [("bin", .string "00"), ("bin-runtime", .string "00"),
      ("metadata", .string (metadataOf [("a.sol", some "contract A"), ("lib.sol", none)]).compact)])]

/-- What they name, in order. -/
def shared : List (String × Json) :=
  [("lib.sol", record [("content", .string "library L")]), ("a.sol", record []),
    ("a.sol", record [("content", .string "contract A")]), ("lib.sol", record [])]

theorem named_sharing : (sharing.flatMap fun c => sourcesOf c.2) = shared := by
  have hread : readText readSources
      (metadataOf [("a.sol", some "contract A"), ("lib.sol", none)]).compact =
        .ok [("a.sol", record [("content", .string "contract A")]), ("lib.sol", record [])] :=
    readText_of_denotes (denotes_compact rfl) rfl
  have hfirst : sourcesOf sharing[0].2 =
      [("lib.sol", record [("content", .string "library L")]), ("a.sol", record [])] := rfl
  have hsecond : sourcesOf sharing[1].2 =
      [("a.sol", record [("content", .string "contract A")]), ("lib.sol", record [])] := by
    show metadataSources (.string _) = _
    rw [metadataSources, hread]
  show sourcesOf sharing[0].2 ++ (sourcesOf sharing[1].2 ++ []) = _
  rw [hfirst, hsecond]
  rfl

end ArtifactStore

end TraceGloss
