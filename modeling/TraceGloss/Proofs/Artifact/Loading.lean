import Mathlib.Data.List.Forall2
import TraceGloss.Artifact
import TraceGloss.Proofs.Json.Compact
import TraceGloss.Proofs.Word.Text

/-
  Which contracts of a build are loaded.
  The text of code is hex digits, or has a placeholder where an address is still to be linked in. Runtime
  code that is empty or has a placeholder leaves its contract out, whatever its creation code. Of the other
  contracts each is loaded with the bytes of its code, in order, unless the creation code of one has a
  placeholder: then the first such contract stops the whole build (`loadContracts_listed`,
  `ofText_listed`).
-/
namespace TraceGloss

namespace Hex

/-- The text of code: two digits of either case for each byte, behind a mark that may be there. -/
def Spells (text : String) (code : List UInt8) : Prop :=
  encode code = (digitsOf text).map Char.toLower

instance (text : String) (code : List UInt8) : Decidable (Spells text code) :=
  inferInstanceAs (Decidable (encode code = (digitsOf text).map Char.toLower))

theorem mem_alphabet_of_mem_encode {bytes : List UInt8} {c : Char} (h : c ∈ encode bytes) :
    c ∈ alphabet := by
  have hall : ∀ n : Fin 16, digit n ∈ alphabet := by decide
  obtain ⟨b, -, hc⟩ := List.mem_flatMap.mp h
  have := b.toNat_lt
  rcases List.mem_cons.mp hc with rfl | hc
  · exact hall ⟨b.toNat / 16, by omega⟩
  · rw [List.mem_singleton.mp hc]
    exact hall ⟨b.toNat % 16, by omega⟩

/-- A mark holds no other characters than its own. -/
theorem mem_unmarked {c : Char} {text : List Char} (h : c ∈ text) (hzero : c ≠ '0') (hx : c ≠ 'x') :
    c ∈ unmarked text := by
  unfold unmarked
  split
  · rcases List.mem_cons.mp h with hc | h
    · exact absurd hc hzero
    · exact (List.mem_cons.mp h).resolve_left hx
  · exact h

/-- Code is read from the texts that spell it. -/
theorem readCode?_eq_some_iff {text : String} {code : List UInt8} :
    readCode? text = some code ↔ Spells text code := by
  constructor
  · intro h
    exact (of_decode? h).2
  · intro h
    have hdigits : ∀ c ∈ digitsOf text, IsDigit c := by
      intro c hc
      have hlower : c.toLower ∈ (digitsOf text).map Char.toLower := List.mem_map_of_mem hc
      rw [← h] at hlower
      exact mem_alphabet_of_mem_encode hlower
    have heven : (digitsOf text).length % 2 = 0 := by
      have hlength := congrArg List.length h
      rw [length_encode, List.length_map] at hlength
      omega
    -- the digits are those of some bytes, which are encoded as the code is
    obtain ⟨bytes, hbytes⟩ := exists_decode? hdigits heven
    have hencode : encode bytes = encode code := (of_decode? hbytes).2.trans h.symm
    have hsame := congrArg decode? hencode
    rw [decode?_encode, decode?_encode] at hsame
    exact hbytes.trans hsame

end Hex

namespace ArtifactStore

open Json

/-- Two underscores stand together in the text, as they do where an address is to be linked in. -/
def HasPlaceholder (text : String) : Prop := ['_', '_'] <:+: text.toList

instance : DecidablePred HasPlaceholder :=
  fun text => inferInstanceAs (Decidable (['_', '_'] <:+: text.toList))

/-- A code field of a compiled contract: hex, or hex with placeholders. -/
def IsCodeText (text : String) : Prop := (∃ code, Hex.Spells text code) ∨ HasPlaceholder text

theorem isUnlinked_iff (text : List Char) : isUnlinked text = true ↔ ['_', '_'] <:+: text := by
  fun_induction isUnlinked text with
  | case1 rest => exact iff_of_true rfl (List.IsPrefix.isInfix ⟨rest, rfl⟩)
  | case2 c rest hother ih =>
    rw [ih, List.infix_cons_iff]
    refine (or_iff_right ?_).symm
    rintro ⟨behind, h⟩
    obtain ⟨rfl, rfl⟩ := List.cons.inj h
    exact hother behind rfl rfl
  | case3 => exact iff_of_false Bool.false_ne_true (by decide)

/-- Hex has no placeholder. -/
theorem not_spells_of_hasPlaceholder {text : String} (h : HasPlaceholder text) (code : List UInt8) :
    ¬ Hex.Spells text code := by
  intro hspells
  have hmem : '_' ∈ Hex.digitsOf text :=
    Hex.mem_unmarked (h.subset (List.mem_cons_self ..)) (by decide) (by decide)
  have hlower := List.mem_map_of_mem (f := Char.toLower) hmem
  rw [← hspells] at hlower
  exact absurd (Hex.mem_alphabet_of_mem_encode hlower) (by decide)

/-! ## Single contracts -/

/-- The contract has runtime code, and all of it is linked. -/
def Contract.IsDeployable (c : Contract) : Prop := c.runtime ≠ "" ∧ ¬ HasPlaceholder c.runtime

/-- The contract could be deployed, but the code that deploys it is not linked. -/
def Contract.IsStuck (c : Contract) : Prop := c.IsDeployable ∧ HasPlaceholder c.creation

instance : DecidablePred Contract.IsDeployable :=
  fun c => inferInstanceAs (Decidable (c.runtime ≠ "" ∧ ¬ HasPlaceholder c.runtime))

instance : DecidablePred Contract.IsStuck :=
  fun c => inferInstanceAs (Decidable (c.IsDeployable ∧ HasPlaceholder c.creation))

/-- An artifact that holds what a contract is listed with, its code in bytes. -/
structure IsArtifactOf (listed : String × Contract) (a : Artifact) : Prop where
  name : a.name = listed.1
  creation : Hex.Spells listed.2.creation a.creationCode
  runtime : Hex.Spells listed.2.runtime a.runtimeCode
  sourceMap : a.sourceMap = listed.2.sourceMap
  runtimeSourceMap : a.runtimeSourceMap = listed.2.runtimeSourceMap

variable {name : String} {c : Contract}

theorem skips_iff : (c.runtime.isEmpty ∨ isUnlinked c.runtime.toList) ↔ ¬ c.IsDeployable := by
  rw [Contract.IsDeployable, HasPlaceholder, ← isUnlinked_iff, String.isEmpty_iff]
  tauto

theorem artifactOf_of_not_isDeployable (h : ¬ c.IsDeployable) : artifactOf name c = .ok none := by
  rw [artifactOf, if_pos (skips_iff.mpr h)]

theorem readCode_of_spells {field : CodeField} {text : String} {code : List UInt8}
    (h : Hex.Spells text code) : readCode name field text = .ok code := by
  rw [readCode, Hex.readCode?_eq_some_iff.mpr h]

theorem readCode_of_hasPlaceholder {field : CodeField} {text : String} (h : HasPlaceholder text) :
    readCode name field text = .error (.badCode name field) := by
  have hnone : Hex.readCode? text = none := by
    rw [Option.eq_none_iff_forall_not_mem]
    intro code hcode
    exact not_spells_of_hasPlaceholder h code (Hex.readCode?_eq_some_iff.mp hcode)
  rw [readCode, hnone]

theorem artifactOf_of_isStuck (h : c.IsStuck) :
    artifactOf name c = .error (.badCode name .creation) := by
  rw [artifactOf, if_neg (mt skips_iff.mp (not_not_intro h.1)), readCode_of_hasPlaceholder h.2]
  rfl

/-- The code fields of a contract are hex, with or without placeholders. -/
def Contract.IsCompiled (c : Contract) : Prop := IsCodeText c.creation ∧ IsCodeText c.runtime

/-- A contract that is not stuck has an artifact exactly if it can be deployed. -/
theorem exists_artifactOf (name : String) (hcode : c.IsCompiled) (hfree : ¬ c.IsStuck) :
    ∃ artifact, artifactOf name c = .ok artifact ∧
      List.Forall₂ IsArtifactOf ([(name, c)].filter (·.2.IsDeployable)) artifact.toList := by
  by_cases h : c.IsDeployable
  · obtain ⟨creation, hcreation⟩ := hcode.1.resolve_right fun hplace => hfree ⟨h, hplace⟩
    obtain ⟨runtime, hruntime⟩ := hcode.2.resolve_right h.2
    refine ⟨some ⟨name, creation, runtime, c.sourceMap, c.runtimeSourceMap⟩, ?_, ?_⟩
    · rw [artifactOf, if_neg (mt skips_iff.mp (not_not_intro h)), readCode_of_spells hcreation,
        readCode_of_spells hruntime]
      rfl
    · rw [List.filter_cons_of_pos (by simpa using h)]
      exact .cons ⟨rfl, hcreation, hruntime, rfl, rfl⟩ .nil
  · refine ⟨none, artifactOf_of_not_isDeployable h, ?_⟩
    rw [List.filter_cons_of_neg (by simpa using h)]
    exact .nil

/-! ## Whole builds -/

/-- A member of a build that is a contract as listed. -/
def IsListedAs (member : String × Json) (listed : String × Contract) : Prop :=
  member.1 = listed.1 ∧ readContract member.2 = .ok listed.2

theorem loadContracts_cons {member : String × Json} {listed : String × Contract}
    (h : IsListedAs member listed) (rest : List (String × Json)) (contents : Contents) :
    loadContracts (member :: rest) contents =
      (artifactOf listed.1 listed.2).bind fun artifact =>
        (loadContracts rest (addSources (metadataSources listed.2.metadata) contents)).map fun others =>
          (artifact.toList ++ others.1, others.2) := by
  obtain ⟨member, value⟩ := member
  obtain ⟨name, c⟩ := listed
  obtain ⟨rfl, hread⟩ := h
  rw [loadContracts, hread]
  rfl

/-- Contracts are loaded up to the first that is stuck; without one, those that can be deployed are the
artifacts, in order. -/
theorem loadContracts_listed {members : List (String × Json)} {contracts : List (String × Contract)}
    (h : List.Forall₂ IsListedAs members contracts) (hcode : ∀ c ∈ contracts, c.2.IsCompiled)
    (contents : Contents) :
    match contracts.find? (·.2.IsStuck) with
    | some c => loadContracts members contents = .error (.badCode c.1 .creation)
    | none => ∃ loaded, loadContracts members contents = .ok loaded ∧
        List.Forall₂ IsArtifactOf (contracts.filter (·.2.IsDeployable)) loaded.1 := by
  induction h generalizing contents with
  | nil => exact ⟨([], contents), rfl, .nil⟩
  | @cons member listed members contracts hlisted _ ih =>
    obtain ⟨hfirst, hrest⟩ := List.forall_mem_cons.mp hcode
    have hothers := ih hrest (addSources (metadataSources listed.2.metadata) contents)
    rw [loadContracts_cons hlisted]
    -- a stuck contract is the first one; otherwise the others decide
    by_cases hstuck : listed.2.IsStuck
    · rw [List.find?_cons_of_pos (by simpa using hstuck), artifactOf_of_isStuck hstuck]
      rfl
    · obtain ⟨artifact, hartifact, hfits⟩ := exists_artifactOf listed.1 hfirst hstuck
      rw [List.find?_cons_of_neg (by simpa using hstuck), hartifact, ← List.singleton_append,
        List.filter_append]
      cases hfind : contracts.find? (·.2.IsStuck) with
      | some c =>
        rw [hfind] at hothers
        dsimp only at hothers ⊢
        rw [hothers]
        rfl
      | none =>
        rw [hfind] at hothers
        obtain ⟨others, hload, hall⟩ := hothers
        refine ⟨(artifact.toList ++ others.1, others.2), ?_, List.rel_append hfits hall⟩
        rw [hload]
        rfl

/-- A text lists contracts, in order, if it is read as a build and each of them as a contract of it. -/
def Lists (text : String) (contracts : List (String × Contract)) : Prop :=
  ∃ build, readText readBuild text = .ok build ∧ List.Forall₂ IsListedAs build.contracts contracts

theorem ofText_of_read {text : String} {build : Build} (h : readText readBuild text = .ok build) :
    ofText text = (loadContracts build.contracts []).map fun loaded =>
      ⟨loaded.1, filesOf build.sourceList loaded.2⟩ := by
  rw [ofText, h]
  show (loadContracts build.contracts []).bind _ = _
  cases loadContracts build.contracts [] <;> rfl

/-- A build is loaded unless a contract of it is stuck, and then the first such contract is the error.
The artifacts of a loaded build are those of the contracts that can be deployed, in order. -/
theorem ofText_listed {text : String} {contracts : List (String × Contract)}
    (h : Lists text contracts) (hcode : ∀ c ∈ contracts, c.2.IsCompiled) :
    match contracts.find? (·.2.IsStuck) with
    | some c => ofText text = .error (.badCode c.1 .creation)
    | none => ∃ store, ofText text = .ok store ∧
        List.Forall₂ IsArtifactOf (contracts.filter (·.2.IsDeployable)) store.artifacts := by
  obtain ⟨build, hread, hlisted⟩ := h
  have hload := loadContracts_listed hlisted hcode []
  rw [ofText_of_read hread]
  cases hfind : contracts.find? (·.2.IsStuck) with
  | some c =>
    rw [hfind] at hload
    dsimp only at hload ⊢
    rw [hload]
    rfl
  | none =>
    rw [hfind] at hload
    obtain ⟨loaded, hload, hall⟩ := hload
    refine ⟨⟨loaded.1, filesOf build.sourceList loaded.2⟩, ?_, hall⟩
    rw [hload]
    rfl

/-! ## Contracts that call a library -/

/-- The code of a contract that calls a library. -/
def libraryCall : String := "6080__$0123456789abcdef0123456789abcdef01$__00"

/-- A build of two contracts, the second all linked. -/
def besideLinked (creation runtime : String) : Json :=
  record [("contracts", record [
    ("a.sol:A", record [("bin", .string creation), ("bin-runtime", .string runtime)]),
    ("b.sol:B", record [("bin", .string "00"), ("bin-runtime", .string "00")])])]

/-- The contracts of such a build. -/
def pairOf (creation runtime : String) : List (String × Contract) :=
  [("a.sol:A", ⟨creation, runtime, "", "", .null⟩), ("b.sol:B", ⟨"00", "00", "", "", .null⟩)]

theorem lists_besideLinked (creation runtime : String) :
    Lists (besideLinked creation runtime).compact (pairOf creation runtime) :=
  ⟨_, readText_of_denotes (denotes_compact rfl) rfl, .cons ⟨rfl, rfl⟩ (.cons ⟨rfl, rfl⟩ .nil)⟩

theorem isCompiled_pairOf {creation runtime : String} (hcreation : IsCodeText creation)
    (hruntime : IsCodeText runtime) : ∀ c ∈ pairOf creation runtime, c.2.IsCompiled := by
  have hzero : IsCodeText "00" := .inl ⟨[0], by decide⟩
  exact List.forall_mem_cons.mpr ⟨⟨hcreation, hruntime⟩,
    List.forall_mem_singleton.mpr ⟨hzero, hzero⟩⟩

/-- A contract that calls a library when it runs is left out of the store. -/
theorem ofText_listed_libraryCall :
    Lists (besideLinked "6080" libraryCall).compact (pairOf "6080" libraryCall) ∧
      (∀ c ∈ pairOf "6080" libraryCall, c.2.IsCompiled) ∧
      ∃ store, ofText (besideLinked "6080" libraryCall).compact = .ok store ∧
        List.Forall₂ IsArtifactOf [("b.sol:B", ⟨"00", "00", "", "", .null⟩)] store.artifacts := by
  have hlists := lists_besideLinked "6080" libraryCall
  have hcode : ∀ c ∈ pairOf "6080" libraryCall, c.2.IsCompiled :=
    isCompiled_pairOf (.inl ⟨[0x60, 0x80], by decide⟩) (.inr (by decide))
  exact ⟨hlists, hcode, ofText_listed hlists hcode⟩

/-- A contract that calls a library when it is deployed is not left out: the others are not loaded
either. -/
theorem not_ofText_skips_unlinked :
    ¬ ∀ (text : String) (contracts : List (String × Contract)), Lists text contracts →
      (∀ c ∈ contracts, c.2.IsCompiled) →
      ∃ store, ofText text = .ok store ∧
        List.Forall₂ IsArtifactOf
          (contracts.filter fun c => c.2.IsDeployable ∧ ¬ HasPlaceholder c.2.creation)
          store.artifacts := by
  intro hall
  have hlists := lists_besideLinked libraryCall "6080"
  have hcode : ∀ c ∈ pairOf libraryCall "6080", c.2.IsCompiled :=
    isCompiled_pairOf (.inr (by decide)) (.inl ⟨[0x60, 0x80], by decide⟩)
  obtain ⟨store, hstore, -⟩ := hall _ _ hlists hcode
  obtain ⟨build, hread, hlisted⟩ := hlists
  have hload := loadContracts_listed hlisted hcode []
  have hstuck : (pairOf libraryCall "6080").find? (·.2.IsStuck) =
      some ("a.sol:A", ⟨libraryCall, "6080", "", "", .null⟩) := by
    refine List.find?_cons_of_pos ?_
    decide
  rw [hstuck] at hload
  dsimp only at hload
  rw [ofText_of_read hread, hload] at hstore
  cases hstore

end ArtifactStore

end TraceGloss
