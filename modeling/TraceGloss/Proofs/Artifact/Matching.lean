import TraceGloss.Artifact
import TraceGloss.Proofs.Word.Value

/-
  Which artifact deployed code belongs to.
  A compiler puts a blob of metadata behind the code, and the length of the blob in two bytes behind that
  (`withMetadata`). Such a trailer is left out (`stripMetadata_withMetadata`), and nothing else is
  (`stripMetadata_of_not_hasMetadata`). Artifacts are found by the code in front of it: each one takes the
  place of those before it that have the same code (`find?_concat`), so the last one that agrees with
  deployed code is found, whatever their metadata (`find?_up_to_metadata`).
-/
namespace TraceGloss

/-! ## Trailers -/

/-- Metadata as a compiler puts it behind code: at least a byte, and no more than two bytes can tell. -/
def IsMetadata (blob : List UInt8) : Prop := 0 < blob.length ∧ blob.length < 256 ^ 2

/-- Code with metadata behind it, and the length of the metadata in two bytes. -/
def withMetadata (body blob : List UInt8) : List UInt8 :=
  body ++ blob ++ toBigEndian 2 blob.length

/-- Whether code has a trailer. -/
def HasMetadata (code : List UInt8) : Prop :=
  ∃ body blob, IsMetadata blob ∧ code = withMetadata body blob

variable {body blob code : List UInt8}

theorem length_withMetadata (body blob : List UInt8) :
    (withMetadata body blob).length = body.length + blob.length + 2 := by
  rw [withMetadata, List.length_append, List.length_append, length_toBigEndian]

/-- What is left of code is the front of it, up to the trailer. -/
theorem stripMetadata_prefix (code : List UInt8) : stripMetadata code <+: code := by
  unfold stripMetadata
  dsimp only
  split
  · exact List.take_prefix _ _
  · exact List.prefix_rfl

theorem stripMetadata_withMetadata (h : IsMetadata blob) :
    stripMetadata (withMetadata body blob) = body := by
  obtain ⟨hsome, hshort⟩ := h
  have hlength := length_withMetadata body blob
  have hsplit : (withMetadata body blob).length - 2 = (body ++ blob).length := by
    rw [List.length_append]
    omega
  have htold : bigEndian ((withMetadata body blob).drop (body ++ blob).length) = blob.length := by
    rw [withMetadata, List.drop_left, bigEndian_toBigEndian, Nat.mod_eq_of_lt hshort]
  unfold stripMetadata
  dsimp only
  rw [hsplit, htold, if_pos ⟨by omega, hsome, by simp⟩, List.length_append, Nat.add_sub_cancel,
    withMetadata, List.append_assoc, List.take_left]

/-- Code without a trailer stays as it is. -/
theorem stripMetadata_of_not_hasMetadata (h : ¬ HasMetadata code) : stripMetadata code = code := by
  unfold stripMetadata
  dsimp only
  split
  · rename_i hcut
    obtain ⟨htwo, hsome, hfits⟩ := hcut
    generalize hsplit : code.length - 2 = split at hsome hfits
    generalize hlength : bigEndian (code.drop split) = length at hsome hfits
    have hdrop : (code.drop split).length = 2 := by
      rw [List.length_drop]
      omega
    have hblob : ((code.take split).drop (split - length)).length = length := by
      rw [List.length_drop, List.length_take_of_le (by omega)]
      omega
    have hshort : length < 256 ^ 2 := by
      have hlt := bigEndian_lt (code.drop split)
      rwa [hdrop, hlength] at hlt
    have htold : toBigEndian 2 length = code.drop split := by
      apply eq_of_bigEndian_eq
      · rw [length_toBigEndian, hdrop]
      · rw [bigEndian_toBigEndian, Nat.mod_eq_of_lt hshort, hlength]
    -- the bytes that would be cut are a trailer
    refine absurd ⟨(code.take split).take (split - length),
      (code.take split).drop (split - length), ?_, ?_⟩ h
    · rw [IsMetadata, hblob]
      exact ⟨hsome, hshort⟩
    · rw [withMetadata, hblob, htold, List.take_append_drop, List.take_append_drop]
  · rfl

/-! ## Artifacts -/

/-- Whether the artifact is one of deployed code, metadata aside. -/
def Artifact.Matches (a : Artifact) (code : List UInt8) : Prop :=
  stripMetadata a.runtimeCode = stripMetadata code

instance (code : List UInt8) : DecidablePred (Artifact.Matches · code) :=
  fun a => inferInstanceAs (Decidable (stripMetadata a.runtimeCode = stripMetadata code))

/-- Metadata does not tell artifacts from deployed code. -/
theorem Artifact.matches_withMetadata {a : Artifact} {other : List UInt8} (hblob : IsMetadata blob)
    (hother : IsMetadata other) (h : a.runtimeCode = withMetadata body blob) :
    a.Matches (withMetadata body other) := by
  rw [Matches, h, stripMetadata_withMetadata hblob, stripMetadata_withMetadata hother]

namespace ArtifactStore

variable (artifacts : List Artifact) (files : List SourceFile) (a : Artifact) (code : List UInt8)

/-- An artifact takes the place of those before it that have the same code. -/
theorem byRuntimeCode_concat :
    (⟨artifacts ++ [a], files⟩ : ArtifactStore).byRuntimeCode[stripMetadata code]? =
      if a.Matches code then some artifacts.length
      else (⟨artifacts, files⟩ : ArtifactStore).byRuntimeCode[stripMetadata code]? := by
  simp only [byRuntimeCode, List.zipIdx_append, List.zipIdx_singleton, List.foldl_append,
    List.foldl_cons, List.foldl_nil, Std.HashMap.getElem?_insert, beq_iff_eq, Nat.zero_add]
  rfl

theorem lt_of_byRuntimeCode {place : Nat}
    (h : (⟨artifacts, files⟩ : ArtifactStore).byRuntimeCode[stripMetadata code]? = some place) :
    place < artifacts.length := by
  induction artifacts using List.reverseRecOn with
  | nil => simp [byRuntimeCode] at h
  | append_singleton artifacts a ih =>
    rw [byRuntimeCode_concat] at h
    rw [List.length_append, List.length_singleton]
    split at h
    · cases h
      exact Nat.lt_succ_self _
    · exact Nat.lt_succ_of_lt (ih h)

/-- The last artifact is found if it matches, and else what is found without it. -/
theorem find?_concat :
    (⟨artifacts ++ [a], files⟩ : ArtifactStore).find? code =
      if a.Matches code then some a else (⟨artifacts, files⟩ : ArtifactStore).find? code := by
  unfold find?
  rw [byRuntimeCode_concat]
  split
  · exact List.getElem?_concat_length
  · cases hplace : (⟨artifacts, files⟩ : ArtifactStore).byRuntimeCode[stripMetadata code]? with
    | none => rfl
    | some place => exact List.getElem?_append_left (lt_of_byRuntimeCode artifacts files code hplace)

/-- Artifacts are searched from the last one on. -/
theorem find?_eq :
    (⟨artifacts, files⟩ : ArtifactStore).find? code =
      artifacts.reverse.find? fun a => a.Matches code := by
  induction artifacts using List.reverseRecOn with
  | nil => simp [find?, byRuntimeCode]
  | append_singleton artifacts a ih =>
    rw [find?_concat, ih, List.reverse_append, List.reverse_singleton, List.singleton_append,
      List.find?_cons]
    by_cases h : a.Matches code
    · rw [if_pos h, decide_eq_true h]
    · rw [if_neg h, decide_eq_false h]

theorem find?_eq_some_iff (store : ArtifactStore) :
    store.find? code = some a ↔
      ∃ front back, store.artifacts = front ++ a :: back ∧ a.Matches code ∧
        ∀ b ∈ back, ¬ b.Matches code := by
  rw [show store.find? code = _ from find?_eq store.artifacts store.files code,
    List.find?_eq_some_iff_append]
  constructor
  · rintro ⟨hmatch, back, front, hsplit, hothers⟩
    refine ⟨front.reverse, back.reverse, ?_, by simpa using hmatch, by simpa using hothers⟩
    rw [← List.reverse_reverse store.artifacts, hsplit, List.reverse_append, List.reverse_cons,
      List.append_assoc, List.singleton_append]
  · rintro ⟨front, back, hsplit, hmatch, hothers⟩
    refine ⟨by simpa using hmatch, back.reverse, front.reverse, ?_, by simpa using hothers⟩
    rw [hsplit, List.reverse_append, List.reverse_cons, List.append_assoc, List.singleton_append]

theorem find?_eq_none_iff (store : ArtifactStore) :
    store.find? code = none ↔ ∀ a ∈ store.artifacts, ¬ a.Matches code := by
  rw [show store.find? code = _ from find?_eq store.artifacts store.files code]
  simp

/-- Artifacts are found by their runtime code up to a trailer of metadata: of those that agree with
deployed code so the last one is found, and none if none does. What is left of code is its front, without
the trailer if it has one and else all of it, so the metadata in either code does not matter. -/
theorem find?_up_to_metadata (store : ArtifactStore) :
    (∀ code a, store.find? code = some a ↔
      ∃ front back, store.artifacts = front ++ a :: back ∧ a.Matches code ∧
        ∀ b ∈ back, ¬ b.Matches code) ∧
    (∀ code, store.find? code = none ↔ ∀ a ∈ store.artifacts, ¬ a.Matches code) ∧
    (∀ code, stripMetadata code <+: code) ∧
    (∀ body blob, IsMetadata blob → stripMetadata (withMetadata body blob) = body) ∧
    (∀ code, ¬ HasMetadata code → stripMetadata code = code) ∧
    ∀ (a : Artifact) (body blob other : List UInt8), IsMetadata blob → IsMetadata other →
      a.runtimeCode = withMetadata body blob → a.Matches (withMetadata body other) := by
  refine ⟨?_, ?_, stripMetadata_prefix, ?_, ?_, ?_⟩
  · intro code a
    exact find?_eq_some_iff a code store
  · intro code
    exact find?_eq_none_iff code store
  · intro body blob hblob
    exact stripMetadata_withMetadata hblob
  · intro code hnone
    exact stripMetadata_of_not_hasMetadata hnone
  · intro a body blob other hblob hother h
    exact Artifact.matches_withMetadata hblob hother h

/-- One contract in two builds, with metadata of two lengths. -/
def builtTwice : ArtifactStore where
  artifacts := [⟨"a.sol:A", [], withMetadata [0x60, 0x80] [0xa1], "", ""⟩,
    ⟨"b.sol:A", [], withMetadata [0x60, 0x80] [0xa1, 0x65], "", ""⟩]

theorem find?_up_to_metadata_builtTwice :
    IsMetadata [0xa1, 0x65] ∧ IsMetadata [0xa2, 0x00, 0x33] ∧
      builtTwice.find? (withMetadata [0x60, 0x80] [0xa2, 0x00, 0x33]) =
        some ⟨"b.sol:A", [], withMetadata [0x60, 0x80] [0xa1, 0x65], "", ""⟩ := by
  have hblob : IsMetadata [0xa1, 0x65] := ⟨by decide, by decide⟩
  have hother : IsMetadata [0xa2, 0x00, 0x33] := ⟨by decide, by decide⟩
  obtain ⟨hfound, -, -, -, -, hagree⟩ := find?_up_to_metadata builtTwice
  refine ⟨hblob, hother, (hfound _ _).mpr ⟨[_], [], rfl, ?_, List.forall_mem_nil _⟩⟩
  exact hagree _ _ _ _ hblob hother rfl

end ArtifactStore

end TraceGloss
