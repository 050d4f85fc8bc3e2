import TraceGloss.Json.Reading
import TraceGloss.Source.Materials

/-
  Compiled contracts.
  An `ArtifactStore` holds the contracts of one build and the source files their maps count. Deployed
  code is matched with runtime code up to the metadata trailer, whose length stands in the last two
  bytes. Contracts without runtime code, and those whose runtime code is not linked, are left out.
-/
namespace TraceGloss

open Json

structure Artifact where
  name : String
  creationCode : List UInt8
  runtimeCode : List UInt8
  sourceMap : String
  runtimeSourceMap : String
deriving DecidableEq, Inhabited

/-- The code fields of a contract. -/
inductive CodeField
  | creation
  | runtime
deriving DecidableEq

namespace CodeField

def name : CodeField → String
  | creation => "bin"
  | runtime => "bin-runtime"

end CodeField

inductive ArtifactError
  | document (error : ReadError)
  | badCode (contract : String) (field : CodeField)
  | sourceMap (contract : String) (error : SourceMapError)
deriving DecidableEq

namespace ArtifactError

/-- The wording; the one of an unreadable document is not fixed. -/
def message : ArtifactError → String
  | document _ => "Invalid artifacts JSON"
  | badCode contract field =>
    "Contract " ++ contract ++ " has a malformed `" ++ field.name ++ "` entry"
  | sourceMap contract error =>
    "Contract " ++ contract ++ " has an invalid source map: " ++ error.message

end ArtifactError

/-- The code without its metadata trailer. A trailer is as long as the last two bytes say, which has
to be more than nothing and no more than there is in front of them. -/
def stripMetadata (code : List UInt8) : List UInt8 :=
  let split := code.length - 2
  let length := bigEndian (code.drop split)
  if 2 ≤ code.length ∧ 0 < length ∧ length ≤ split then code.take (split - length) else code

structure ArtifactStore where
  artifacts : List Artifact := []
  files : List SourceFile := []
deriving Inhabited

namespace ArtifactStore

/-- A contract as a build describes it. -/
structure Contract where
  creation : String
  runtime : String
  sourceMap : String
  runtimeSourceMap : String
  metadata : Json

/-- A contract while it is being read. -/
structure Draft where
  creation : Option String := none
  runtime : Option String := none
  sourceMap : Option String := none
  runtimeSourceMap : Option String := none
  metadata : Option Json := none

def contractFields : List (RecordField Draft) :=
  [.part "bin" readString Draft.creation fun d v => { d with creation := some v },
    .part "bin-runtime" readString Draft.runtime fun d v => { d with runtime := some v },
    .part "srcmap" readString Draft.sourceMap fun d v => { d with sourceMap := some v },
    .part "srcmap-runtime" readString Draft.runtimeSourceMap
      fun d v => { d with runtimeSourceMap := some v },
    .part "metadata" .ok Draft.metadata fun d v => { d with metadata := some v }]

def contractOfDraft (_ : String → ReadError) (d : Draft) : Read Contract :=
  .ok {
    creation := d.creation.getD ""
    runtime := d.runtime.getD ""
    sourceMap := d.sourceMap.getD ""
    runtimeSourceMap := d.runtimeSourceMap.getD ""
    metadata := d.metadata.getD .null }

def readContract (value : Json) : Read Contract :=
  readRecord contractFields {} .whole contractOfDraft value

/-- The sources that metadata names. -/
def sourcesField : List (RecordField (Option (List (String × Json)))) :=
  [.part "sources" readObject id fun _ sources => some sources]

def readSources (value : Json) : Read (List (String × Json)) :=
  readRecord sourcesField none .streamed (fun _ found => .ok (found.getD [])) value

/-- The sources named in metadata, which is a JSON text or an object; none if it cannot be read. -/
def metadataSources (metadata : Json) : List (String × Json) :=
  let found :=
    match metadata with
    | .string text => readText readSources text
    | .object members stop => readSources (.object members stop)
    | _ => .ok []
  match found with
  | .ok sources => sources
  | .error _ => []

/-- The text of a source, if it has one. -/
def contentOf? (source : Json) : Option String := (source.get? "content").bind Json.asString?

/-- What is known of the sources of a build: every path by first appearance, with its text. -/
abbrev Contents := List (String × Option String)

/-- Adds a source; a text replaces the one before, and no text leaves it. -/
def addSource (path : String) (content : Option String) : Contents → Contents
  | [] => [(path, content)]
  | (p, c) :: rest =>
    if p = path then (p, content.or c) :: rest else (p, c) :: addSource path content rest

def addSources (sources : List (String × Json)) (contents : Contents) : Contents :=
  sources.foldl (fun found s => addSource s.1 (contentOf? s.2) found) contents

/-- Whether code has a place left for a library. -/
def isUnlinked : List Char → Bool
  | '_' :: '_' :: _ => true
  | _ :: rest => isUnlinked rest
  | [] => false

/-- The code in a field of a contract. -/
def readCode (name : String) (field : CodeField) (text : String) :
    Except ArtifactError (List UInt8) :=
  match Hex.readCode? text with
  | some code => .ok code
  | none => .error (.badCode name field)

/-- The artifact of a contract, unless it has no runtime code that can run. -/
def artifactOf (name : String) (contract : Contract) : Except ArtifactError (Option Artifact) :=
  if contract.runtime.isEmpty ∨ isUnlinked contract.runtime.toList then .ok none
  else do
    let creationCode ← readCode name .creation contract.creation
    let runtimeCode ← readCode name .runtime contract.runtime
    return some {
      name, creationCode, runtimeCode, sourceMap := contract.sourceMap,
      runtimeSourceMap := contract.runtimeSourceMap }

/-- Takes contracts in order: their artifacts, and the sources added to those known. -/
def loadContracts : List (String × Json) → Contents →
    Except ArtifactError (List Artifact × Contents)
  | [], contents => .ok ([], contents)
  | (name, value) :: rest, contents =>
    match readContract value with
    | .error error => .error (.document error)
    | .ok contract => do
      let contents := addSources (metadataSources contract.metadata) contents
      let artifact ← artifactOf name contract
      let others ← loadContracts rest contents
      return (artifact.toList ++ others.1, others.2)

/-- A build while it is being read. -/
structure BuildDraft where
  contracts : Option (List (String × Json)) := none
  sourceList : Option (Option (List String)) := none

/-- The contracts of a build and the order of its files, if it gives one. -/
structure Build where
  contracts : List (String × Json)
  sourceList : Option (List String)

def buildFields : List (RecordField BuildDraft) :=
  [.part "contracts" readObject BuildDraft.contracts fun d v => { d with contracts := some v },
    .part "sourceList" (readOption (readList readString)) BuildDraft.sourceList
      fun d v => { d with sourceList := some v }]

def buildOfDraft (missing : String → ReadError) (d : BuildDraft) : Read Build := do
  let contracts ← required missing "contracts" d.contracts
  return { contracts, sourceList := d.sourceList.getD none }

def readBuild (value : Json) : Read Build :=
  readRecord buildFields {} .streamed buildOfDraft value

/-- The files of a build: in the order it gives, or else by first appearance. -/
def filesOf (sourceList : Option (List String)) (contents : Contents) : List SourceFile :=
  match sourceList with
  | some paths => paths.map fun path => ⟨path, ((contents.lookup path).getD none).getD ""⟩
  | none => contents.map fun c => ⟨c.1, c.2.getD ""⟩

/-- The store of a build. -/
def ofBuild (build : Build) : Except ArtifactError ArtifactStore := do
  let loaded ← loadContracts build.contracts []
  return { artifacts := loaded.1, files := filesOf build.sourceList loaded.2 }

/-- The store of the JSON text that describes a build. -/
def ofText (text : String) : Except ArtifactError ArtifactStore :=
  match readText readBuild text with
  | .ok build => ofBuild build
  | .error error => .error (.document error)

/-- The places of artifacts by their runtime code without metadata. -/
def byRuntimeCode (store : ArtifactStore) : Std.HashMap (List UInt8) Nat :=
  store.artifacts.zipIdx.foldl (fun found a => found.insert (stripMetadata a.1.runtimeCode) a.2) {}

/-- The artifact of deployed code, found by the code without metadata. -/
def find? (store : ArtifactStore) (code : List UInt8) : Option Artifact :=
  store.byRuntimeCode[stripMetadata code]?.bind fun place => store.artifacts[place]?

/-- The materials of an artifact: for creation those of the code that deploys it. -/
def materials (store : ArtifactStore) (artifact : Artifact) (isCreation : Bool) :
    Except ArtifactError Materials :=
  let compiled :=
    if isCreation then Materials.compile artifact.creationCode artifact.sourceMap store.files
    else Materials.compile artifact.runtimeCode artifact.runtimeSourceMap store.files
  match compiled with
  | .ok found => .ok found
  | .error error => .error (.sourceMap artifact.name error)

end ArtifactStore

end TraceGloss
