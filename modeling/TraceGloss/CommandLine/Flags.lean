import TraceGloss.Account
import TraceGloss.Text.Digits

/-
  The command line's flags.
  A value stands behind its flag, as the next argument or after an equals sign. As an argument of its
  own it may not start with a minus sign, a lone one excepted. Only `--op` may be repeated.
-/
namespace TraceGloss.CommandLine

structure Flags where
  trace : Option String := none
  receipt : Option String := none
  entry : Option Address := none
  creation : Bool := false
  artifacts : Option String := none
  code : Option String := none
  constants : Option String := none
  config : Option String := none
  ops : List String := []
  sourceOnly : Bool := false
  threshold : Option UInt64 := none
  noColour : Bool := false
  json : Bool := false
  gasSummary : Bool := false
deriving DecidableEq, Inhabited

/-- Why arguments are not accepted. -/
inductive UsageError
  | unknown (argument : String)
  | repeated (flag : String)
  | missingValue (flag : String)
  | surplusValue (flag : String)
  | badValue (flag value : String)
  | missing (flag : String)
  | conflict (flag other : String)
  | requires (flag other : String)
  /-- Not an error: the caller asks how the program is used. -/
  | help
deriving DecidableEq

namespace UsageError

def message : UsageError → String
  | unknown argument => "unexpected argument '" ++ argument ++ "'"
  | repeated flag => "--" ++ flag ++ " cannot be used twice"
  | missingValue flag => "--" ++ flag ++ " needs a value"
  | surplusValue flag => "--" ++ flag ++ " takes no value"
  | badValue flag value => "--" ++ flag ++ " cannot take '" ++ value ++ "'"
  | missing flag => "--" ++ flag ++ " is missing"
  | conflict flag other => "--" ++ flag ++ " cannot be used with --" ++ other
  | requires flag other => "--" ++ flag ++ " needs --" ++ other
  | help => "help"

end UsageError

/-- A flag: one that stands alone, or one that takes a value. -/
inductive Flag
  | switch (isSet : Flags → Bool) (set : Flags → Flags)
  | valued (isSet : Flags → Bool) (set : String → Flags → Option Flags)

/-- A flag for a path, which is not empty. -/
def path (get : Flags → Option String) (set : Flags → String → Flags) : Flag :=
  .valued (fun f => (get f).isSome) fun value f => if value.isEmpty then none else some (set f value)

/-- The flags by name. -/
def flags : List (String × Flag) :=
  [("trace", path Flags.trace fun f v => { f with trace := some v }),
    ("receipt", path Flags.receipt fun f v => { f with receipt := some v }),
    ("entry", .valued (·.entry.isSome) fun value f =>
      match FixedBytes.parse value with
      | .ok address => some { f with entry := some address }
      | .error _ => none),
    ("creation", .switch Flags.creation fun f => { f with creation := true }),
    ("artifacts", path Flags.artifacts fun f v => { f with artifacts := some v }),
    ("code", path Flags.code fun f v => { f with code := some v }),
    ("constants", path Flags.constants fun f v => { f with constants := some v }),
    ("config", path Flags.config fun f v => { f with config := some v }),
    ("op", .valued (fun _ => false) fun value f => some { f with ops := f.ops ++ [value] }),
    ("source-only", .switch Flags.sourceOnly fun f => { f with sourceOnly := true }),
    ("threshold", .valued (·.threshold.isSome) fun value f =>
      match Digits.natural 10 UInt64.size value.toList with
      | .ok n => some { f with threshold := some (UInt64.ofNat n) }
      | .error _ => none),
    ("no-color", .switch Flags.noColour fun f => { f with noColour := true }),
    ("json", .switch Flags.json fun f => { f with json := true }),
    ("gas-summary", .switch Flags.gasSummary fun f => { f with gasSummary := true })]

/-- An argument that begins with two minus signs: its name, and the value behind an equals sign. -/
def splitName (text : List Char) : String × Option String :=
  let name := text.takeWhile (· ≠ '=')
  match text.drop name.length with
  | _ :: value => (String.ofList name, some (String.ofList value))
  | [] => (String.ofList name, none)

/-- Whether an argument can be the value of the flag before it. -/
def isValue (argument : String) : Bool := argument == "-" || !argument.startsWith "-"

/-- Sets a flag to a value. -/
def give (name value : String) (isSet : Flags → Bool) (set : String → Flags → Option Flags)
    (found : Flags) : Except UsageError Flags :=
  match set value found with
  | none => .error (.badValue name value)
  | some next => if isSet found then .error (.repeated name) else .ok next

/-- Takes arguments from left to right. -/
def takeArguments : List String → Flags → Except UsageError Flags
  | [], found => .ok found
  | argument :: rest, found =>
    match argument.toList with
    | ['-', '-'] =>
      match rest with
      | [] => .ok found
      | stray :: _ => .error (.unknown stray)
    | '-' :: '-' :: text =>
      let (name, value?) := splitName text
      match flags.lookup name, value? with
      | some (.switch isSet set), none =>
        if isSet found then .error (.repeated name) else takeArguments rest (set found)
      | some (.switch ..), some _ => .error (.surplusValue name)
      | some (.valued isSet set), some value =>
        match give name value isSet set found with
        | .ok next => takeArguments rest next
        | .error e => .error e
      | some (.valued isSet set), none =>
        match rest with
        | [] => .error (.missingValue name)
        | value :: rest =>
          if isValue value then
            match give name value isSet set found with
            | .ok next => takeArguments rest next
            | .error e => .error e
          else .error (.missingValue name)
      | none, none => .error (if name = "help" then .help else .unknown argument)
      | none, some _ => .error (.unknown argument)
    | '-' :: 'h' :: _ => .error .help
    | _ => .error (.unknown argument)

/-- The flags that only go with, or without, another one. A receipt takes the place of the entry, so
that nothing needs an entry beside it. -/
def check (f : Flags) : Except UsageError Flags :=
  if f.trace.isNone then .error (.missing "trace")
  else if f.receipt.isSome ∧ f.entry.isSome then .error (.conflict "receipt" "entry")
  else if f.creation ∧ f.entry.isNone ∧ f.receipt.isNone then .error (.requires "creation" "entry")
  else if f.artifacts.isSome ∧ f.code.isNone then .error (.requires "artifacts" "code")
  else .ok f

/-- The flags of a list of arguments. -/
def parse (arguments : List String) : Except UsageError Flags := do
  check (← takeArguments arguments {})

end TraceGloss.CommandLine
