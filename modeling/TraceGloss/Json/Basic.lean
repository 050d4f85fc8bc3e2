import TraceGloss.Json.Number

/-
  JSON values as they are met in a text.
  `Json` keeps members in the order of the text and keeps repeated keys: which of them counts is for
  the reader of a document to say. A text that stops being JSON still has a tree: the place where it
  stops is a `fault`, so that a reader that meets wrong content earlier reports that first. Equality
  of values is decided by going along both (`same_iff`).
-/
namespace TraceGloss

/-- Why a place in a JSON text has no value. -/
inductive Fault
  /-- Well-formed text that denotes nothing: half a surrogate pair, a number beyond the range of a
  double, or nesting that is too deep. It does no harm where the value is skipped. -/
  | unreadable
  /-- The text is not JSON from here on. -/
  | broken
deriving DecidableEq

/-- A JSON value, with its faults. -/
inductive Json
  | null
  | bool (b : Bool)
  /-- A number below `2 ^ 64` without sign, fraction or exponent. -/
  | natural (n : Nat)
  /-- Any other number. -/
  | decimal (n : Json.Numeral)
  | string (s : String)
  | array (items : List Json)
  /-- Members in order; a fault where the object ends without its brace or holds an unreadable key. -/
  | object (members : List (String × Json)) (ending : Option Fault)
  | fault (kind : Fault)
deriving Inhabited

namespace Json

mutual

/-- Whether two values are the same, by going along both. -/
def same : Json → Json → Bool
  | .null, .null => true
  | .bool a, .bool b => a = b
  | .natural m, .natural n => m = n
  | .decimal m, .decimal n => m = n
  | .string s, .string t => s = t
  | .array items, .array items' => sameItems items items'
  | .object members ending, .object members' ending' =>
    sameMembers members members' && ending = ending'
  | .fault kind, .fault kind' => kind = kind'
  | _, _ => false

def sameItems : List Json → List Json → Bool
  | [], [] => true
  | item :: rest, item' :: rest' => item.same item' && sameItems rest rest'
  | _, _ => false

def sameMembers : List (String × Json) → List (String × Json) → Bool
  | [], [] => true
  | (key, value) :: rest, (key', value') :: rest' =>
    key = key' && value.same value' && sameMembers rest rest'
  | _, _ => false

end

mutual

theorem same_iff (v w : Json) : v.same w = true ↔ v = w := by
  match v with
  | .array items => cases w <;> simp [same, sameItems_iff items]
  | .object members ending => cases w <;> simp [same, sameMembers_iff members]
  | .null | .bool a | .natural n | .decimal n | .string s | .fault kind => cases w <;> simp [same]

theorem sameItems_iff (items items' : List Json) :
    sameItems items items' = true ↔ items = items' := by
  match items with
  | [] => cases items' <;> simp [sameItems]
  | item :: rest => cases items' <;> simp [sameItems, same_iff item, sameItems_iff rest]

theorem sameMembers_iff (members members' : List (String × Json)) :
    sameMembers members members' = true ↔ members = members' := by
  match members with
  | [] => cases members' <;> simp [sameMembers]
  | (key, value) :: rest =>
    cases members' <;> simp [sameMembers, same_iff value, sameMembers_iff rest, Prod.ext_iff]

end

instance : DecidableEq Json := fun v w => decidable_of_iff _ (same_iff v w)

/-- The value of a number. -/
def number (n : Numeral) : Json :=
  match n.natural? with
  | some value => .natural value
  | none => if n.overflows then .fault .unreadable else .decimal n

/-- An object without faults of its own. -/
def record (members : List (String × Json)) : Json := .object members none

mutual

/-- Whether the text is JSON throughout the value. -/
def intact : Json → Bool
  | .array items => intactItems items
  | .object members ending => intactMembers members && ending != some .broken
  | .fault kind => kind != .broken
  | _ => true

def intactItems : List Json → Bool
  | [] => true
  | item :: rest => item.intact && intactItems rest

def intactMembers : List (String × Json) → Bool
  | [] => true
  | (_, value) :: rest => value.intact && intactMembers rest

end

mutual

/-- Whether the value has no fault at all. -/
def readable : Json → Bool
  | .array items => readableItems items
  | .object members ending => readableMembers members && ending.isNone
  | .fault _ => false
  | _ => true

def readableItems : List Json → Bool
  | [] => true
  | item :: rest => item.readable && readableItems rest

def readableMembers : List (String × Json) → Bool
  | [] => true
  | (_, value) :: rest => value.readable && readableMembers rest

end

/-- Binds `key` to `value`: at its first place if it is bound, else at the end. -/
def bind (key : String) (value : Json) : List (String × Json) → List (String × Json)
  | [] => [(key, value)]
  | (k, v) :: rest => if k = key then (k, value) :: rest else (k, v) :: bind key value rest

/-- Members without repeated keys: each key at its first place, with its last value. -/
def distinct (members : List (String × Json)) : List (String × Json) :=
  members.foldl (fun found m => bind m.1 m.2 found) []

mutual

/-- The value in which no object repeats a key. -/
def collapse : Json → Json
  | .array items => .array (collapseItems items)
  | .object members ending => .object (distinct (collapseMembers members)) ending
  | value => value

def collapseItems : List Json → List Json
  | [] => []
  | item :: rest => item.collapse :: collapseItems rest

def collapseMembers : List (String × Json) → List (String × Json)
  | [] => []
  | (key, value) :: rest => (key, value.collapse) :: collapseMembers rest

end

/-- The value bound to `key` in an object. -/
def get? (key : String) : Json → Option Json
  | .object members _ => members.lookup key
  | _ => none

def asString? : Json → Option String
  | .string s => some s
  | _ => none

end Json

end TraceGloss
