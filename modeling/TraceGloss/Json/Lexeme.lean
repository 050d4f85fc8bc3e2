import TraceGloss.Hex
import TraceGloss.Json.Basic

/-
  The lexemes of a JSON text: marks, literals, numbers and strings. Every lexeme takes at least one
  character, which is what ends the reading of a text.
-/
namespace TraceGloss.Json

inductive Lexeme
  | openArray
  | closeArray
  | openObject
  | closeObject
  | comma
  | colon
  /-- A string; `none` if its escapes hold half a surrogate pair. -/
  | text (s : Option String)
  /-- One of `null`, `true` and `false`, or a number. -/
  | scalar (value : Json)

/-- A piece of a string: a character as written, or the unit of a `\u` escape. -/
inductive Piece
  | char (c : Char)
  | unit (n : Nat)

/-- The number of four hex digits. -/
def fourDigits? (a b c d : Char) : Option Nat := do
  let a ← Hex.value? a
  let b ← Hex.value? b
  let c ← Hex.value? c
  let d ← Hex.value? d
  return 4096 * a + 256 * b + 16 * c + d

/-- The character of a one-letter escape. -/
def escaped? : Char → Option Char
  | '"' => some '"'
  | '\\' => some '\\'
  | '/' => some '/'
  | 'b' => some '\x08'
  | 'f' => some '\x0c'
  | 'n' => some '\n'
  | 'r' => some '\r'
  | 't' => some '\t'
  | _ => none

/-- The pieces of a string up to its closing quote, newest first, and the text behind it. -/
def spanString (found : List Piece) : List Char → Option (List Piece × List Char)
  | [] => none
  | '"' :: rest => some (found, rest)
  | '\\' :: 'u' :: a :: b :: c :: d :: rest =>
    match fourDigits? a b c d with
    | some n => spanString (.unit n :: found) rest
    | none => none
  | '\\' :: c :: rest =>
    match escaped? c with
    | some c => spanString (.char c :: found) rest
    | none => none
  | c :: rest => if c.toNat < 32 ∨ c = '\\' then none else spanString (.char c :: found) rest

theorem length_spanString {found : List Piece} {text : List Char} {r : List Piece × List Char}
    (h : spanString found text = some r) : r.2.length < text.length := by
  fun_induction spanString found text with
  | case1 => simp at h
  | case2 found rest => simp at h; simp [← h]
  | case3 => simp_all; omega
  | case4 => simp at h
  | case5 => simp_all; omega
  | case6 => simp at h
  | case7 => simp at h
  | case8 => simp_all; omega

def isLead (n : Nat) : Bool := 0xd800 ≤ n && n < 0xdc00

def isTrail (n : Nat) : Bool := 0xdc00 ≤ n && n < 0xe000

/-- The characters of a string whose pieces are given newest first, before the characters `later`;
a surrogate counts only as half of a pair. -/
def assemble (later : List Char) : List Piece → Option (List Char)
  | [] => some later
  | .char c :: rest => assemble (c :: later) rest
  | .unit low :: .unit high :: rest =>
    if isTrail low then
      if isLead high then
        assemble (Char.ofNat (0x10000 + (high - 0xd800) * 1024 + (low - 0xdc00)) :: later) rest
      else none
    else if isLead low then none
    else assemble (Char.ofNat low :: later) (.unit high :: rest)
  | .unit n :: rest =>
    if isLead n || isTrail n then none else assemble (Char.ofNat n :: later) rest

/-- The lexeme that starts with `c`, and the text behind it. -/
def lexeme? (c : Char) (rest : List Char) : Option (Lexeme × List Char) :=
  match c, rest with
  | '[', _ => some (.openArray, rest)
  | ']', _ => some (.closeArray, rest)
  | '{', _ => some (.openObject, rest)
  | '}', _ => some (.closeObject, rest)
  | ',', _ => some (.comma, rest)
  | ':', _ => some (.colon, rest)
  | 'n', 'u' :: 'l' :: 'l' :: rest => some (.scalar .null, rest)
  | 't', 'r' :: 'u' :: 'e' :: rest => some (.scalar (.bool true), rest)
  | 'f', 'a' :: 'l' :: 's' :: 'e' :: rest => some (.scalar (.bool false), rest)
  | '"', _ =>
    (spanString [] rest).map fun r =>
      (.text ((assemble [] r.1).map String.ofList), r.2)
  | _, _ => (spanNumeral (c :: rest)).map fun r => (.scalar (number r.1), r.2)

theorem length_lexeme? {c : Char} {rest : List Char} {r : Lexeme × List Char}
    (h : lexeme? c rest = some r) : r.2.length ≤ rest.length := by
  unfold lexeme? at h
  split at h
  all_goals first
    | (cases h; simp only [List.length_cons]; omega)
    | skip
  · obtain ⟨s, hs, rfl⟩ := Option.map_eq_some_iff.mp h
    exact Nat.le_of_lt (length_spanString hs)
  · obtain ⟨s, hs, rfl⟩ := Option.map_eq_some_iff.mp h
    exact Nat.le_of_lt_succ (length_spanNumeral hs)

end TraceGloss.Json
