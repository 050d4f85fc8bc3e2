/-
  Terminal colours. A painted text stands between the sequence that switches its colour on and the
  one that resets the terminal; after a reset inside the text the colour is switched on again.
-/
namespace TraceGloss.Text

inductive Colour
  | brightBlue
  | brightBlack
deriving DecidableEq

/-- The sequence that resets the terminal. -/
def reset : List Char := ['\x1b', '[', '0', 'm']

namespace Colour

/-- The sequence that switches the colour on. -/
def start : Colour → List Char
  | brightBlue => ['\x1b', '[', '9', '4', 'm']
  | brightBlack => ['\x1b', '[', '9', '0', 'm']

/-- The text with the colour switched on again after every reset in it. -/
def resume (colour : Colour) : List Char → List Char
  | '\x1b' :: '[' :: '0' :: 'm' :: rest => reset ++ colour.start ++ colour.resume rest
  | c :: rest => c :: colour.resume rest
  | [] => []

/-- The text in a colour, if colours are on. -/
def paint (on : Bool) (colour : Colour) (text : String) : String :=
  if on then String.ofList (colour.start ++ colour.resume text.toList ++ reset) else text

end Colour

end TraceGloss.Text
