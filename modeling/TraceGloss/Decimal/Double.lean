/-
  Doubles as fractions.
  `nearestDouble` is the double nearest to a fraction: 53 significant bits, an even last one on a tie.
  Quotients and products of doubles are the exact ones, rounded once. `exceedsDouble` says whether a
  product has no finite double.
-/
namespace TraceGloss.Decimal

/-- The integer nearest to a fraction; of two the even one. -/
def roundHalfEven (num den : Nat) : Nat :=
  let quotient := num / den
  let twice := 2 * (num % den)
  if twice < den then quotient
  else if den < twice then quotient + 1
  else if quotient % 2 = 0 then quotient
  else quotient + 1

/-- A fraction of natural numbers. -/
structure Fraction where
  num : Nat
  den : Nat
deriving DecidableEq, Inhabited

/-- The fraction in units of `2 ^ (down - up)`. -/
def Fraction.scaled (f : Fraction) (up down : Nat) : Fraction :=
  ⟨f.num * Nat.pow 2 up, f.den * Nat.pow 2 down⟩

/-- The power of two, as `2 ^ up / 2 ^ down`, that brings a positive fraction to 53 bits before the
point. -/
def significandScale (f : Fraction) : Nat × Nat :=
  let up := 52 + f.den.log2 - f.num.log2
  let down := f.num.log2 - (52 + f.den.log2)
  let g := f.scaled up down
  if g.num < Nat.pow 2 52 * g.den then (if 0 < down then (up, down - 1) else (up + 1, down))
  else (up, down)

/-- The double nearest to a fraction, as a fraction. The exponent is not bounded. -/
def nearestDouble (f : Fraction) : Fraction :=
  if f.num = 0 then ⟨0, 1⟩
  else
    let (up, down) := significandScale f
    let g := f.scaled up down
    ⟨roundHalfEven g.num g.den * Nat.pow 2 down, Nat.pow 2 up⟩

/-- The double quotient of two integers, which are first made doubles themselves. -/
def doubleQuotient (a b : Nat) : Fraction :=
  let a := nearestDouble ⟨a, 1⟩
  let b := nearestDouble ⟨b, 1⟩
  nearestDouble ⟨a.num * b.den, a.den * b.num⟩

/-- The least magnitude that rounds to no finite double. -/
def doubleLimit : Nat := Nat.pow 2 1024 - Nat.pow 2 970

/-- Whether the double product of two integers, which are first made doubles themselves, lies beyond
all finite doubles. -/
def exceedsDouble (a b : Nat) : Bool :=
  let a := nearestDouble ⟨a, 1⟩
  let b := nearestDouble ⟨b, 1⟩
  doubleLimit * (a.den * b.den) ≤ a.num * b.num

end TraceGloss.Decimal
