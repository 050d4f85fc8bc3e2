import TraceGloss.Decimal.Double

/-
  Fixed notation: a fraction with a number of places behind the point, rounded to the nearest last
  place, an even one on a tie.
-/
namespace TraceGloss.Decimal

/-- A fraction with a number of places behind the point. -/
def fixed (places : Nat) (f : Fraction) : String :=
  let scale := Nat.pow 10 places
  let units := roundHalfEven (f.num * scale) f.den
  let digits := toString (units % scale)
  let zeros := String.ofList (List.replicate (places - digits.length) '0')
  toString (units / scale) ++ "." ++ zeros ++ digits

end TraceGloss.Decimal
