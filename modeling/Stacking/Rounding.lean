/-!
# Rounding

Floating-point numbers by their bits: a sign bit, 11 bits of exponent and 52 bits of fraction. Every
rounding goes to the nearest number and from the middle to the even one.
-/

namespace Stacking

/-- A quotient rounded to the nearest whole number, a half to the even one. -/
def roundDiv (n d : Nat) : Nat :=
  let whole := n / d
  let rest := n % d
  if 2 * rest < d || (2 * rest == d && whole % 2 == 0) then whole else whole + 1

/-- The whole number nearest to a finite floating-point number, a half going to the even one. -/
def nearestInt (x : Float) : Int :=
  let bits := x.toBits.toNat
  let exponent := bits / 0x10000000000000 % 0x800
  let fraction := bits % 0x10000000000000
  let significand := if exponent = 0 then fraction else fraction + 0x10000000000000
  let scale := if exponent = 0 then 1 else exponent
  let magnitude :=
    if 1075 ≤ scale then significand * Nat.pow 2 (scale - 1075)
    else roundDiv significand (Nat.pow 2 (1075 - scale))
  if bits / 0x8000000000000000 = 1 then -(magnitude : Int) else magnitude

/-- The bits of positive infinity. The bits of every positive number are fewer. -/
def infinityBits : Nat := 0x7FF0000000000000

/-- The bits of what is not a number. -/
def undefinedBits : Nat := 0x7FF8000000000000

/-- The bits of the floating-point number nearest to `n / d`. With the least number above zero as
the unit, a number `q · 2 ^ scale` whose `q` has 53 bits, or fewer if `scale` is zero, has the bits
`scale · 2 ^ 52 + q`; if rounding makes `q` one bit longer, the carry leads to the right exponent,
and from the last one to infinity. -/
def nearestBits (n d : Nat) : Nat :=
  let units := n * Nat.pow 2 1074
  let scale := (units / d).log2 - 52
  min (scale * Nat.pow 2 52 + roundDiv units (d * Nat.pow 2 scale)) infinityBits

/-- The floating-point number nearest to a whole one; there is none if that would be infinite. -/
def nearestFloat? (n : Int) : Option Float :=
  let bits := nearestBits n.natAbs 1
  if bits = infinityBits then none
  else
    let magnitude := Float.ofBits bits.toUInt64
    some (if n < 0 then -magnitude else magnitude)

end Stacking
