/-!
# Double precision

Non-negative numbers with 53 significant bits, as far as a share in percent
needs them: the number is `mantissa * 2 ^ exponent`, and a mantissa that is not
zero has exactly 53 bits. Every operation gives the number nearest to the exact
result, and of two that are equally near the one with the even mantissa.
-/

namespace Cull

/-- The natural number nearest to a quotient, the even one of two. -/
def roundDiv (p q : Nat) : Nat :=
  let d := p / q
  let r := p % q
  if q < 2 * r || (2 * r = q && d % 2 = 1) then d + 1 else d

/-- A power of two. -/
def twoTo (n : Nat) : Nat := Nat.pow 2 n

/-- A number in double precision. -/
structure Double where
  /-- The significant bits. -/
  mantissa : Nat
  /-- The power of two by which they are multiplied. -/
  exponent : Int
  deriving DecidableEq

namespace Double

/-- The number zero. -/
def zero : Double := ⟨0, 0⟩

/-- The quotient `p / q` divided by a power of two, as a quotient. -/
def scale (p q : Nat) (exponent : Int) : Nat × Nat :=
  match exponent with
  | .ofNat e => (p, q * twoTo e)
  | .negSucc e => (p * twoTo (e + 1), q)

/-- The number nearest to a quotient. -/
def ofRatio (p q : Nat) : Double :=
  if p = 0 || q = 0 then zero
  else
    let guess : Int := (p.log2 : Int) - q.log2 - 52
    let (a, b) := scale p q guess
    let e := if a < twoTo 52 * b then guess - 1 else guess
    let (a, b) := scale p q e
    let m := roundDiv a b
    if m = twoTo 53 then ⟨twoTo 52, e + 1⟩ else ⟨m, e⟩

/-- The exact value, as a quotient. -/
def toRatio (d : Double) : Nat × Nat := scale d.mantissa 1 (-d.exponent)

/-- The number nearest to a natural number. -/
def ofNat (n : Nat) : Double := ofRatio n 1

/-- The product. -/
def mul (x y : Double) : Double :=
  let (a, b) := x.toRatio
  let (c, d) := y.toRatio
  ofRatio (a * c) (b * d)

/-- The quotient; a quotient by zero is zero. -/
def div (x y : Double) : Double :=
  let (a, b) := x.toRatio
  let (c, d) := y.toRatio
  ofRatio (a * d) (b * c)

/-- The 64 bits of the standard binary form. -/
def bits (d : Double) : Nat :=
  if d.mantissa = 0 then 0 else (d.exponent + 1075).toNat * twoTo 52 + (d.mantissa - twoTo 52)

/-- The decimal form with one digit after the point, rounded from the exact value, with a half going
to the even digit. -/
def toTenths (d : Double) : String :=
  let (a, b) := d.toRatio
  let tenths := roundDiv (a * 10) b
  toString (tenths / 10) ++ "." ++ toString (tenths % 10)

end Double

end Cull
