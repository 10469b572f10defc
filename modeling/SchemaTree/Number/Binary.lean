/-!
Binary floating-point numbers: the double that a decimal text stands for, and when two of them, or
one and an integer, are the same number. `nearest` rounds to 53 bits, a tie to the even neighbour.
-/

namespace SchemaTree

structure Binary where
  mantissa : Int
  exponent : Int
  deriving Repr

namespace Binary

def same (a b : Binary) : Bool :=
  let low := min a.exponent b.exponent
  let scaled (x : Binary) := x.mantissa * Int.pow 2 (x.exponent - low).toNat
  scaled a == scaled b

def ofInt (n : Int) : Binary := ⟨n, 0⟩

/-- A quotient rounded to the nearest integer, a tie to the even one. -/
def roundedQuotient (num den : Nat) : Nat :=
  let q := num / den
  let twice := 2 * (num % den)
  if twice > den || (twice == den && q % 2 == 1) then q + 1 else q

def scaledDown (num den : Nat) (e : Int) : Nat × Nat :=
  (num * Nat.pow 2 (-e).toNat, den * Nat.pow 2 e.toNat)

/-- The exponent at which `num / den` has 53 bits before the point, but not below -1074. -/
def exponentOf (num den : Nat) : Int :=
  let guess : Int := (Nat.log2 num : Int) - Nat.log2 den - 52
  let (n, d) := scaledDown num den guess
  max (if n / d < Nat.pow 2 52 then guess - 1 else guess) (-1074)

def nearest (num den : Nat) : Binary :=
  let e := exponentOf num den
  let (n, d) := scaledDown num den e
  ⟨roundedQuotient n d, e⟩

private def digitsOf (cs : List Char) : Nat :=
  cs.foldl (fun n c => 10 * n + (c.toNat - '0'.toNat)) 0

def ofDecimal (digits : Nat) (power : Int) : Binary :=
  nearest (digits * Nat.pow 10 power.toNat) (Nat.pow 10 (-power).toNat)

def ofText? (text : String) : Option Binary :=
  let (negative, cs) := match text.toList with
    | '-' :: cs => (true, cs)
    | cs => (false, cs)
  let whole := cs.takeWhile Char.isDigit
  let rest := cs.dropWhile Char.isDigit
  let (part, rest) := match rest with
    | '.' :: rest => (rest.takeWhile Char.isDigit, rest.dropWhile Char.isDigit)
    | _ => ([], rest)
  let power : Option Int := match rest with
    | [] => some 0
    | 'e' :: '-' :: ds => some (-(digitsOf ds : Int))
    | 'e' :: '+' :: ds => some (digitsOf ds)
    | _ => none
  if whole.isEmpty then none
  else power.map fun e =>
    let b := ofDecimal (digitsOf (whole ++ part)) (e - part.length)
    if negative then ⟨-b.mantissa, b.exponent⟩ else b

end Binary

end SchemaTree
