import BlockScript.Fault

namespace BlockScript

/-- A binary64 number. A finite one has the value `± mantissa * 2 ^ exponent`. -/
inductive Double where
  | nan
  | infinite (negative : Bool)
  | finite (negative : Bool) (mantissa : Nat) (exponent : Int)
deriving DecidableEq, Inhabited

/-- The rational number `n * base ^ e`. -/
def scaled (n base : Nat) (e : Int) : Rat :=
  if 0 ≤ e then (n * Nat.pow base e.toNat : Nat) else mkRat n (Nat.pow base (-e).toNat)

/-- The whole number nearest to `n / d`; a half goes to the even neighbour. -/
def roundDiv (n d : Nat) : Nat :=
  let q := n / d
  let r := n % d
  if 2 * r < d ∨ (2 * r = d ∧ q % 2 = 0) then q else q + 1

namespace Double

def precision : Nat := 53

def minExponent : Int := -1074

/-- The largest exponent of a mantissa with all its bits. -/
def maxExponent : Int := 971

/-- The power of two in a positive rational: `2 ^ e ≤ r < 2 ^ (e + 1)`. -/
def binaryExponent (r : Rat) : Int :=
  let e : Int := (Nat.log2 r.num.natAbs : Int) - Nat.log2 r.den
  if scaled 1 2 e ≤ r then e else e - 1

/-- The number nearest to `± r`, for `r` not negative; a half goes to the even mantissa. What is
beyond the range is infinite. -/
def ofMagnitude (negative : Bool) (r : Rat) : Double :=
  if r = 0 then finite negative 0 minExponent
  else
    let e := max minExponent (binaryExponent r - (precision - 1))
    let s := r / scaled 1 2 e
    let m := roundDiv s.num.natAbs s.den
    let (m, e) := if m = Nat.pow 2 precision then (m / 2, e + 1) else (m, e)
    if maxExponent < e then infinite negative else finite negative m e

def ofRat (r : Rat) : Double :=
  if r < 0 then ofMagnitude true (-r) else ofMagnitude false r

/-- The exact value of a finite number. -/
def toRat? : Double → Option Rat
  | finite negative m e => some (if negative then -scaled m 2 e else scaled m 2 e)
  | _ => none

def isFinite : Double → Bool
  | finite .. => true
  | _ => false

def isNegative : Double → Bool
  | nan => false
  | infinite negative => negative
  | finite negative .. => negative

def isZero : Double → Bool
  | finite _ m _ => m == 0
  | _ => false

/-- None where the range is left. -/
def ofInt? (n : Int) : Option Double :=
  match ofRat n with
  | finite negative m e => some (finite negative m e)
  | _ => none

/-- The whole number that a finite value without fraction is. -/
def whole? (d : Double) : Option Int :=
  match d.toRat? with
  | some r => if r.den = 1 then some r.num else none
  | none => none

/-- The value without its fraction. -/
def truncate : Double → Except Fault Int
  | nan => .error .invalid
  | infinite _ => .error .tooLarge
  | finite negative m e =>
    let n : Int := (scaled m 2 e).floor
    .ok (if negative then -n else n)

def mul (a b : Double) : Double :=
  let negative := a.isNegative != b.isNegative
  match a, b with
  | nan, _ | _, nan => nan
  | infinite _, _ => if b.isZero then nan else infinite negative
  | _, infinite _ => if a.isZero then nan else infinite negative
  | finite _ m e, finite _ n f => ofMagnitude negative (scaled m 2 e * scaled n 2 f)

def div (a b : Double) : Except Fault Double :=
  let negative := a.isNegative != b.isNegative
  if b.isZero then .error .divisionByZero
  else .ok <| match a, b with
    | nan, _ | _, nan => nan
    | infinite _, infinite _ => nan
    | infinite _, _ => infinite negative
    | _, infinite _ => finite negative 0 minExponent
    | finite _ m e, finite _ n f => ofMagnitude negative (scaled m 2 e / scaled n 2 f)

def add (a b : Double) : Double :=
  match a, b with
  | nan, _ | _, nan => nan
  | infinite s, infinite t => if s = t then infinite s else nan
  | infinite s, _ => infinite s
  | _, infinite t => infinite t
  | finite s m e, finite t n f =>
    let x := if s then -scaled m 2 e else scaled m 2 e
    let y := if t then -scaled n 2 f else scaled n 2 f
    if x + y = 0 then finite (s && t) 0 minExponent else ofRat (x + y)

end Double

end BlockScript
