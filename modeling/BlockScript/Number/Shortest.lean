import BlockScript.Number.Double

namespace BlockScript

def decimalLength (n : Nat) : Nat :=
  (Nat.toDigits 10 n).length

/-- The power of ten in a positive rational: `10 ^ e ≤ r < 10 ^ (e + 1)`. -/
def decimalExponent (r : Rat) : Int :=
  if 1 ≤ r then decimalLength r.floor.toNat - 1
  else -(decimalLength ((1 / r).ceil.toNat - 1) : Int)

namespace Double

/-- The numbers that round to `mantissa * 2 ^ exponent`: the bounds, and whether they belong. -/
structure Cell where
  low : Rat
  high : Rat
  closed : Bool

def cell (mantissa : Nat) (exponent : Int) : Cell :=
  let below := if mantissa = Nat.pow 2 (precision - 1) ∧ minExponent < exponent then 1 else 2
  { low := scaled (4 * mantissa - below) 2 (exponent - 2)
    high := scaled (4 * mantissa + 2) 2 (exponent - 2)
    closed := mantissa % 2 = 0 }

def Cell.has (c : Cell) (r : Rat) : Bool :=
  if c.closed then c.low ≤ r && r ≤ c.high else c.low < r && r < c.high

/-- The multiple of `10 ^ e` nearest to `r` that lies in the cell, as its factor; of two equally
near ones the even one. -/
def onGrid? (c : Cell) (r : Rat) (e : Int) : Option Nat :=
  let step := scaled 1 10 e
  let n := (r / step).floor.toNat
  let lower := (n : Rat) * step
  let upper := lower + step
  match c.has lower, c.has upper with
  | true, true =>
    if r - lower < upper - r ∨ (r - lower = upper - r ∧ n % 2 = 0) then some n else some (n + 1)
  | true, false => some n
  | false, true => some (n + 1)
  | false, false => none

/-- The first of the grids `10 ^ e`, `10 ^ (e - 1)`, ... that meets the cell, with the factor. -/
def firstGrid (c : Cell) (r : Rat) : Nat → Int → Nat × Int
  | 0, e => ((r / scaled 1 10 e).floor.toNat, e)
  | k + 1, e =>
    match onGrid? c r e with
    | some n => (n, e)
    | none => firstGrid c r k (e - 1)

/-- Seventeen digits tell all finite numbers apart. -/
def maxDigits : Nat := 17

/-- The fewest decimal digits that read back as a positive finite number, as `n * 10 ^ e`. -/
def shortest (mantissa : Nat) (exponent : Int) : Nat × Int :=
  let r := scaled mantissa 2 exponent
  firstGrid (cell mantissa exponent) r maxDigits (decimalExponent r)

/-- Digits without zeros at the end, and the power of ten of the first one. -/
def digitRow (n : Nat) (e : Int) : List Char × Int :=
  let ds := Nat.toDigits 10 n
  let kept := (ds.reverse.dropWhile (· == '0')).reverse
  (kept, e + ds.length - 1)

/-- The least power of ten that is written without exponent. -/
def positionalFrom : Int := -4

/-- The least power of ten from which on an exponent is written. -/
def scientificFrom : Int := 16

def exponentText (x : Int) : List Char :=
  let ds := Nat.toDigits 10 x.natAbs
  (if x < 0 then '-' else '+') :: (if ds.length < 2 then '0' :: ds else ds)

/-- A row of digits with the point set, the first digit having the power of ten `x`. -/
def layout (ds : List Char) (x : Int) : List Char :=
  if x < positionalFrom ∨ scientificFrom ≤ x then
    let fraction := ds.drop 1
    ds.take 1 ++ (if fraction.isEmpty then [] else '.' :: fraction) ++ 'e' :: exponentText x
  else if x < 0 then
    '0' :: '.' :: (List.replicate ((-x).toNat - 1) '0' ++ ds)
  else
    let k := x.toNat + 1
    let fraction := ds.drop k
    ds.take k ++ List.replicate (k - ds.length) '0' ++ '.' ::
      (if fraction.isEmpty then ['0'] else fraction)

/-- The text of a number: the fewest digits that read back. -/
def text : Double → String
  | nan => "nan"
  | infinite false => "inf"
  | infinite true => "-inf"
  | finite negative m e =>
    let sign := if negative then "-" else ""
    if m = 0 then sign ++ "0.0"
    else
      let (n, p) := shortest m e
      let (ds, x) := digitRow n p
      sign ++ String.ofList (layout ds x)

/-- A number as an expression of the emitted program. -/
def literal (d : Double) : String :=
  match d with
  | nan => "float('nan')"
  | infinite false => "float('inf')"
  | infinite true => "-float('inf')"
  | finite .. =>
    match d.whole? with
    | some n => toString n
    | none => d.text

end Double

end BlockScript
