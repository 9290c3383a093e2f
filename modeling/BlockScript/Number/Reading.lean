import BlockScript.Number.Double
import BlockScript.Text.Blank
import BlockScript.Text.Digit

namespace BlockScript

open Text

/-- A decimal number as written: `± digits * 10 ^ exponent`. -/
structure Numeral where
  negative : Bool
  digits : List Char
  exponent : Int

def readSign : List Char → Bool × List Char
  | '-' :: cs => (true, cs)
  | '+' :: cs => (false, cs)
  | cs => (false, cs)

def signedValue (negative : Bool) (digits : List Char) : Int :=
  if negative then -(digitsValue digits : Int) else digitsValue digits

/-- An exponent part, if a complete one follows. -/
def readExponent (cs : List Char) : Int × List Char :=
  match cs with
  | 'e' :: rest | 'E' :: rest =>
    let (negative, rest) := readSign rest
    let digits := rest.takeWhile isDigit
    if digits.isEmpty then (0, cs) else (signedValue negative digits, rest.dropWhile isDigit)
  | _ => (0, cs)

namespace Numeral

/-- Digits with an optional point, at least one digit, and an optional exponent; what follows is
left over. -/
def read? (cs : List Char) : Option (Numeral × List Char) :=
  let (negative, cs) := readSign cs
  let whole := cs.takeWhile isDigit
  let (fraction, rest) := match cs.dropWhile isDigit with
    | '.' :: rest =>
      if whole.isEmpty && (rest.takeWhile isDigit).isEmpty then ([], '.' :: rest)
      else (rest.takeWhile isDigit, rest.dropWhile isDigit)
    | rest => ([], rest)
  if whole.isEmpty && fraction.isEmpty then none
  else
    let (exponent, rest) := readExponent rest
    some (⟨negative, whole ++ fraction, exponent - fraction.length⟩, rest)

/-- Powers of ten from here on are beyond the range of a binary64 number. -/
def overflowFrom : Int := 310

/-- What lies below this power of ten is nearer to zero than to any other binary64 number. -/
def underflowBelow : Int := -330

def toDouble (a : Numeral) : Double :=
  let n := digitsValue a.digits
  let top := a.exponent + (a.digits.dropWhile (digitValue? · == some 0)).length
  if n = 0 then .finite a.negative 0 Double.minExponent
  else if overflowFrom < top then .infinite a.negative
  else if top < underflowBelow then .finite a.negative 0 Double.minExponent
  else Double.ofMagnitude a.negative (scaled n 10 a.exponent)

end Numeral

/-- A numeral and nothing else, white space around it apart. -/
def isNumeral (s : String) : Bool :=
  match Numeral.read? (s.toList.dropWhile isBlank) with
  | some (_, rest) => rest.all isBlank
  | none => false

def dropNumberBlanks (s : String) : List Char :=
  ((s.toList.dropWhile isNumberBlank).reverse.dropWhile isNumberBlank).reverse

/-- Drops single underscores between two digits; any other underscore is a mistake. The flag says
whether a digit came before. -/
def dropSeparators? : Bool → List Char → Option (List Char)
  | _, [] => some []
  | after, '_' :: cs =>
    if after && (cs.head?.any isDigit) then dropSeparators? false cs else none
  | _, c :: cs => (dropSeparators? (isDigit c) cs).map (c :: ·)

def lowercase (c : Char) : Char :=
  if 'A' ≤ c ∧ c ≤ 'Z' then Char.ofNat (c.toNat + 32) else c

/-- Infinity or no number at all, by name. -/
def namedDouble? (cs : List Char) : Option Double :=
  let (negative, cs) := readSign cs
  match String.ofList (cs.map lowercase) with
  | "inf" | "infinity" => some (.infinite negative)
  | "nan" => some .nan
  | _ => none

/-- Reads a binary64 number, correctly rounded. -/
def Double.ofText? (s : String) : Option Double :=
  match dropSeparators? false (dropNumberBlanks s) with
  | none => none
  | some cs =>
    match Numeral.read? cs with
    | some (a, []) => some a.toDouble
    | _ => namedDouble? cs

/-- Longer whole numbers are not read. -/
def maxWholeDigits : Nat := 4300

/-- Reads a whole number: a sign and digits. -/
def wholeOfText? (s : String) : Option Int :=
  let (negative, cs) := readSign (dropNumberBlanks s)
  match dropSeparators? false cs with
  | none => none
  | some digits =>
    if digits.isEmpty || !digits.all isDigit || maxWholeDigits < digits.length then none
    else some (signedValue negative digits)

end BlockScript
