import BlockScript.Number.Reading
import BlockScript.Value

namespace BlockScript

/-- The kind of value that a block gives or a variable holds. -/
inductive ValueKind where
  | shortNumber
  | number
  | largeNumber
  | decimal
  | text
  | character
  | boolean
  | null
  | undefined
  | missing
deriving DecidableEq, Inhabited

namespace ValueKind

/-- The name in messages. -/
def title : ValueKind → String
  | shortNumber => "Short Number"
  | number => "Number"
  | largeNumber => "Large Number"
  | decimal => "Decimal"
  | text => "Text"
  | character => "Character"
  | boolean => "Boolean"
  | null => "Null"
  | undefined => "Undefined"
  | missing => "ChildBlockMissing"

/-- The literal that a variable of this kind starts with. -/
def initializer : ValueKind → String
  | shortNumber | number | largeNumber | missing => "0"
  | decimal => "0.0"
  | text | character => "''"
  | boolean => "False"
  | null | undefined => "None"

/-- Numeric kinds by width; none for the others. -/
def width? : ValueKind → Option Nat
  | shortNumber => some 0
  | number => some 1
  | largeNumber => some 2
  | decimal => some 3
  | _ => none

def isNumeric (k : ValueKind) : Bool :=
  k.width?.isSome

/-- The wider of two numeric kinds, the first where they are equally wide. -/
def wider (k l : ValueKind) : ValueKind :=
  if k.width?.getD 0 < l.width?.getD 0 then l else k

/-- The widest of the numeric kinds in a list, a plain number where there is none. -/
def widest (kinds : List ValueKind) : ValueKind :=
  match kinds.filter isNumeric with
  | [] => number
  | k :: rest => rest.foldl wider k

/-- The least and the greatest whole number that counts as plain. -/
def plainRange : Int × Int := (-32768, 32767)

/-- Whether a text is a sign and digits. -/
def isWholeNumeral (cs : List Char) : Bool :=
  let digits := (readSign cs).2
  !digits.isEmpty && digits.all Text.isDigit

/-- Whether a text is a numeral and nothing else. -/
def isExactNumeral (cs : List Char) : Bool :=
  match Numeral.read? cs with
  | some (_, []) => true
  | _ => false

def infinityNames : List String := ["inf", "-inf", "infinity", "-infinity"]

/-- The kind of a number as written. -/
def ofNumeral (s : String) : Except Fault ValueKind :=
  let s := Text.trim s
  if isWholeNumeral s.toList then
    match wholeOfText? s with
    | some n => .ok (if plainRange.2 < n ∨ n < plainRange.1 then largeNumber else number)
    | none => .error .invalid
  else if isExactNumeral s.toList || infinityNames.contains (String.ofList (s.toList.map lowercase))
  then .ok decimal
  else .ok undefined

end ValueKind

end BlockScript
