import BlockScript.Number.Basic
import BlockScript.Number.Reading
import BlockScript.Text.Lines
import BlockScript.Text.Literal

namespace BlockScript

/-- What a field or a shape datum of a block holds. What is no number is marked, because each one
that is given is the same as itself only. -/
inductive Value where
  | null
  | bool (b : Bool)
  | int (n : Int)
  | real (d : Double)
  | nan (mark : Nat)
  | text (s : String)
  | list (items : List Value)
deriving Inhabited

namespace Value

mutual

/-- A value as messages show it. -/
def display : Value → String
  | null => "None"
  | bool true => "True"
  | bool false => "False"
  | int n => toString n
  | real d => d.text
  | nan _ => Double.nan.text
  | text s => Text.display s
  | list items => "[" ++ displayItems items ++ "]"

def displayItems : List Value → String
  | [] => ""
  | [v] => display v
  | v :: w :: rest => display v ++ ", " ++ displayItems (w :: rest)

end

/-- A value as part of the emitted text; a text stands for itself. -/
def toText : Value → String
  | text s => s
  | v => v.display

/-- Nothing, false, zero and what is empty count as not given. -/
def isGiven : Value → Bool
  | null => false
  | bool b => b
  | int n => n != 0
  | real d => !d.isZero
  | nan _ => true
  | text s => !s.isEmpty
  | list items => !items.isEmpty

/-- Truth values are the numbers zero and one. -/
def number? : Value → Option Number
  | bool b => some (.whole (if b then 1 else 0))
  | int n => some (.whole n)
  | real d => some (.real d)
  | nan _ => some (.real .nan)
  | null | text _ | list _ => none

mutual

/-- Numbers are the same by value, whatever their form; a number and a text never are. -/
def same : Value → Value → Bool
  | null, null => true
  | text s, text t => s == t
  | list items, list others => sameItems items others
  | nan i, nan j => i == j
  | nan _, _ => false
  | _, nan _ => false
  | v, w => match v.number?, w.number? with
    | some a, some b => a.same b
    | _, _ => false

def sameItems : List Value → List Value → Bool
  | [], [] => true
  | v :: vs, w :: ws => same v w && sameItems vs ws
  | _, _ => false

end

instance : BEq Value := ⟨same⟩

/-- Lists are no keys of a table. -/
def isKey : Value → Bool
  | list _ => false
  | _ => true

def toDouble : Value → Except Fault Double
  | bool b => .ok (.ofRat (if b then 1 else 0))
  | int n => Number.toDouble (.whole n)
  | real d => .ok d
  | nan _ => .ok .nan
  | text s => match Double.ofText? s with
    | some d => .ok d
    | none => .error .invalid
  | null | list _ => .error .unsuitable

/-- The binary64 number of a value, as a whole number where it has no fraction. -/
def toNumber (v : Value) : Except Fault Number := do
  return Number.ofDouble (← v.toDouble)

def toWhole : Value → Except Fault Int
  | bool b => .ok (if b then 1 else 0)
  | int n => .ok n
  | real d => d.truncate
  | nan _ => Double.nan.truncate
  | text s => match wholeOfText? s with
    | some n => .ok n
    | none => .error .invalid
  | null | list _ => .error .unsuitable

/-- The members of a list, the characters of a text. -/
def toList : Value → Except Fault (List Value)
  | list items => .ok items
  | text s => .ok (s.toList.map fun c => text (String.singleton c))
  | _ => .error .unsuitable

/-- The members of a list of texts, the characters of a text. -/
def toTexts (v : Value) : Except Fault (List String) := do
  (← v.toList).mapM fun
    | text s => .ok s
    | _ => .error .unsuitable

/-- A value with `mark` in front of each line. What is not given has no line. -/
def marked (mark v : Value) : Except Fault Value :=
  if !v.isGiven then .ok v
  else match mark, v with
    | text m, text s => .ok (text (Text.markLines m s))
    | _, _ => .error .unsuitable

/-- A finite number or a numeral of one; a truth value is neither. -/
def isNumber : Value → Except Fault Bool
  | int n => do
    let d ← Number.toDouble (.whole n)
    return d.isFinite
  | real d => .ok d.isFinite
  | text s =>
    if isNumeral s then do
      let d ← (text s).toDouble
      return d.isFinite
    else .ok false
  | null | bool _ | nan _ | list _ => .ok false

/-- A value as an expression of the emitted program. -/
def literal : Value → String
  | real d => d.literal
  | nan _ => Double.nan.literal
  | v => v.display

end Value

end BlockScript
