import BlockScript.Number.Shortest

namespace BlockScript

/-- A whole number of any size or a binary64 number. -/
inductive Number where
  | whole (n : Int)
  | real (d : Double)
deriving DecidableEq, Inhabited

namespace Number

/-- A binary64 number without fraction counts as whole. -/
def ofDouble (d : Double) : Number :=
  match d.whole? with
  | some n => whole n
  | none => real d

def toDouble : Number → Except Fault Double
  | whole n => match Double.ofInt? n with
    | some d => .ok d
    | none => .error .tooLarge
  | real d => .ok d

def isZero : Number → Bool
  | whole n => n == 0
  | real d => d.isZero

def abs : Number → Number
  | whole n => whole n.natAbs
  | real .nan => real .nan
  | real (.infinite _) => real (.infinite false)
  | real (.finite _ m e) => real (.finite false m e)

/-- A number as an expression of the emitted program. -/
def literal : Number → String
  | whole n => toString n
  | real d => d.literal

/-- Whole numbers multiply exactly. -/
def mul : Number → Number → Except Fault Number
  | whole a, whole b => .ok (whole (a * b))
  | a, b => do return real ((← a.toDouble).mul (← b.toDouble))

/-- The quotient, rounded once. -/
def div : Number → Number → Except Fault Double
  | whole a, whole b =>
    if b = 0 then .error .divisionByZero
    else match Double.ofRat ((a : Rat) / (b : Rat)) with
      | .infinite _ => .error .tooLarge
      | d => .ok d
  | a, b => do (← a.toDouble).div (← b.toDouble)

/-- Where a number lies: infinite ones outside all rationals; none for no number. -/
inductive Place where
  | bottom
  | point (r : Rat)
  | top
deriving DecidableEq

def place? : Number → Option Place
  | whole n => some (.point n)
  | real .nan => none
  | real (.infinite true) => some .bottom
  | real (.infinite false) => some .top
  | real d => d.toRat?.map .point

def Place.lt : Place → Place → Bool
  | .bottom, .bottom => false
  | .bottom, _ => true
  | .point _, .bottom => false
  | .point r, .point s => r < s
  | .point _, .top => true
  | .top, _ => false

/-- Exact comparison of values. What is no number is less than nothing. -/
def lt (a b : Number) : Bool :=
  match a.place?, b.place? with
  | some p, some q => p.lt q
  | _, _ => false

def le (a b : Number) : Bool :=
  match a.place?, b.place? with
  | some p, some q => !q.lt p
  | _, _ => false

/-- The same value, whatever the form. -/
def same (a b : Number) : Bool :=
  match a.place?, b.place? with
  | some p, some q => p == q
  | none, none => true
  | _, _ => false

end Number

end BlockScript
