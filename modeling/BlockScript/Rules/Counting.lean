import BlockScript.Rules.Statements
import BlockScript.Text.Word

namespace BlockScript

/-- A bound of a counting loop: a number that is known, or an expression. -/
inductive Bound where
  | known (x : Number)
  | dynamic (code : String)
deriving DecidableEq, Inhabited

def Bound.code : Bound → String
  | known x => x.literal
  | dynamic code => code

/-- The arguments of a range over whole numbers that ends with `last`. -/
def rangeArguments (first last : Int) (step : Nat) : String :=
  if first ≤ last then
    (if first = 0 ∧ step = 1 then toString (last + 1)
      else toString first ++ ", " ++ toString (last + 1)) ++
    (if step = 1 then "" else ", " ++ toString step)
  else toString first ++ ", " ++ toString (last - 1) ++ ", -" ++ toString step

namespace Scene

variable {n : Nat}

/-- The function that counts from one known number to another. -/
def directedRange (s : Scene n) (first last : Number) : Run String :=
  if first.lt last then s.function .upRange else s.function .downRange

/-- The sequence between known bounds. -/
def knownSequence (s : Scene n) (first last step : Number) : Run String := do
  match first, last, step.abs with
  | .whole a, .whole b, .whole c => return "range(" ++ rangeArguments a b c.natAbs ++ ")"
  | _, _, size =>
    let function ← s.directedRange first last
    return function ++ "(" ++ first.literal ++ ", " ++ last.literal ++ ", " ++ size.literal ++ ")"

/-- The bound that an expression stands for, and the lines that keep its value. An expression that
is more than a name is evaluated once. -/
def keepBound (name suffix code : String) : Run (Bound × String) := do
  match (Value.text code).isNumber with
  | .error f => throw f
  | .ok true =>
    match (Value.text code).toNumber with
    | .error f => throw f
    | .ok x => return (.known x, "")
  | .ok false =>
    if Text.isWord code then return (.dynamic ("float(" ++ code ++ ")"), "")
    else
      let kept ← Run.distinctName (name ++ suffix)
      return (.dynamic kept, kept ++ " = float(" ++ code ++ ")\n")

/-- The sequence between bounds of which some may be known at run time only. -/
def boundSequence (s : Scene n) (first last step : Bound) : Run String := do
  let arguments := "(" ++ first.code ++ ", " ++ last.code ++ ", " ++ step.code ++ ")"
  match first, last with
  | .known a, .known b => return (← s.directedRange a b) ++ arguments
  | _, _ =>
    let up ← s.function .upRange
    let down ← s.function .downRange
    return "(" ++ up ++ " if " ++ first.code ++ " <= " ++ last.code ++ " else " ++ down ++ ")" ++
      arguments

/-- Three numbers, if all three texts are numerals. -/
def knownBounds? (first last step : String) : Except Fault (Option (Number × Number × Number)) := do
  if !(← (Value.text first).isNumber) then return none
  if !(← (Value.text last).isNumber) then return none
  if !(← (Value.text step).isNumber) then return none
  let a ← (Value.text first).toNumber
  let b ← (Value.text last).toNumber
  let c ← (Value.text step).toNumber
  return some (a, b, c)

def counting (s : Scene n) : Run Output := do
  let name ← s.variableOf "i"
  let first ← s.value "FROM" .none "0"
  let last ← s.value "TO" .none "0"
  let step ← s.value "BY" .none "1"
  let body ← s.loopBody
  let loop (sequence : String) := "for " ++ name ++ " in " ++ sequence ++ ":\n" ++ body
  match knownBounds? first last step with
  | .error f => throw f
  | .ok (some (a, b, c)) => return .statement (loop (← s.knownSequence a b c))
  | .ok none =>
    let (a, keptA) ← keepBound name "_start" first
    let (b, keptB) ← keepBound name "_end" last
    let (c, keptC) ← keepBound name "_inc" step
    return .statement (keptA ++ keptB ++ keptC ++ loop (← s.boundSequence a b c))

end Scene

end BlockScript
