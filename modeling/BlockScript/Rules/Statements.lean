import BlockScript.Rules.Values

namespace BlockScript.Scene

variable {n : Nat}

def variableSet (s : Scene n) : Run Output := do
  let value ← s.value "VALUE" .none "0"
  return .statement ((← s.variableOf "x") ++ " = " ++ value ++ "\n")

def change (s : Scene n) : Run Output := do
  let delta ← s.value "DELTA" .none "0"
  return .statement ((← s.variableOf "x") ++ " += " ++ delta ++ "\n")

/-- A pause, by the function that waits and the slot with the time. -/
def delay (s : Scene n) (function slot : String) : Run Output := do
  let time ← s.value slot .none "0"
  let _ ← Run.importModule "time"
  return .statement ("time." ++ function ++ "(" ++ time ++ ")\n")

/-- Stops for ever. -/
def halt (s : Scene n) : Run Output :=
  return .statement ("while True:\n" ++ s.settings.emptyLine)

def flow (s : Scene n) : Run Output := do
  return .statement (← s.compared "FLOW" "BREAK" [("BREAK", "break\n"), ("CONTINUE", "continue\n")])

/-- The conditions of a chain of branches have the numbers from zero on; each after the first
needs its slot. -/
def branchNumbers (s : Scene n) : List Nat :=
  (List.range (s.block.slots.length + 1)).takeWhile fun k =>
    k == 0 || (s.block.slot? ("IF" ++ toString k)).isSome

def branch (s : Scene n) (k : Nat) : Run String := do
  let condition ← s.value ("IF" ++ toString k) .none "False"
  let body ← s.suite ("DO" ++ toString k)
  return (if k = 0 then "if " else "elif ") ++ condition ++ ":\n" ++ s.orEmptySuite body

def conditional (s : Scene n) (alwaysElse : Bool) : Run Output := do
  let branches ← s.branchNumbers.mapM s.branch
  let code := Text.joined "" branches
  if alwaysElse || (s.block.slot? "ELSE").isSome then
    return .statement (code ++ "else:\n" ++ s.orEmptySuite (← s.suite "ELSE"))
  else return .statement code

/-- The text of a whole number of repetitions. -/
def repetitionCount (times : String) : Except Fault String := do
  if ← (Value.text times).isNumber then
    let d ← (Value.text times).toDouble
    return toString (← d.truncate)
  else return "int(" ++ times ++ ")"

/-- The body, so many times. -/
def repeated (s : Scene n) (times : String) : Run Output :=
  match repetitionCount times with
  | .error f => throw f
  | .ok count => do
    let counter ← Run.distinctName "count"
    let body ← s.loopBody
    return .statement ("for " ++ counter ++ " in range(" ++ count ++ "):\n" ++ body)

def repetition (s : Scene n) : Run Output := do
  let times ← match s.block.field? "TIMES" with
    | some v => pure v.toText
    | none => s.value "TIMES" .none "0"
  s.repeated times

def whileUntil (s : Scene n) : Run Output := do
  let untilTrue ← s.compared "MODE" "WHILE" [("WHILE", false), ("UNTIL", true)]
  let condition ← s.value "BOOL" (if untilTrue then .logicalNot else .none) "False"
  let body ← s.loopBody
  return .statement ("while " ++ (if untilTrue then "not " else "") ++ condition ++ ":\n" ++ body)

def forEach (s : Scene n) : Run Output := do
  let name ← s.variableOf "item"
  let sequence ← s.value "LIST" .relational "[]"
  let body ← s.loopBody
  return .statement ("for " ++ name ++ " in " ++ sequence ++ ":\n" ++ body)

/-- The tag of the branch that runs once. -/
def userSetupTag : String := "userSetupCode"

/-- The branch that runs once goes to the setup section, the other one runs for ever. -/
def entry (s : Scene n) : Run Output := do
  let once ← s.lines "SETUP_FUNC"
  if !once.isEmpty then
    let _ ← Run.addSetup userSetupTag once
  let always ← s.suite "LOOP_FUNC"
  return .statement ("while True:\n" ++ s.orEmptySuite always)

end BlockScript.Scene
