import BlockScript.Rules.Statements

namespace BlockScript.Scene

variable {n : Nat}

def procedureOf (s : Scene n) : Run String :=
  Run.procedureName (s.block.fieldD "NAME" (.text "procedure"))

def arguments (s : Scene n) : Run (List Value) :=
  match s.block.arguments with
  | .ok names => return names
  | .error f => throw f

/-- The argument names as keys. -/
def argumentKeys (s : Scene n) : Run (List Value) := do
  let names ← s.arguments
  if names.all Value.isKey then return names else throw .unsuitable

/-- The variable that an enabled block of the body assigns. -/
def assigned? (s : Scene n) (i : Fin n) : Option Value :=
  let b := s.job.diagram.block i
  if (b.kind?.map BlockKind.assigns).getD false && !b.disabled then b.namedVariable? else none

/-- Adds the identifier of an assigned variable that is no argument. -/
def addAssigned (arguments : List Value) (found : List String) (name : Value) :
    Run (List String) := do
  if !name.isKey then throw .unsuitable
  if arguments.contains name then return found
  let identifier ← Run.variableName name
  return if found.contains identifier then found else found ++ [identifier]

/-- The variables of the program that the body assigns. -/
def assignedGlobals (s : Scene n) : Run (List String) := do
  match s.block.child? "STACK" with
  | none => return []
  | some body =>
    let arguments ← s.argumentKeys
    ((s.job.diagram.descendants body).filterMap s.assigned?).foldlM (addAssigned arguments) []

/-- The lines that the settings put in front of a body. -/
def bodyMarks (s : Scene n) : String :=
  s.injected s.settings.loopMark? ++ s.injected s.settings.statementMark?

/-- A definition goes to the functions, and nothing is written in its place. -/
def procedure (s : Scene n) : Run Output := do
  let name ← s.procedureOf
  let body := s.bodyMarks ++ (← s.suite "STACK")
  let result ← s.value "RETURN" .none ""
  let returnLine := if result.isEmpty then "" else s.settings.indent ++ "return " ++ result ++ "\n"
  let body := if result.isEmpty then s.orEmptySuite body else body
  let globals ← s.assignedGlobals
  let globalLine := if globals.isEmpty then "" else
    s.settings.indent ++ "global " ++ Text.joined ", " globals ++ "\n"
  let parameters ← (← s.arguments).mapM Run.variableName
  let code := "def " ++ name ++ "(" ++ Text.joined ", " parameters ++ "):\n" ++ globalLine ++ body ++
    returnLine
  Run.addProcedure name (← s.placed code)
  return .nothing

/-- A call with its arguments. -/
def call (s : Scene n) : Run String := do
  let name ← s.procedureOf
  let arguments ← s.arguments
  let given ← (List.range arguments.length).mapM fun k => s.value ("ARG" ++ toString k) .none "None"
  return name ++ "(" ++ Text.joined ", " given ++ ")"

def callValue (s : Scene n) : Run Output := do
  return Output.call (← s.call)

def callLine (s : Scene n) : Run Output := do
  return .statement ((← s.call) ++ "\n")

def returnIf (s : Scene n) : Run Output := do
  let condition ← s.value "CONDITION" .none "False"
  let result ← if s.block.returnsValue then do
      pure (" " ++ (← s.value "VALUE" .none "None"))
    else pure ""
  return .statement ("if " ++ condition ++ ":\n" ++ s.settings.indent ++ "return" ++ result ++ "\n")

end BlockScript.Scene
