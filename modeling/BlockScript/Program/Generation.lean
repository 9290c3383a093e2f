import BlockScript.Program.Assembly
import BlockScript.Emission.Job
import BlockScript.Workspace.Forest

namespace BlockScript

/-- Writes programs: how, and by which rules. -/
structure Generator where
  settings : Settings := {}
  rules : RuleBook := {}

/-- A program with what was found on the way. -/
structure Generated where
  code : String
  events : List WarningEvent
  kinds : VariableKinds
  log : List LogRecord

namespace Generator

variable {n : Nat}

def job (g : Generator) (w : Workspace n) : Job n :=
  ⟨w.diagram, g.settings, g.rules⟩

/-- Names a variable and gives it the first value of its kind. -/
def declareVariable (name : Value) (kind : ValueKind) : Run Unit := do
  let identifier ← Run.variableName name
  let _ ← Run.addVariable name (identifier ++ " = " ++ kind.initializer)

def openingLog (w : Workspace n) : LogRecord :=
  .info ("Generating MicroPython for " ++ toString w.tops.length ++ " top blocks")

/-- Opens a session: checks the drawing, infers the kinds of the variables and declares them. -/
def start (g : Generator) (w : Workspace n) : Except Fault Session := do
  let _ ← w.validate
  let typed ← w.infer
  let session : Session := {
    names := { reserved := g.settings.reserved }
    events := typed.found.events
    kinds := typed.found.kinds
    log := openingLog w :: typed.found.log }
  match (typed.found.kinds.entries.forM fun (name, kind) => declareVariable name kind).run session with
  | (.ok _, session) => return session
  | (.error f, _) => throw f

/-- The lines of all top blocks. -/
def body (g : Generator) (w : Workspace n) : Run String :=
  (g.job w).body w.orderedTops

/-- The whole program of a drawing. -/
def generate (g : Generator) (w : Workspace n) : Except Fault Generated := do
  let session ← g.start w
  match (g.body w).run session with
  | (.error f, _) => throw f
  | (.ok lines, session) =>
    match (Run.assemble g.settings lines).run session with
    | (.error f, _) => throw f
    | (.ok code, final) => return ⟨code, session.events, session.kinds, final.log⟩

end Generator

end BlockScript
