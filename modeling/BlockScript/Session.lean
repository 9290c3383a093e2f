import BlockScript.Pins
import BlockScript.Functions
import BlockScript.Settings
import BlockScript.Typing.Inference

namespace BlockScript

/-- The parts of a program that collect tagged fragments. -/
inductive Section where
  | imports
  | declarations
  | globals
  | setups
deriving DecidableEq, Inhabited

def Section.name : Section → String
  | .imports => "imports"
  | .declarations => "declarations"
  | .globals => "variables"
  | .setups => "setups"

/-- The state of one run. -/
structure Session where
  isOpen : Bool := true
  names : Names := {}
  imports : Fragments Value := {}
  declarations : Fragments Value := {}
  globals : Fragments Value := {}
  setups : Fragments Value := {}
  functions : Functions := {}
  pins : Pins := {}
  events : List WarningEvent := []
  kinds : VariableKinds := {}
  log : List LogRecord := []

namespace Session

def fragments (s : Session) : Section → Fragments Value
  | .imports => s.imports
  | .declarations => s.declarations
  | .globals => s.globals
  | .setups => s.setups

def setFragments (s : Session) (r : Fragments Value) : Section → Session
  | .imports => { s with imports := r }
  | .declarations => { s with declarations := r }
  | .globals => { s with globals := r }
  | .setups => { s with setups := r }

def record (s : Session) (r : LogRecord) : Session :=
  { s with log := s.log ++ [r] }

/-- Forgets all but the events, the kinds and the log. -/
def close (s : Session) : Session :=
  { isOpen := false, names := s.names.reset, events := s.events, kinds := s.kinds, log := s.log }

end Session

/-- A step of a run. What a step changed before it failed stays changed. -/
abbrev Run := ExceptT Fault (StateM Session)

namespace Run

variable {α β : Type}

@[simp] theorem run_pure (a : α) (s : Session) : (pure a : Run α).run s = (.ok a, s) := rfl

@[simp] theorem run_throw (f : Fault) (s : Session) : (throw f : Run α).run s = (.error f, s) := rfl

@[simp] theorem run_get (s : Session) : (get : Run Session).run s = (.ok s, s) := rfl

@[simp] theorem run_set (s t : Session) : (set t : Run PUnit).run s = (.ok ⟨⟩, t) := rfl

/-- A step goes on where the one before it ended, unless that one failed. -/
theorem run_bind (r : Run α) (next : α → Run β) (s : Session) :
    (r >>= next).run s = match r.run s with
      | (.ok a, t) => (next a).run t
      | (.error f, t) => (.error f, t) := by
  simp only [ExceptT.run, bind, ExceptT.bind, ExceptT.mk, StateT.bind]
  cases r s with
  | mk result t => cases result <;> rfl

def record (r : LogRecord) : Run Unit :=
  modify (·.record r)

def checkOpen : Run Unit := do
  if (← get).isOpen then return else throw .finalized

/-- Stores a fragment and says whether anything changed. -/
def addFragment (part : Section) (tag : Value) (code : String) (overwrite : Bool) : Run Bool := do
  checkOpen
  let s ← get
  let (changed, r) := (s.fragments part).add tag code overwrite
  set (s.setFragments r part)
  if changed then record (.debug (part.name ++ "[" ++ tag.toText ++ "] set"))
  return changed

def addImport (tag code : String) : Run Bool :=
  addFragment .imports (.text tag) code false

/-- Takes a name from a module. -/
def importFrom (source name : String) : Run Bool :=
  addImport (source ++ "." ++ name) ("from " ++ source ++ " import " ++ name)

def importModule (source : String) : Run Bool :=
  addImport source ("import " ++ source)

def declare (tag code : String) (overwrite : Bool := false) : Run Bool :=
  addFragment .declarations (.text tag) code overwrite

def addVariable (name : Value) (code : String) (overwrite : Bool := false) : Run Bool :=
  addFragment .globals name code overwrite

def addSetup (tag code : String) (overwrite : Bool := false) : Run Bool :=
  addFragment .setups (.text tag) code overwrite

/-- The identifier of a logical name, new on first use. -/
def identifier (realm : Realm) (name : Value) : Run String := do
  let label : Label := ⟨realm, name⟩
  let s ← get
  match s.names.get label with
  | .error f => throw f
  | .ok (found, names) =>
    set { s with names }
    if (s.names.find? label).isNone then
      record (.debug ("Allocated " ++ realm.name ++ " name " ++ name.display ++ " -> " ++
        Text.display found))
    return found

def distinctRecord (realm : Realm) (name : Value) (new : String) : LogRecord :=
  .debug ("Allocated distinct " ++ realm.name ++ " name " ++ name.display ++ " -> " ++
    Text.display new)

/-- A new identifier on every call. -/
def distinctIdentifier (realm : Realm) (name : Value) : Run String := do
  let s ← get
  let (new, names) := s.names.allocate ⟨realm, name⟩
  set { s with names }
  record (distinctRecord realm name new)
  return new

def variableName (name : Value) : Run String := identifier .variable name

def procedureName (name : Value) : Run String := identifier .procedure name

/-- The identifier of something that the program needs by itself, such as a pin. -/
def generatedName (name : String) : Run String := identifier .generated (.text name)

def distinctName (name : String) : Run String := distinctIdentifier .generated (.text name)

/-- Defines a function on first use and gives its identifier. -/
def provide (preferred text : String) : Run String := do
  checkOpen
  let s ← get
  let isNew := (s.functions.identifier? preferred).isNone
  let isDefined := s.functions.texts.contains preferred
  let (name, functions, names) := s.functions.provide s.names preferred text
  set { s with functions, names }
  if isNew then record (distinctRecord .generated (.text preferred) name)
  if !isDefined then record (.debug ("functions[" ++ preferred ++ "] set"))
  return name

def addProcedure (name code : String) : Run Unit := do
  checkOpen
  modify fun s => { s with functions := s.functions.addProcedure name code }

/-- Sets a warning at a block, or clears it. -/
def warn (blockId tag : String) (text : Option String) : Run Unit :=
  modify fun s => { s with events := s.events ++ [⟨blockId, tag, text⟩] }

/-- Claims a pin for a block and says whether it has another task already. -/
def claimPin (blockId : String) (pin : Value) (task : PinTask) (tag : String) : Run Bool := do
  let s ← get
  let (earlier, pins) := s.pins.claim pin task
  set { s with pins }
  match earlier with
  | some earlier =>
    let text := Pins.conflictText pin tag task earlier
    record (.warning text)
    warn blockId tag (some text)
    return true
  | none =>
    warn blockId tag none
    return false

def close : Run Unit :=
  modify Session.close

end Run

end BlockScript
