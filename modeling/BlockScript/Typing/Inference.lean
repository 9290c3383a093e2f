import BlockScript.Typing.Value
import BlockScript.Warnings

namespace BlockScript

/-- The slots that an assignment takes its kind from. -/
def assignmentSlots : BlockKind → List String
  | .variableSet => ["VALUE"]
  | .counting => ["FROM", "TO", "BY"]
  | _ => []

/-- What an assignment means for a variable. -/
inductive Fit where
  | unknown
  | fits (kind : ValueKind)
  | conflicts (established : ValueKind)
deriving DecidableEq

/-- Numeric kinds widen; otherwise the first kind counts. -/
def fit (established : Option ValueKind) (assigned : ValueKind) : Fit :=
  if assigned = .undefined then .unknown
  else match established with
    | none => .fits assigned
    | some kind =>
      if kind.isNumeric && assigned.isNumeric then .fits (ValueKind.widest [kind, assigned])
      else if assigned = kind then .fits kind
      else .conflicts kind

def typeTag : String := "variable_type"

def conflictText (name : Value) (established assigned : ValueKind) : String :=
  "Variable '" ++ name.toText ++ "' is used as " ++ established.title ++
    " but is assigned a " ++ assigned.title ++ " here."

/-- What inference found so far. -/
structure Inference where
  kinds : VariableKinds := {}
  events : List WarningEvent := []
  log : List LogRecord := []

namespace TypingScope

variable {n : Nat}

/-- The kind that an assignment gives its variable. -/
def assignedKind (s : TypingScope n) (held : VariableKinds) (i : Fin n) :
    Except Fault ValueKind :=
  let b := s.diagram.block i
  match b.kind? with
  | some .variableSet => s.valueKind held (b.child? "VALUE")
  | some .counting => do
    let kinds ← (assignmentSlots .counting).mapM fun name => s.valueKind held (b.child? name)
    return ValueKind.widest kinds
  | some .change => .ok .number
  | _ => .ok .undefined

/-- Takes the assignments of one variable into account, in order. -/
def inferFrom (s : TypingScope n) (name : Value) :
    List (Fin n) → Option ValueKind → Inference → Except Fault Inference
  | [], established, found =>
    .ok { found with kinds := found.kinds.put name (established.getD .undefined) }
  | i :: rest, established, found => do
    let assigned ← s.assignedKind found.kinds i
    let id := (s.diagram.block i).id
    match fit established assigned with
    | .unknown => s.inferFrom name rest established found
    | .fits kind =>
      s.inferFrom name rest (some kind)
        { found with events := found.events ++ [⟨id, typeTag, none⟩] }
    | .conflicts kind =>
      let text := conflictText name kind assigned
      s.inferFrom name rest (some kind)
        { found with
          events := found.events ++ [⟨id, typeTag, some text⟩]
          log := found.log ++ [.warning text] }

/-- Infers the kind of one variable. A list is none. -/
def inferVariable (s : TypingScope n) (assigned : Ledger Value (List (Fin n))) (name : Value)
    (found : Inference) : Except Fault Inference :=
  if name.isKey then s.inferFrom name ((assigned.get? name).getD []) none found
  else .error .unsuitable

end TypingScope

/-- Whether a variable depends on none of those that are left. -/
def isReady (sources : Value → List Value) (left : List Value) (v : Value) : Bool :=
  (sources v).all fun u => !left.contains u

/-- Takes the first variable that depends on none of the others that are left, `count` times. None
if there is no such variable. -/
def takeReady? (sources : Value → List Value) : Nat → List Value → Option (List Value)
  | 0, _ => some []
  | count + 1, left => do
    let v ← left.find? (isReady sources left)
    let rest ← takeReady? sources count (left.erase v)
    return v :: rest

/-- The variables so that each comes after those it depends on, earlier ones first. None if they
depend on each other in a circle. -/
def resolutionOrder? (sources : Value → List Value) (names : List Value) : Option (List Value) :=
  takeReady? sources names.length names

namespace Workspace

variable {n : Nat}

/-- The assignments to each variable, in order. -/
def assignments (w : Workspace n) : Except Fault (Ledger Value (List (Fin n))) :=
  w.allBlocks.foldlM (fun found i =>
    let b := w.block i
    if (b.kind?.map BlockKind.assigns).getD false then
      match b.namedVariable? with
      | some name =>
        if name.isKey then .ok (found.put name ((found.get? name).getD [] ++ [i]))
        else .error .unsuitable
      | none => .ok found
    else .ok found) {}

/-- The blocks inside the values of an assignment. -/
def assignedValues (w : Workspace n) (i : Fin n) : List (Fin n) :=
  let b := w.block i
  match b.kind? with
  | some kind => (assignmentSlots kind).flatMap fun name =>
      (b.child? name).toList.flatMap w.diagram.descendants
  | none => []

/-- The variable that a block reads. -/
def readVariable? (w : Workspace n) (i : Fin n) : Option Value :=
  match (w.block i).kind? with
  | some .variableGet => (w.block i).namedVariable?
  | _ => none

/-- The other variables that a variable is assigned from. -/
def sourcesOf (w : Workspace n) (assigned : Ledger Value (List (Fin n))) (name : Value) :
    List Value :=
  (((assigned.get? name).getD []).flatMap w.assignedValues).filterMap fun i =>
    (w.readVariable? i).filter fun source => !(source == name)

/-- An attribute of a declaration is a pair with a key. -/
def checkAttribute (pair : Value) : Except Fault Unit := do
  match ← pair.toList with
  | [key, _] => if key.isKey then .ok () else .error .unsuitable
  | _ => .error .invalid

/-- The variable that a name declares. A list declares the first of a pair, with the second as its
attributes. Nothing is no variable. -/
def declared : Value → Except Fault Value
  | .null => .error .invalid
  | .list [name, attributes] => do
    if !name.isKey then throw .unsuitable
    (← attributes.toList).forM checkAttribute
    if name == .null then throw .invalid
    return name
  | .list _ => .error .invalid
  | name => .ok name

/-- Checks that variables can be brought into an order: what a name declares is in use itself, and
no variable is assigned from a list. -/
def checkVariables (names : List Value) (sources : Ledger Value (List Value)) : Except Fault Unit := do
  let declarations ← names.mapM declared
  if sources.values.flatten.any fun source => !source.isKey then throw .unsuitable
  if declarations.any fun name => !names.contains name then throw .invalid

/-- What inference finds, and the scope in which it finds it. -/
structure Typed (n : Nat) where
  scope : TypingScope n
  found : Inference

/-- Infers one kind for each variable. A variable is typed after those that it is assigned from,
unless they depend on each other in a circle. -/
def infer (w : Workspace n) : Except Fault (Typed n) := do
  let procedures ← w.procedures
  let scope : TypingScope n := ⟨w.diagram, procedures.definitions⟩
  let assigned ← w.assignments
  let names ← w.allVariables
  let sources : Ledger Value (List Value) := ⟨names.map fun name => (name, w.sourcesOf assigned name)⟩
  checkVariables names sources
  let keys := names.filter Value.isKey
  let (order, orderLog) := match resolutionOrder? (fun name => (sources.get? name).getD []) keys with
    | some order => (order, [])
    | none => (names, [LogRecord.debug "Circular variable assignments, typing in workspace order"])
  let found ← order.foldlM
    (fun found name => scope.inferVariable assigned name found)
    { log := procedures.log ++ orderLog }
  if names.any fun name => !name.isKey then throw .unsuitable
  let kinds := names.map fun name => (name, (found.kinds.get? name).getD .undefined)
  return ⟨scope, { found with kinds := ⟨kinds⟩ }⟩

end Workspace

end BlockScript
