import BlockScript.Expression.Output
import BlockScript.Session

namespace BlockScript

/-- What a rule given from outside always gives: an output, or by name something that is none. -/
inductive FixedRule where
  | gives (output : Output)
  | malformed (found : String)
deriving Inhabited

/-- How a block is written out. -/
inductive Rule where
  | standard (kind : BlockKind)
  | fixed (rule : FixedRule)

/-- The rules by block type: those given from outside, before those of the known kinds. -/
structure RuleBook where
  standard : Bool := true
  given : Ledger String FixedRule := {}

namespace RuleBook

def rule? (book : RuleBook) (type : String) : Option Rule :=
  match book.given.get? type with
  | some r => some (.fixed r)
  | none => if book.standard then (BlockKind.ofType? type).map .standard else none

def register (book : RuleBook) (type : String) (rule : FixedRule) : RuleBook :=
  { book with given := book.given.put type rule }

end RuleBook

/-- What stays the same during a run. -/
structure Job (n : Nat) where
  diagram : Diagram n
  settings : Settings
  rules : RuleBook

/-- What the rule of a block sees: the block, and how the blocks below it are written out. -/
structure Scene (n : Nat) where
  job : Job n
  index : Fin n
  emit : Option (Fin n) → Run Output

/-- Stands for the block id in a template. -/
def blockIdMark : String := "%1"

namespace Scene

variable {n : Nat}

def block (s : Scene n) : Block n :=
  s.job.diagram.block s.index

def settings (s : Scene n) : Settings :=
  s.job.settings

def typeOf (s : Scene n) (i : Fin n) : String :=
  (s.job.diagram.block i).type

def unknownValue (s : Scene n) (name : String) (v : Value) : Fault :=
  .unknownFieldValue s.block.type name v.display

/-- The meaning of a field by a table whose keys are looked up. -/
def select {α : Type} (s : Scene n) (name default : String) (table : List (String × α)) :
    Run α := do
  let v := s.block.fieldD name (.text default)
  match v.lookup table with
  | .error f => throw f
  | .ok (some a) => return a
  | .ok none => throw (s.unknownValue name v)

/-- The meaning of a field by a table whose entries are compared. -/
def compared? {α : Type} (s : Scene n) (name default : String) (table : List (String × α)) :
    Option α :=
  match s.block.fieldD name (.text default) with
  | .text t => table.lookup t
  | _ => none

def compared {α : Type} (s : Scene n) (name default : String) (table : List (String × α)) :
    Run α :=
  match s.compared? name default table with
  | some a => return a
  | none => throw (s.unknownValue name (s.block.fieldD name (.text default)))

/-- The expression in a value slot, in parentheses if it binds looser than `outer`. Where nothing
is plugged in or nothing is written, the default. -/
def valueAt (s : Scene n) (name : String) (outer : Rank) (default : String) : Run String := do
  match s.block.child? name with
  | none => return default
  | some child =>
    match ← s.emit (some child) with
    | .nothing => return default
    | .statement _ => throw (.expressionWanted (s.typeOf child) name s.block.type)
    | .expression code rank =>
      return if code.isEmpty then default else Rank.parenthesize code rank outer

def value (s : Scene n) (name : String) (outer : OperatorClass) (default : String) : Run String :=
  s.valueAt name outer.rank default

/-- The lines of the chain in a statement slot. -/
def lines (s : Scene n) (name : String) : Run String := do
  let child := s.block.child? name
  match ← s.emit child, child with
  | .expression _ _, some child => throw (.statementWanted (s.typeOf child) name s.block.type)
  | output, _ => return output.code

/-- The lines of the chain in a statement slot, one step deeper. -/
def suite (s : Scene n) (name : String) : Run String := do
  return s.settings.deeper (← s.lines name)

/-- A suite, or the one that does nothing. -/
def orEmptySuite (s : Scene n) (code : String) : String :=
  if code.isEmpty then s.settings.emptyLine else code

/-- A template with the id of the block, as a line. -/
def inject (s : Scene n) (template : String) : String :=
  Text.endLine (Text.substitute blockIdMark (Text.quote s.block.id) template)

/-- A template as a line of a suite; empty without template. -/
def injected (s : Scene n) (template : Option String) : String :=
  match template with
  | some t => s.settings.deeper (s.inject t)
  | none => ""

/-- A loop body with the lines that the settings ask for. -/
def instrument (s : Scene n) (body : String) : String :=
  s.injected s.settings.loopMark? ++ body ++ s.injected s.settings.statementMark?

/-- The body of a loop. -/
def loopBody (s : Scene n) : Run String := do
  return s.orEmptySuite (s.instrument (← s.suite "DO"))

def slotComments (s : Scene n) (slot : Slot n) : String :=
  match slot.kind, slot.child with
  | .value, some child =>
    Text.markLines s.settings.commentMark (s.job.diagram.nestedComments child)
  | _, _ => ""

/-- The comments that stand in front of a block: its own, and those below its value slots. Blocks
in value slots leave them to the block around them. -/
def comments (s : Scene n) : String :=
  if s.block.isInline then ""
  else
    let own := match s.block.comment? with
      | some c => Text.markLines s.settings.commentMark c ++ "\n"
      | none => ""
    own ++ Text.joined "" (s.block.slots.map s.slotComments)

/-- The lines of the blocks that follow. -/
def nextLines (s : Scene n) : Run String := do
  match ← s.emit s.block.next, s.block.next with
  | .expression _ _, some next => throw (.statementWantedAfter s.block.type (s.typeOf next))
  | output, _ => return output.code

/-- The code of a block with its comments in front and the blocks that follow behind it. -/
def placed (s : Scene n) (code : String) : Run String := do
  return s.comments ++ code ++ (← s.nextLines)

def warn (s : Scene n) (tag : String) (text : Option String) : Run Unit :=
  Run.warn s.block.id tag text

def claimPin (s : Scene n) (pin : Value) (task : PinTask) (tag : String) : Run Bool :=
  Run.claimPin s.block.id pin task tag

/-- Defines a function by its lines, each with its depth. -/
def provide (s : Scene n) (preferred : String) (text : List (Nat × String)) : Run String :=
  Run.provide preferred <| Text.joined "\n" <|
    text.map fun (depth, line) => Text.repeated s.settings.indent depth ++ line

end Scene

end BlockScript
