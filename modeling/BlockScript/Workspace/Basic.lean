import BlockScript.Diagram.Reach
import BlockScript.Log
import BlockScript.Sorting.Runs

namespace BlockScript

/-- A drawing and its top blocks. -/
structure Workspace (n : Nat) where
  diagram : Diagram n
  tops : List (Fin n) := []

namespace Workspace

variable {n : Nat}

def block (w : Workspace n) (i : Fin n) : Block n :=
  w.diagram.block i

/-- Whether a block stands before another one: higher up, or equally high and further left. -/
def standsBefore (a b : Block n) : Bool :=
  a.y.lt b.y || a.y.le b.y && a.x.lt b.x

/-- The top blocks from top to bottom and left to right; equal places keep their order. -/
def orderedTops (w : Workspace n) : List (Fin n) :=
  runSort (fun i j => standsBefore (w.block i) (w.block j)) w.tops

/-- Every block, depth first from each top block. -/
def allBlocks (w : Workspace n) : List (Fin n) :=
  w.orderedTops.flatMap w.diagram.descendants

def find? (w : Workspace n) (id : String) : Option (Fin n) :=
  w.allBlocks.find? fun i => (w.block i).id == id

/-- Appends what is not there yet. -/
def addNew (old new : List Value) : List Value :=
  new.foldl (fun names name => if names.contains name then names else names ++ [name]) old

/-- The variables in use, in the order of first use. -/
def allVariables (w : Workspace n) : Except Fault (List Value) :=
  w.allBlocks.foldlM (fun names i => do return addNew names (← (w.block i).variableNames)) []

/-- The procedures of a drawing: the first definition of each name, and the names that are defined
again. -/
structure Procedures (n : Nat) where
  definitions : Ledger Value (Fin n) := {}
  repeated : List Value := []

def Procedures.add (p : Procedures n) (name : Value) (i : Fin n) : Except Fault (Procedures n) :=
  if !name.isKey then .error .unsuitable
  else if p.definitions.contains name then .ok { p with repeated := p.repeated ++ [name] }
  else .ok { p with definitions := p.definitions.put name i }

def isProcedure (b : Block n) : Bool :=
  match b.kind? with
  | some (.procedure _) => true
  | _ => false

def procedures (w : Workspace n) : Except Fault (Procedures n) :=
  (w.orderedTops.filter fun i => isProcedure (w.block i)).foldlM
    (fun p i => p.add ((w.block i).fieldD "NAME" .null) i) {}

/-- What is logged for procedures that are defined again. -/
def Procedures.log (p : Procedures n) : List LogRecord :=
  p.repeated.map fun name => .warning ("Procedure '" ++ name.toText ++ "' is defined more than once")

end Workspace

end BlockScript
