import BlockScript.Diagram.Kind
import BlockScript.Ledger
import BlockScript.Value

namespace BlockScript

inductive SlotKind where
  | value
  | statement
  | dummy
deriving DecidableEq, Inhabited

/-- A named place on a block that may hold a child. -/
structure Slot (n : Nat) where
  name : String
  kind : SlotKind
  child : Option (Fin n) := none

/-- A numeral for a block is its number and nothing else, no proof that there are blocks. -/
instance Block.numeral {n k : Nat} : OfNat (Fin (n + 1)) k :=
  ⟨Fin.ofNat (n + 1) k⟩

/-- Where a block hangs: its parent, and the slot it is plugged into, if it does not follow as
the next block. -/
structure Anchor (n : Nat) where
  parent : Fin n
  slot : Option (String × SlotKind)

/-- One block of a drawing of `n` blocks, which are known by their numbers. -/
structure Block (n : Nat) where
  type : String
  id : String
  fields : List (String × Value) := []
  slots : List (Slot n) := []
  next : Option (Fin n) := none
  hasOutput : Bool := false
  comment : Option String := none
  disabled : Bool := false
  /-- Data on the form of the block, such as the arguments of a procedure. -/
  shape : List (String × Value) := []
  x : Number := .whole 0
  y : Number := .whole 0
  anchor : Option (Anchor n) := none
  /-- The warnings shown at the block. -/
  warnings : Ledger String String := {}

namespace Block

variable {n : Nat}

def kind? (b : Block n) : Option BlockKind :=
  BlockKind.ofType? b.type

def field? (b : Block n) (name : String) : Option Value :=
  b.fields.lookup name

def fieldD (b : Block n) (name : String) (default : Value) : Value :=
  (b.field? name).getD default

/-- The first slot of that name. -/
def slot? (b : Block n) (name : String) : Option (Slot n) :=
  b.slots.find? (·.name == name)

/-- What is plugged into the first slot of that name. -/
def child? (b : Block n) (name : String) : Option (Fin n) :=
  (b.slot? name).bind (·.child)

/-- Whether the block is plugged into a value slot. -/
def isInline (b : Block n) : Bool :=
  match b.anchor with
  | some ⟨_, some (_, .value)⟩ => true
  | _ => false

/-- The argument names of a procedure or a call. -/
def arguments (b : Block n) : Except Fault (List Value) :=
  match b.shape.lookup "arguments" with
  | some v => v.toList
  | none => .ok []

def returnsValue (b : Block n) : Bool :=
  ((b.shape.lookup "has_return_value").getD (.bool true)).isGiven

def variableField : String := "VAR"

/-- The variable that the block names, if it names one. -/
def namedVariable? (b : Block n) : Option Value :=
  (b.field? variableField).filter Value.isGiven

def hasArguments (b : Block n) : Bool :=
  "procedures_def".toList.isPrefixOf b.type.toList

/-- All variables that the block names by itself. -/
def variableNames (b : Block n) : Except Fault (List Value) := do
  let own := b.namedVariable?.toList
  if b.hasArguments then return own ++ (← b.arguments) else return own

/-- The children in slots, in order, then the next block, each with its relation. -/
def children (b : Block n) : List (String × Fin n) :=
  b.slots.filterMap (fun s => s.child.map (s.name, ·)) ++ b.next.toList.map ("next", ·)

/-- The comment, where it says something. -/
def comment? (b : Block n) : Option String :=
  b.comment.filter (!·.isEmpty)

/-- Sets a warning, or clears it. -/
def setWarning (b : Block n) (tag : String) (text : Option String) : Block n :=
  { b with warnings := match text with
    | some t => b.warnings.put tag t
    | none => b.warnings.erase tag }

def warningText? (b : Block n) : Option String :=
  if b.warnings.entries.isEmpty then none else some (Text.joined "\n" b.warnings.values)

/-- Plugs a child into the first slot of that name, or into a new one. -/
def plug (b : Block n) (name : String) (kind : SlotKind) (child : Option (Fin n)) : Block n :=
  { b with slots := plugSlots b.slots }
where
  plugSlots : List (Slot n) → List (Slot n)
    | [] => [⟨name, kind, child⟩]
    | s :: rest => if s.name == name then { s with child } :: rest else s :: plugSlots rest

end Block

/-- Finitely many blocks that refer to each other. A block may be the child of several others,
and of itself. -/
structure Diagram (n : Nat) where
  blocks : Vector (Block n) n

namespace Diagram

variable {n : Nat}

def block (d : Diagram n) (i : Fin n) : Block n :=
  d.blocks.get i

def update (d : Diagram n) (i : Fin n) (f : Block n → Block n) : Diagram n :=
  ⟨d.blocks.set i (f (d.block i))⟩

def adopt (d : Diagram n) (parent child : Fin n) (slot : Option (String × SlotKind)) : Diagram n :=
  d.update child fun b => { b with anchor := some ⟨parent, slot⟩ }

/-- Hangs all children of a block under it. -/
def adoptChildren (d : Diagram n) (i : Fin n) : Diagram n :=
  let b := d.block i
  let d := b.slots.foldl (fun d s => match s.child with
    | some child => d.adopt i child (some (s.name, s.kind))
    | none => d) d
  match b.next with
  | some child => d.adopt i child none
  | none => d

/-- Hangs every block under its parent; with several parents the last one counts. -/
def adoptAll (d : Diagram n) : Diagram n :=
  (List.finRange n).foldl adoptChildren d

/-- Plugs a child into a slot. An old child keeps its anchor. -/
def setChild (d : Diagram n) (i : Fin n) (name : String) (kind : SlotKind)
    (child : Option (Fin n)) : Diagram n :=
  let d := d.update i fun b => b.plug name kind child
  match child, (d.block i).slot? name with
  | some c, some s => d.adopt i c (some (s.name, s.kind))
  | _, _ => d

def setNext (d : Diagram n) (i : Fin n) (next : Option (Fin n)) : Diagram n :=
  let d := d.update i fun b => { b with next }
  match next with
  | some c => d.adopt i c none
  | none => d

/-- The first block of that id. -/
def find? (d : Diagram n) (id : String) : Option (Fin n) :=
  (List.finRange n).find? fun i => (d.block i).id == id

end Diagram

end BlockScript
