import BlockScript.Diagram.Basic
import BlockScript.Typing.Kind

namespace BlockScript

/-- The kinds that do not depend on what is plugged in. -/
def BlockKind.fixedKind : BlockKind → ValueKind
  | compare | logic | negate | boolean | property | isEmpty => .boolean
  | null => .null
  | modulo | unary .round | randomWhole | length | digitalRead | level | analogRead | servoRead
  | rescale => .number
  | unary .single | unary .trig | constant | randomFraction => .decimal
  | text | join => .text
  | pulse _ | clockMillis | clockMicros => .largeNumber
  | _ => .undefined

/-- The kinds that a value can be cast to, by name. -/
def castKinds : List (String × ValueKind) :=
  [("SHORT_NUMBER", .shortNumber), ("NUMBER", .number), ("LARGE_NUMBER", .largeNumber),
    ("DECIMAL", .decimal), ("TEXT", .text), ("CHARACTER", .character), ("BOOLEAN", .boolean)]

/-- Looks a value up among names. -/
def Value.lookup {α : Type} (v : Value) (table : List (String × α)) : Except Fault (Option α) :=
  match v with
  | .text s => .ok (table.lookup s)
  | .list _ => .error .unsuitable
  | _ => .ok none

/-- Looks a value up as a key. -/
def Ledger.find {α : Type} (l : Ledger Value α) (v : Value) : Except Fault (Option α) :=
  if v.isKey then .ok (l.get? v) else .error .unsuitable

/-- The kinds of variables. -/
abbrev VariableKinds := Ledger Value ValueKind

/-- What kinds are inferred from: the blocks, and the definition of each procedure. -/
structure TypingScope (n : Nat) where
  diagram : Diagram n
  procedures : Ledger Value (Fin n) := {}

namespace TypingScope

variable {n : Nat}

/-- The kind of value that a block gives. A chain of blocks that each depend on the next is at most
as long as there are blocks, or it never ends. -/
def kindOf (s : TypingScope n) (held : VariableKinds) :
    Nat → Option (Fin n) → Except Fault ValueKind
  | _, none => .ok .missing
  | 0, some _ => .error .endless
  | depth + 1, some i =>
    let b := s.diagram.block i
    let kindIn (name : String) := kindOf s held depth (b.child? name)
    match b.kind? with
    | some .number => ValueKind.ofNumeral (b.fieldD "NUM" (.text "0")).toText
    | some .variableGet => do
      return (← held.find (b.fieldD Block.variableField .null)).getD .undefined
    | some .cast => do
      return (← (b.fieldD "VARIABLE_SETTYPE_TYPE" .null).lookup castKinds).getD .undefined
    | some .arithmetic =>
      if b.fieldD "OP" .null == .text "DIVIDE" then .ok .decimal
      else do
        let left ← kindIn "A"
        let right ← kindIn "B"
        return ValueKind.widest [left, right]
    | some .constrain => kindIn "VALUE"
    | some .ternary => kindIn "THEN"
    | some .callValue => do
      match ← s.procedures.find (b.fieldD "NAME" .null) with
      | none => return .undefined
      | some definition =>
        match (s.diagram.block definition).child? "RETURN" with
        | none => return .undefined
        | some value => kindOf s held depth (some value)
    | some kind => .ok kind.fixedKind
    | none => .ok .undefined

/-- The kind of value that a block gives. -/
def valueKind (s : TypingScope n) (held : VariableKinds) (i : Option (Fin n)) :
    Except Fault ValueKind :=
  s.kindOf held n i

end TypingScope

end BlockScript
