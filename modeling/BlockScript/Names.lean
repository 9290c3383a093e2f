import BlockScript.Ledger
import BlockScript.Value

namespace BlockScript

/-- What a logical name stands for. All realms share one set of identifiers. -/
inductive Realm where
  | variable
  | procedure
  | generated
deriving DecidableEq, Inhabited

def Realm.name : Realm → String
  | .variable => "VARIABLE"
  | .procedure => "PROCEDURE"
  | .generated => "GENERATED"

/-- A logical name in its realm. -/
structure Label where
  realm : Realm
  name : Value

instance : BEq Label := ⟨fun a b => a.realm == b.realm && a.name == b.name⟩

def isIdentifierChar (c : Char) : Bool :=
  c.isAlphanum || c == '_'

/-- The identifier that comes closest to a text. -/
def identifierOf (s : String) : String :=
  let cs := s.toList.map fun c => if isIdentifierChar c then c else '_'
  match cs with
  | [] => "unnamed"
  | c :: _ => if c.isDigit then "my_" ++ String.ofList cs else String.ofList cs

/-- The identifier that comes closest to a logical name. -/
def Value.identifier (v : Value) : String :=
  identifierOf (if v.isGiven then v.toText else "")

/-- Identifiers handed out so far. -/
structure Names where
  reserved : List String := []
  used : List String := []
  identifiers : Ledger Label String := {}
  labels : Ledger String Label := {}

namespace Names

def isTaken (names : Names) (identifier : String) : Bool :=
  names.used.contains identifier || names.reserved.contains identifier

def suffixed (base : String) (k : Nat) : String :=
  base ++ "_" ++ toString k

/-- The first free number from `k` on. As many tries as there are taken identifiers are enough,
since the numbers give different identifiers. -/
def freeSuffix (names : Names) (base : String) : Nat → Nat → Nat
  | 0, k => k
  | tries + 1, k =>
    if names.isTaken (suffixed base k) then freeSuffix names base tries (k + 1) else k

/-- A free identifier: the base itself, or with the smallest number from two on. -/
def freeIdentifier (names : Names) (base : String) : String :=
  if names.isTaken base then
    suffixed base (names.freeSuffix base (names.used.length + names.reserved.length) 2)
  else base

/-- Hands out a new identifier for a logical name. -/
def allocate (names : Names) (label : Label) : String × Names :=
  let identifier := names.freeIdentifier label.name.identifier
  (identifier, { names with
    used := identifier :: names.used
    labels := names.labels.put identifier label })

def find? (names : Names) (label : Label) : Option String :=
  names.identifiers.get? label

/-- Hands out a new identifier and keeps it for the logical name. -/
def allocateFor (names : Names) (label : Label) : String × Names :=
  let (identifier, names) := names.allocate label
  (identifier, { names with identifiers := names.identifiers.put label identifier })

/-- The identifier of a logical name, new on first use. -/
def get (names : Names) (label : Label) : Except Fault (String × Names) :=
  if label.name.isKey then
    .ok <| match names.find? label with
      | some identifier => (identifier, names)
      | none => names.allocateFor label
  else .error .unsuitable

def logicalName? (names : Names) (identifier : String) : Option Value :=
  (names.labels.get? identifier).map (·.name)

/-- Forgets all but the reserved words. -/
def reset (names : Names) : Names :=
  { reserved := names.reserved }

end Names

end BlockScript
