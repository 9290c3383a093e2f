import BlockScript.Fragments
import BlockScript.Names
import BlockScript.Text.Lines

namespace BlockScript

/-- Stands for the identifier in the text of a function. -/
def functionMark : String := "\x7b\x7bFUNCTION_NAME\x7d\x7d"

/-- The functions of a program: those that its expressions need, by preferred name, and the
procedures of the drawing. -/
structure Functions where
  texts : Fragments String := {}
  identifiers : Ledger String String := {}
  procedures : Fragments String := {}

namespace Functions

/-- The identifier kept for a preferred name. -/
def identifier? (f : Functions) (preferred : String) : Option String :=
  f.identifiers.get? preferred

def keepIdentifier (f : Functions) (preferred identifier : String) : Functions :=
  { f with identifiers := f.identifiers.put preferred identifier }

/-- The text of a function under its identifier. -/
def named (identifier text : String) : String :=
  Text.substitute functionMark identifier text

/-- Adds the text of a function that has its identifier already. -/
def define (f : Functions) (preferred identifier text : String) : Functions :=
  { f with texts := f.texts.put preferred (named identifier text) }

/-- The latest text of a procedure counts. -/
def addProcedure (f : Functions) (name code : String) : Functions :=
  { f with procedures := f.procedures.put name code }

/-- Procedures come last. -/
def values (f : Functions) : List String :=
  f.texts.values ++ f.procedures.values

def size (f : Functions) : Nat :=
  f.texts.size + f.procedures.size

/-- What the identifier of a function is handed out for. -/
def label (preferred : String) : Label :=
  ⟨.generated, .text preferred⟩

/-- The identifier of a function, new on first use. -/
def identify (f : Functions) (names : Names) (preferred : String) : String × Functions × Names :=
  match f.identifier? preferred with
  | some identifier => (identifier, f, names)
  | none =>
    let (identifier, names) := names.allocate (label preferred)
    (identifier, f.keepIdentifier preferred identifier, names)

/-- Defines a function on first use and gives its identifier. -/
def provide (f : Functions) (names : Names) (preferred text : String) :
    String × Functions × Names :=
  let (identifier, f, names) := f.identify names preferred
  if f.texts.contains preferred then (identifier, f, names)
  else (identifier, f.define preferred identifier text, names)

end Functions

end BlockScript
