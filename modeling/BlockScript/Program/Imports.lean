import BlockScript.Ledger
import BlockScript.Text.Blank
import BlockScript.Text.Lines

namespace BlockScript

/-- A line that takes names from a module. -/
structure FromImport where
  source : String
  names : List String

namespace FromImport

def words : List Char → List (List Char) := Text.splitAt ','

/-- The list of names up to the end of the line, which may have a line break behind it. -/
def namesPart? (cs : List Char) : Option (List Char) :=
  let line := if cs.getLast? = some '\n' then cs.dropLast else cs
  if line.isEmpty || line.contains '\n' then none else some line

def dropStart? (start cs : List Char) : Option (List Char) :=
  if start.isPrefixOf cs then some (cs.drop start.length) else none

/-- Reads a line that takes names from a module. -/
def read? (line : String) : Option FromImport := do
  let cs ← dropStart? "from ".toList line.toList
  let source := cs.takeWhile (!Text.isBlank ·)
  let rest ← dropStart? " import ".toList (cs.dropWhile (!Text.isBlank ·))
  let names ← namesPart? rest
  if source.isEmpty then none
  else some ⟨String.ofList source, (words names).map fun w => Text.trim (String.ofList w)⟩

def line (i : FromImport) : String :=
  "from " ++ i.source ++ " import " ++ Text.joined ", " i.names

end FromImport

/-- A line of the merged import section. -/
inductive ImportLine where
  | plain (line : String)
  | taken (i : FromImport)

namespace ImportLine

def line : ImportLine → String
  | plain line => line
  | taken i => i.line

/-- Appends the names that are not there yet. -/
def addNames (old new : List String) : List String :=
  new.foldl (fun names name => if names.contains name then names else names ++ [name]) old

/-- Adds names to the line of their module, which is opened at the end where there is none. -/
def insert (i : FromImport) : List ImportLine → List ImportLine
  | [] => [taken ⟨i.source, addNames [] i.names⟩]
  | taken j :: rest =>
    if j.source = i.source then taken ⟨j.source, addNames j.names i.names⟩ :: rest
    else taken j :: insert i rest
  | plain line :: rest => plain line :: insert i rest

def merge (lines : List String) : List ImportLine :=
  lines.foldl (fun merged line =>
    match FromImport.read? line with
    | some i => insert i merged
    | none => merged ++ [plain line]) []

end ImportLine

/-- One line for each module that names are taken from, at the place of its first line. -/
def mergeImports (lines : List String) : List String :=
  (ImportLine.merge lines).map ImportLine.line

end BlockScript
