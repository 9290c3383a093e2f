import BlockScript.Proofs.Layout

namespace BlockScript

namespace Text

variable {c : Char} {cs : List Char}

/-- Blanks stand neither in front nor behind. -/
def IsTrimmed (cs : List Char) : Prop :=
  (∀ c ∈ cs.head?, isBlank c = false) ∧ ∀ c ∈ cs.getLast?, isBlank c = false

end Text

namespace FromImport

/-- What a line of imports takes. -/
structure Sound (i : FromImport) : Prop where
  source_ne : i.source ≠ ""
  source_unbroken : ∀ c ∈ i.source.toList, Text.isBlank c = false
  names_ne : i.names ≠ []
  names_plain : ∀ name ∈ i.names, Text.IsTrimmed name.toList ∧ ',' ∉ name.toList ∧ '\n' ∉ name.toList

end FromImport

/-- The names that the lines take from a module, each once, in the order in which they come first. -/
def namesTaken (source : String) (lines : List String) : List String :=
  (((lines.filterMap FromImport.read?).filter (·.source = source)).flatMap (·.names)).eraseDups

section

variable {lines : List String} {line source : String}

end

namespace ImportLine

/-- What is written at the place of a line, as its parts. -/
def merged (lines : List String) (line : String) : ImportLine :=
  match FromImport.read? line with
  | some i => taken ⟨i.source, namesTaken i.source lines⟩
  | none => plain line

section

variable {lines : List String} {line : String} {i : FromImport}

end

end ImportLine

section

variable {lines : List String} {line : String} {i : FromImport}

end

example : mergeImports ["from m import b , a", "import t", "from k import c", "from m import a,d", "import t"] =
    ["from m import b, a, d", "import t", "from k import c", "import t"] := by
  decide +kernel

end BlockScript
