namespace BlockScript.Text

/-- Puts `mark` behind every line break but one that ends the text. -/
def markBreaks (mark : List Char) : List Char → List Char
  | [] => []
  | [c] => [c]
  | c :: d :: cs =>
    if c = '\n' then c :: (mark ++ markBreaks mark (d :: cs)) else c :: markBreaks mark (d :: cs)

/-- Puts `mark` in front of every line of a text. The empty text has no line, and a line break at
the end opens none. -/
def markLines (mark text : String) : String :=
  if text.isEmpty then text
  else String.ofList (mark.toList ++ markBreaks mark.toList text.toList)

/-- Replaces every occurrence of `key`, from left to right; `skip` characters belong to an
occurrence already replaced. -/
def substituteFrom (key value : List Char) : Nat → List Char → List Char
  | _, [] => []
  | skip + 1, _ :: cs => substituteFrom key value skip cs
  | 0, c :: cs =>
    if key.isPrefixOf (c :: cs) then value ++ substituteFrom key value (key.length - 1) cs
    else c :: substituteFrom key value 0 cs

def substitute (key value text : String) : String :=
  String.ofList (substituteFrom key.toList value.toList 0 text.toList)

/-- Removes spaces and tabs in front of line breaks. -/
def dropLineEndBlanks : List Char → List Char
  | [] => []
  | c :: cs =>
    let rest := dropLineEndBlanks cs
    if (c = ' ' ∨ c = '\t') ∧ rest.head? = some '\n' then rest else c :: rest

def tidyLineEnds (text : String) : String :=
  String.ofList (dropLineEndBlanks text.toList)

/-- The pieces between the occurrences of a separator. -/
def splitAt (separator : Char) : List Char → List (List Char)
  | [] => [[]]
  | c :: cs =>
    if c = separator then [] :: splitAt separator cs
    else match splitAt separator cs with
      | [] => [[c]]
      | piece :: pieces => (c :: piece) :: pieces

def lineBreaks (text : String) : Nat :=
  text.toList.count '\n'

/-- A text that ends in a line break. -/
def endLine (text : String) : String :=
  if text.toList.getLast? = some '\n' then text else text ++ "\n"

def repeated (text : String) : Nat → String
  | 0 => ""
  | n + 1 => text ++ repeated text n

def joined (separator : String) : List String → String
  | [] => ""
  | [s] => s
  | s :: t :: rest => s ++ separator ++ joined separator (t :: rest)

end BlockScript.Text
