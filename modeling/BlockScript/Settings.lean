import BlockScript.Sorting.Insertion
import BlockScript.Text.Lines

namespace BlockScript

/-- The words of the language of emitted programs. -/
def keywords : List String :=
  ["False", "None", "True", "and", "as", "assert", "async", "await", "break", "class", "continue",
    "def", "del", "elif", "else", "except", "finally", "for", "from", "global", "if", "import", "in",
    "is", "lambda", "nonlocal", "not", "or", "pass", "raise", "return", "try", "while", "with",
    "yield"]

/-- Names that emitted programs rely on. -/
def platformWords : List String :=
  ["Blockly", "setup", "loop", "HIGH", "LOW", "INPUT", "OUTPUT", "INPUT_PULLUP", "BUILT_IN_LED",
    "machine", "micropython", "time", "math", "random", "Pin", "PWM", "ADC", "UART", "const",
    "time_pulse_us", "print", "range", "len", "str", "int", "float", "bool", "abs", "min", "max",
    "round", "isinstance"]

/-- Identifiers that are never handed out. -/
def reservedWords : List String :=
  keywords ++ platformWords

/-- How programs are written. -/
structure Settings where
  /-- One step of indentation. -/
  indent : String := "    "
  /-- The line of a suite that would be empty. -/
  emptySuite : String := "pass"
  /-- Opens every line of a comment. -/
  commentMark : String := "# "
  setupHeader : String := "# ---- setup ----"
  bodyHeader : String := "# ---- main ----"
  /-- Stands in front of every statement; the mark for the block id is replaced. -/
  statementTemplate : Option String := none
  /-- Opens every loop body; the mark for the block id is replaced. -/
  loopTemplate : Option String := none
  /-- The largest duty of a pulse-width signal. -/
  dutyMax : Int := 1023
  extraReserved : List String := []
deriving Inhabited

namespace Settings

def reserved (s : Settings) : List String :=
  reservedWords ++ s.extraReserved

/-- The template in front of statements, where it says something. -/
def statementMark? (s : Settings) : Option String :=
  s.statementTemplate.filter (!·.isEmpty)

/-- The template in loop bodies, where it says something. -/
def loopMark? (s : Settings) : Option String :=
  s.loopTemplate.filter (!·.isEmpty)

/-- Lines one step deeper. -/
def deeper (s : Settings) (code : String) : String :=
  Text.markLines s.indent code

/-- The suite that does nothing. -/
def emptyLine (s : Settings) : String :=
  s.indent ++ s.emptySuite ++ "\n"

/-- The reserved words in order, each once. -/
def reservedInOrder (s : Settings) : List String :=
  (stableSort (fun a b => decide (a < b)) s.reserved).eraseDups

end Settings

end BlockScript
