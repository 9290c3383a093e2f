import BlockScript.Text.Lines

namespace BlockScript

/-- Why a request about a block drawing cannot be met. -/
inductive Fault where
  /-- The rule of a block gave something that is no output. -/
  | wrongOutput (blockType found : String)
  | expressionWanted (child slot parent : String)
  | statementWanted (child slot parent : String)
  | statementWantedAfter (block next : String)
  /-- A field holds a value that its block does not know; `shown` is the value as displayed. -/
  | unknownFieldValue (blockType field shown : String)
  /-- The session was closed. -/
  | finalized
  /-- The blocks of these types form a cycle. -/
  | cyclic (path : List String)
  /-- The blocks of these ids have more than one parent. -/
  | shared (ids : List String)
  /-- A value that cannot be used here, such as a text that is no number. -/
  | invalid
  /-- A value of a kind that has no place here. -/
  | unsuitable
  | tooLarge
  | divisionByZero
  /-- A block would be worked on inside itself. -/
  | endless
deriving DecidableEq, Inhabited

namespace Fault

/-- The wording of the faults that have one. -/
def message : Fault → Option String
  | wrongOutput blockType found => some <|
      "Rule for block '" ++ blockType ++ "' returned " ++ found ++
        ", expected Statement, Expression or NO_CODE."
  | expressionWanted child slot parent => some <|
      "Expecting an expression from block '" ++ child ++ "' in input '" ++ slot ++ "' of '" ++
        parent ++ "'."
  | statementWanted child slot parent => some <|
      "Expecting a statement from block '" ++ child ++ "' in input '" ++ slot ++ "' of '" ++
        parent ++ "'."
  | statementWantedAfter block next => some <|
      "Expecting a statement after block '" ++ block ++ "', got value block '" ++ next ++ "'."
  | unknownFieldValue blockType field shown => some <|
      "Unknown value " ++ shown ++ " for field '" ++ field ++ "' of block '" ++ blockType ++ "'."
  | finalized => some "Generation context is finalized; call init() to start a new run."
  | cyclic path => some <| "Block graph has a cycle: " ++ Text.joined " -> " path
  | shared ids => some <|
      "Blocks connected to more than one parent: " ++ Text.joined ", " ids
  | invalid | unsuitable | tooLarge | divisionByZero | endless => none

end Fault

end BlockScript
