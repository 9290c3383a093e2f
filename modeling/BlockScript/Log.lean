namespace BlockScript

/-- Importance of a log record. -/
inductive LogLevel where
  | debug
  | info
  | warning
deriving DecidableEq, Inhabited

def LogLevel.name : LogLevel → String
  | .debug => "DEBUG"
  | .info => "INFO"
  | .warning => "WARNING"

def LogLevel.weight : LogLevel → Nat
  | .debug => 10
  | .info => 20
  | .warning => 30

structure LogRecord where
  level : LogLevel
  message : String
deriving DecidableEq, Inhabited

namespace LogRecord

def debug (message : String) : LogRecord := ⟨.debug, message⟩

def info (message : String) : LogRecord := ⟨.info, message⟩

def warning (message : String) : LogRecord := ⟨.warning, message⟩

/-- The records that are at least as important as `level`. -/
def atLeast (level : LogLevel) (records : List LogRecord) : List LogRecord :=
  records.filter fun r => level.weight ≤ r.level.weight

end LogRecord

/-- A line for the log of an application: who writes it, how important it is, what it says. -/
structure LogLine where
  source : String
  level : Int
  message : String

namespace LogLine

def levelName (level : Int) : String :=
  match level with
  | 0 => "NOTSET"
  | 10 => "DEBUG"
  | 20 => "INFO"
  | 30 => "WARNING"
  | 40 => "ERROR"
  | 50 => "CRITICAL"
  | n => "Level " ++ toString n

/-- A line of nobody comes from the root. -/
def sourceName (l : LogLine) : String :=
  if l.source.isEmpty then "root" else l.source

def text (l : LogLine) : String :=
  l.sourceName ++ " - " ++ levelName l.level ++ " - " ++ l.message

/-- Only positive levels that reach the threshold are written. -/
def isWritten (threshold : Int) (l : LogLine) : Bool :=
  0 < l.level && threshold ≤ l.level

/-- The line that opens a log. -/
def opening (threshold : Int) : LogLine :=
  ⟨"mpyblocks.config", 20, "mpyblocks logging initialized at level: " ++ levelName threshold⟩

/-- What a log with this threshold shows. -/
def written (threshold : Int) (lines : List LogLine) : List String :=
  ((opening threshold :: lines).filter (isWritten threshold)).map text

end LogLine

end BlockScript
