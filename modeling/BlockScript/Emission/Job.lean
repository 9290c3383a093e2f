import BlockScript.Rules.Counting
import BlockScript.Rules.Devices
import BlockScript.Rules.Procedures

namespace BlockScript

variable {n : Nat}

namespace Scene

/-- Writes a block out by the rule of its kind. -/
def standard (s : Scene n) : BlockKind → Run Output
  | .number => s.number
  | .arithmetic => s.arithmetic
  | .unary family => s.unary family
  | .constant => s.constant
  | .property => s.property
  | .change => s.change
  | .modulo => s.modulo
  | .constrain => s.constrain
  | .randomWhole => s.randomWhole
  | .randomFraction => randomFraction
  | .compare => s.compare
  | .logic => s.logic
  | .negate => s.negate
  | .boolean => s.boolean
  | .null => return Output.atom "None"
  | .ternary => s.ternary
  | .text => s.text
  | .join => s.join
  | .length => s.length
  | .isEmpty => s.isEmpty
  | .variableGet => s.variableGet
  | .variableSet => s.variableSet
  | .cast => s.cast
  | .rescale => s.rescale
  | .conditional alwaysElse => s.conditional alwaysElse
  | .repetition => s.repetition
  | .whileUntil => s.whileUntil
  | .counting => s.counting
  | .forEach => s.forEach
  | .flow => s.flow
  | .delayMillis => s.delay "sleep_ms" "DELAY_TIME_MILI"
  | .delayMicros => s.delay "sleep_us" "DELAY_TIME_MICRO"
  | .clockMillis => clock "ticks_ms"
  | .clockMicros => clock "ticks_us"
  | .halt => s.halt
  | .procedure _ => s.procedure
  | .callValue => s.callValue
  | .callLine => s.callLine
  | .returnIf => s.returnIf
  | .entry => s.entry
  | .digitalWrite => s.digitalWrite
  | .digitalRead => s.digitalRead
  | .builtinLed => s.builtinLed
  | .level => s.level
  | .analogWrite => s.analogWrite
  | .analogRead => s.analogRead
  | .pulse timeout => s.pulse timeout
  | .tone => s.tone
  | .silence => s.silence
  | .servoWrite => s.servoWrite
  | .servoRead => s.servoRead
  | .stepperSetup => s.stepperSetup
  | .stepperMove => s.stepperMove
  | .serialPrint => s.serialPrint
  | .serialSetup => s.serialSetup
  | .blankValue => return .blankValue
  | .blankLine => return .blankLine

/-- What the rule of the block gives. A block without rule gives nothing to see. -/
def ruleOutput (s : Scene n) : Run Output := do
  match s.job.rules.rule? s.block.type with
  | some (.standard kind) => s.standard kind
  | some (.fixed (.gives output)) => return output
  | some (.fixed (.malformed found)) => throw (.wrongOutput s.block.type found)
  | none =>
    Run.record (.warning ("No code generator for block type '" ++ s.block.type ++
      "', emitting nothing"))
    return if s.block.hasOutput then .blankValue else .blankLine

/-- The line that the settings put in front of a statement. -/
def statementMark (s : Scene n) : String :=
  match s.settings.statementMark? with
  | some template => s.inject template
  | none => ""

/-- The block as its rule writes it, with comments, marks and the blocks that follow. -/
def output (s : Scene n) : Run Output := do
  match ← s.ruleOutput with
  | .nothing => return .nothing
  | .expression code rank => return .expression (← s.placed code) rank
  | .statement code =>
    return .statement (← s.placed (if code.isEmpty then code else s.statementMark ++ code))

end Scene

namespace Job

/-- Writes out a block and what follows it, with at most `depth` blocks inside each other. -/
def emitWithin (job : Job n) : Nat → Option (Fin n) → Run Output
  | _, none => do
    Run.checkOpen
    return .nothing
  | 0, some _ => throw .endless
  | depth + 1, some i => do
    Run.checkOpen
    let s : Scene n := ⟨job, i, job.emitWithin depth⟩
    if s.block.disabled then job.emitWithin depth s.block.next else s.output

/-- Writes out a block and what follows it. A disabled block is passed over. If more blocks lie
inside each other than there are, one of them lies inside itself, and there is no end. -/
def emit (job : Job n) (i : Option (Fin n)) : Run Output :=
  job.emitWithin n i

/-- What the rule of a block sees. -/
def scene (job : Job n) (i : Fin n) : Scene n :=
  ⟨job, i, job.emit⟩

/-- The lines of a top block and what follows it. -/
def topLines (job : Job n) (i : Fin n) : Run String := do
  return (← job.emit (some i)).topLines

/-- The lines of the top blocks. -/
def body (job : Job n) (tops : List (Fin n)) : Run String := do
  return Text.tidyLineEnds (Text.joined "" (← tops.mapM job.topLines))

end Job

end BlockScript
