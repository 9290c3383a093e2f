import BlockScript.Proofs.Traversal

namespace BlockScript

variable {n m : Nat}

/-- The settings without templates. -/
def Settings.bare (s : Settings) : Settings :=
  { s with statementTemplate := none, loopTemplate := none }

namespace BlockKind

/-- The kinds whose rules write out chains of other blocks. -/
def holdsLines : BlockKind → Bool
  | .conditional _ | .repetition | .whileUntil | .counting | .forEach | .entry | .procedure _ => true
  | _ => false

end BlockKind

namespace Scene

section Places

variable {s : Scene n} {s' : Scene m} (htype : s.block.type = s'.block.type)

include htype

end Places

/-- Two scenes that look alike to a rule that writes out no lines of other blocks. -/
structure Resembles (s : Scene n) (s' : Scene m) : Prop where
  settings : s.settings.bare = s'.settings.bare
  type : s.block.type = s'.block.type
  id : s.block.id = s'.block.id
  fields : s.block.fields = s'.block.fields
  shape : s.block.shape = s'.block.shape
  slots : s.block.slots.map Slot.name = s'.block.slots.map Slot.name
  valueAt : ∀ name outer default, s.valueAt name outer default = s'.valueAt name outer default

namespace Resembles

variable {s : Scene n} {s' : Scene m}

theorem indent (h : s.Resembles s') : s.settings.indent = s'.settings.indent :=
  (congrArg Settings.indent h.settings :)

theorem dutyMax (h : s.Resembles s') : s.settings.dutyMax = s'.settings.dutyMax :=
  (congrArg Settings.dutyMax h.settings :)

theorem emptyLine (h : s.Resembles s') : s.settings.emptyLine = s'.settings.emptyLine :=
  (congrArg Settings.emptyLine h.settings :)

theorem field? (h : s.Resembles s') (name : String) : s.block.field? name = s'.block.field? name := by
  rw [Block.field?, Block.field?, h.fields]

theorem fieldD (h : s.Resembles s') (name : String) (default : Value) :
    s.block.fieldD name default = s'.block.fieldD name default := by
  rw [Block.fieldD, Block.fieldD, h.field?]

theorem select (h : s.Resembles s') {α : Type} (name default : String) (table : List (String × α)) :
    s.select name default table = s'.select name default table := by
  simp only [Scene.select, unknownValue, h.fieldD, h.type]

theorem compared? (h : s.Resembles s') {α : Type} (name default : String) (table : List (String × α)) :
    s.compared? name default table = s'.compared? name default table := by
  rw [Scene.compared?, Scene.compared?, h.fieldD]

theorem compared (h : s.Resembles s') {α : Type} (name default : String) (table : List (String × α)) :
    s.compared name default table = s'.compared name default table := by
  simp only [Scene.compared, unknownValue, h.compared?, h.fieldD, h.type]

theorem value (h : s.Resembles s') (name : String) (outer : OperatorClass) (default : String) :
    s.value name outer default = s'.value name outer default :=
  h.valueAt name outer.rank default

theorem function (h : s.Resembles s') (f : FunctionText) : s.function f = s'.function f := by
  simp only [Scene.function, provide, h.indent]

theorem variableOf (h : s.Resembles s') (default : String) : s.variableOf default = s'.variableOf default := by
  rw [Scene.variableOf, Scene.variableOf, h.fieldD]

theorem procedureOf (h : s.Resembles s') : s.procedureOf = s'.procedureOf := by
  rw [Scene.procedureOf, Scene.procedureOf, h.fieldD]

theorem arguments (h : s.Resembles s') : s.arguments = s'.arguments := by
  rw [Scene.arguments, Scene.arguments, Block.arguments, Block.arguments, h.shape]

theorem returnsValue (h : s.Resembles s') : s.block.returnsValue = s'.block.returnsValue := by
  rw [Block.returnsValue, Block.returnsValue, h.shape]

theorem claimPin (h : s.Resembles s') (pin : Value) (task : PinTask) (tag : String) :
    s.claimPin pin task tag = s'.claimPin pin task tag := by
  rw [Scene.claimPin, Scene.claimPin, h.id]

theorem hasSlot (h : s.Resembles s') (name : String) :
    (s.block.slot? name).isSome = (s'.block.slot? name).isSome := by
  have hnames : ∀ {k : Nat} (b : Block k), (b.slot? name).isSome = (b.slots.map Slot.name).contains name := by
    intro k b
    rw [Bool.eq_iff_iff, Block.slot?, List.find?_isSome]
    simp
  rw [hnames, hnames, h.slots]

theorem pieceCount (h : s.Resembles s') : s.pieceCount = s'.pieceCount := by
  have hnames : ∀ {k : Nat} (b : Block k),
      (b.slots.filter fun t => "ADD".toList.isPrefixOf t.name.toList).length =
        ((b.slots.map Slot.name).filter fun name => "ADD".toList.isPrefixOf name.toList).length := by
    intro k b
    rw [List.filter_map, List.length_map]
    rfl
  rw [Scene.pieceCount, Scene.pieceCount, hnames, hnames, h.slots, h.shape]

theorem branchNumbers (h : s.Resembles s') : s.branchNumbers = s'.branchNumbers := by
  have hlength : s.block.slots.length = s'.block.slots.length := by
    simpa using congrArg List.length h.slots
  simp only [Scene.branchNumbers, hlength, h.hasSlot]

theorem directedRange (h : s.Resembles s') (first last : Number) :
    s.directedRange first last = s'.directedRange first last := by
  simp only [Scene.directedRange, h.function]

theorem call (h : s.Resembles s') : s.call = s'.call := by
  simp only [Scene.call, h.procedureOf, h.arguments, h.value]

theorem standard_eq (h : s.Resembles s') {kind : BlockKind} (hkind : kind.holdsLines = false) :
    s.standard kind = s'.standard kind := by
  cases kind with
  | conditional | repetition | whileUntil | counting | forEach | entry | procedure => cases hkind
  | randomFraction | null | clockMillis | clockMicros | blankValue | blankLine => rfl
  | number => simp only [standard, number, h.fieldD]
  | arithmetic => simp only [standard, arithmetic, h.select, h.valueAt]
  | unary => simp only [standard, unary, h.select, h.value]
  | constant => simp only [standard, constant, h.select]
  | property =>
    simp only [standard, property, unknownValue, h.compared?, h.value, h.valueAt, h.function, h.fieldD, h.type]
  | change => simp only [standard, change, h.value, h.variableOf]
  | modulo => simp only [standard, modulo, h.value, h.valueAt]
  | constrain => simp only [standard, constrain, h.value]
  | randomWhole => simp only [standard, randomWhole, h.value, h.function]
  | compare => simp only [standard, compare, h.select, h.value]
  | logic => simp only [standard, logic, h.compared, h.value]
  | negate => simp only [standard, negate, h.value]
  | boolean => simp only [standard, boolean, h.compared]
  | ternary => simp only [standard, ternary, h.value]
  | text => simp only [standard, text, h.fieldD]
  | join => simp only [standard, join, h.pieceCount, h.value]
  | length => simp only [standard, length, h.value]
  | isEmpty => simp only [standard, isEmpty, h.value]
  | variableGet => simp only [standard, variableGet, h.variableOf]
  | variableSet => simp only [standard, variableSet, h.value, h.variableOf]
  | cast => simp only [standard, cast, h.select, h.value]
  | rescale => simp only [standard, rescale, h.value, h.function]
  | flow => simp only [standard, flow, h.compared]
  | delayMillis | delayMicros => simp only [standard, delay, h.value]
  | halt => simp only [standard, halt, h.emptyLine]
  | callValue => simp only [standard, callValue, h.call]
  | callLine => simp only [standard, callLine, h.call]
  | returnIf => simp only [standard, returnIf, h.returnsValue, h.value, h.indent]
  | digitalWrite => simp only [standard, digitalWrite, pin, h.fieldD, h.value, h.claimPin]
  | digitalRead => simp only [standard, digitalRead, pin, h.fieldD, h.claimPin]
  | builtinLed => simp only [standard, builtinLed, pin, h.fieldD, h.value, h.claimPin]
  | level => simp only [standard, level, h.compared]
  | analogWrite => simp only [standard, analogWrite, pin, warn, h.fieldD, h.value, h.claimPin, h.dutyMax, h.id]
  | analogRead => simp only [standard, analogRead, pin, h.fieldD, h.claimPin]
  | pulse => simp only [standard, pulse, pin, h.fieldD, h.value, h.claimPin]
  | tone => simp only [standard, tone, pin, h.fieldD, h.value, h.claimPin]
  | silence => simp only [standard, silence, pin, h.fieldD, h.claimPin]
  | servoWrite => simp only [standard, servoWrite, duty, pin, h.fieldD, h.value, h.claimPin, h.function]
  | servoRead => simp only [standard, servoRead, pin, h.fieldD, h.claimPin]
  | stepperSetup =>
    simp only [standard, stepperSetup, motorPins, motorTag, h.select, h.value, h.valueAt, h.fieldD, h.claimPin]
  | stepperMove => simp only [standard, stepperMove, motorTag, h.value, h.function, h.fieldD]
  | serialPrint => simp only [standard, serialPrint, h.value, h.fieldD]
  | serialSetup => simp only [standard, serialSetup, h.fieldD]

end Resembles

/-- Two scenes that look alike to every rule, in which what follows the block is written out alike. -/
structure Mirrors (s : Scene n) (s' : Scene m) : Prop extends s.Resembles s' where
  templates : s.settings = s'.settings
  rules : s.job.rules = s'.job.rules
  hasOutput : s.block.hasOutput = s'.block.hasOutput
  lines : ∀ name, s.lines name = s'.lines name
  nextLines : s.nextLines = s'.nextLines
  comments : s.comments = s'.comments
  assignedGlobals : Workspace.isProcedure s.block → s.assignedGlobals = s'.assignedGlobals

namespace Mirrors

variable {s : Scene n} {s' : Scene m}

theorem suite (h : s.Mirrors s') (name : String) : s.suite name = s'.suite name := by
  simp only [Scene.suite, h.lines, h.templates]

theorem injected (h : s.Mirrors s') (template : Option String) : s.injected template = s'.injected template := by
  simp only [Scene.injected, inject, h.templates, h.id]

theorem orEmptySuite (h : s.Mirrors s') (code : String) : s.orEmptySuite code = s'.orEmptySuite code := by
  rw [Scene.orEmptySuite, Scene.orEmptySuite, h.templates]

theorem loopBody (h : s.Mirrors s') : s.loopBody = s'.loopBody := by
  simp only [Scene.loopBody, instrument, h.suite, h.injected, h.orEmptySuite, h.templates]

theorem placed (h : s.Mirrors s') (code : String) : s.placed code = s'.placed code := by
  simp only [Scene.placed, h.comments, h.nextLines]

theorem repeated (h : s.Mirrors s') (times : String) : s.repeated times = s'.repeated times := by
  simp only [Scene.repeated, h.loopBody]

theorem standard_eq (h : s.Mirrors s') {kind : BlockKind} (hk : s.block.kind? = some kind) :
    s.standard kind = s'.standard kind := by
  by_cases hlines : kind.holdsLines = false
  · exact h.toResembles.standard_eq hlines
  · cases kind with
    | conditional alwaysElse =>
      have hbranch : s.branch = s'.branch := by
        funext k
        simp only [branch, h.value, h.suite, h.orEmptySuite]
      simp only [standard, conditional, h.branchNumbers, h.hasSlot, h.suite, h.orEmptySuite, hbranch]
    | repetition => simp only [standard, repetition, h.field?, h.value, h.repeated]
    | whileUntil => simp only [standard, whileUntil, h.compared, h.value, h.loopBody]
    | counting =>
      simp only [standard, counting, knownSequence, boundSequence, h.variableOf, h.value, h.loopBody, h.directedRange,
        h.function]
    | forEach => simp only [standard, forEach, h.variableOf, h.value, h.loopBody]
    | entry => simp only [standard, entry, h.lines, h.suite, h.orEmptySuite]
    | procedure returns =>
      have hprocedure : Workspace.isProcedure s.block := by
        rw [Workspace.isProcedure, hk]
      simp only [standard, procedure, bodyMarks, h.procedureOf, h.suite, h.value, h.injected, h.orEmptySuite,
        h.assignedGlobals hprocedure, h.arguments, h.placed, h.templates]
    | _ => exact absurd rfl hlines

theorem ruleOutput_eq (h : s.Mirrors s') : s.ruleOutput = s'.ruleOutput := by
  unfold ruleOutput
  rw [← h.rules, ← h.type, ← h.hasOutput]
  cases hrule : s.job.rules.rule? s.block.type with
  | none => rfl
  | some rule =>
    cases rule with
    | fixed rule => cases rule <;> rfl
    | standard kind => exact h.standard_eq (kind?_of_rule hrule)

/-- Scenes that look alike are written out alike. -/
theorem output_eq (h : s.Mirrors s') : s.output = s'.output := by
  simp only [output, statementMark, inject, h.ruleOutput_eq, h.placed, h.templates, h.id]

end Mirrors

end Scene

end BlockScript
