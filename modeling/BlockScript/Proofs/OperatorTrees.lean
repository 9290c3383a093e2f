import BlockScript.Emission.Job
import BlockScript.Proofs.Writing

namespace BlockScript

/-- The kinds of blocks that stand for an expression. -/
def BlockKind.isValue : BlockKind → Bool
  | number | arithmetic | unary _ | constant | property | modulo | constrain | randomWhole | randomFraction
  | compare | logic | negate | boolean | null | ternary | text | join | length | isEmpty | variableGet | cast
  | rescale | clockMillis | clockMicros | callValue | digitalRead | level | analogRead | pulse _ | servoRead
  | blankValue => true
  | _ => false

/-- A finite tree of blocks that stand for expressions or are not translated, without comments and without
blocks that follow. -/
inductive Diagram.ValueTree {n : Nat} (d : Diagram n) : Fin n → Prop where
  | node {i : Fin n} (next : (d.block i).next = none) (comment : (d.block i).comment? = none)
      (kind : ∀ k, (d.block i).kind? = some k → k.isValue = true)
      (below : ∀ slot ∈ (d.block i).slots, ∀ j, slot.child = some j → ValueTree d j) : ValueTree d i

namespace Session

/-- The identifier that the session keeps for a label. -/
def nameOf (u : Session) (label : Label) : Expr :=
  .name ((u.names.find? label).getD "")

/-- The identifier that the session keeps for a function. -/
def functionOf (u : Session) (f : FunctionText) : Expr :=
  .name ((u.functions.identifier? f.preferred).getD "")

end Session

namespace Expr

def zero : Expr := .numeral "0"

def empty : Expr := .text "''"

def notANumber : Expr := .call (.name "float") [.text "'nan'"]

def infinity : Expr := .call (.name "float") [.text "'inf'"]

/-- A name of a module. -/
def of (source s : String) : Expr := .member (.name source) s

/-- The sum of a row, from the left. -/
def sum? : List Expr → Option Expr
  | [] => none
  | e :: es => some (es.foldl (.binary .plus) e)

end Expr

/-- A number in a program: a numeral, behind a sign if it is negative. -/
def Double.expr (d : Double) : Expr :=
  match d with
  | .nan => .notANumber
  | .infinite false => .infinity
  | .infinite true => .sign "-" .infinity
  | .finite .. => match d.literal.toList with
    | '-' :: cs => .sign "-" (.numeral (String.ofList cs))
    | _ => .numeral d.literal

namespace Scene

variable {n : Nat}

def arithmeticTrees : List (String × BinaryOp) :=
  [("ADD", .plus), ("MINUS", .minus), ("MULTIPLY", .times), ("DIVIDE", .divide), ("POWER", .power)]

def constantTrees : List (String × Expr) :=
  [("PI", .of "math" "pi"),
    ("E", .of "math" "e"),
    ("GOLDEN_RATIO", .binary .divide (.binary .plus (.numeral "1") (.call (.of "math" "sqrt") [.numeral "5"]))
      (.numeral "2")),
    ("SQRT2", .call (.of "math" "sqrt") [.numeral "2"]),
    ("SQRT1_2", .call (.of "math" "sqrt") [.binary .divide (.numeral "1.0") (.numeral "2")]),
    ("INFINITY", .infinity)]

def connectionTrees : List (String × Connection) :=
  [("AND", .both), ("OR", .either)]

/-- The operand that changes nothing. -/
def neutral : Connection → Expr
  | .both => .name "True"
  | .either => .name "False"

/-- A function of the library, which the tables give with its module. -/
def dotted (name : String) : Expr :=
  match Text.splitAt '.' name.toList with
  | [source, member] => .of (String.ofList source) (String.ofList member)
  | _ => .name name

def UnaryFunction.tree (x : Expr) : UnaryFunction → Expr
  | .negate => .sign "-" x
  | .powerOfTen => .binary .power (.numeral "10") x
  | .builtin name => .call (.name name) [x]
  | .library name => .call (dotted name) [x]
  | .ofDegrees name =>
    .call (dotted name) [.binary .times (.binary .divide x (.numeral "180.0")) (.of "math" "pi")]
  | .toDegrees name =>
    .binary .times (.binary .divide (.call (dotted name) [x]) (.of "math" "pi")) (.numeral "180")

/-- A method call without arguments on the object of a device. -/
def deviceCall (u : Session) (d : Device) (pin : Value) (method : String) : Expr :=
  .call (.member (u.nameOf ⟨.generated, .text (d.object ++ pin.toText)⟩) method) []

/-- What the block of a kind means, where its fields have a meaning: the operator tree over its operands. Where
there is no operand, a default stands. -/
def tree? (s : Scene n) (u : Session) (operand : String → Option Expr) : BlockKind → Option Expr
  | .number => match (s.block.fieldD "NUM" (.int 0)).toDouble with
    | .ok d => some d.expr
    | .error _ => none
  | .arithmetic => (s.compared? "OP" "ADD" arithmeticTrees).map fun op =>
      .binary op ((operand "A").getD .zero) ((operand "B").getD .zero)
  | .unary family => (s.compared? "OP" (defaultUnary family) unaryFunctions).map
      (UnaryFunction.tree ((operand "NUM").getD .zero))
  | .constant => s.compared? "CONSTANT" "PI" constantTrees
  | .property => (s.compared? "PROPERTY" "EVEN" numberProperties).map fun p =>
      let x := (operand "NUMBER_TO_CHECK").getD .zero
      match p with
      | .prime => .call (u.functionOf .isPrime) [x]
      | .comparison symbol => .compare x [(symbol, .zero)]
      | .remainder divisor result => .compare (.binary .modulo x (.numeral divisor)) [("==", .numeral result)]
      | .divisible => .compare (.binary .modulo x ((operand "DIVISOR").getD .zero)) [("==", .zero)]
  | .modulo => some (.binary .modulo ((operand "DIVIDEND").getD .zero) ((operand "DIVISOR").getD .zero))
  | .constrain => some (.call (.name "min")
      [.call (.name "max") [(operand "VALUE").getD .zero, (operand "LOW").getD .zero],
        (operand "HIGH").getD .infinity])
  | .randomWhole => some (.call (u.functionOf .randomWhole) [(operand "FROM").getD .zero, (operand "TO").getD .zero])
  | .randomFraction => some (.call (.of "random" "random") [])
  | .compare => (s.compared? "OP" "EQ" comparisons).map fun op =>
      .compare ((operand "A").getD .zero) [(op, (operand "B").getD .zero)]
  | .logic => (s.compared? "OP" "AND" connectionTrees).map fun c =>
      let missing := if (operand "A").isNone && (operand "B").isNone then .name "False" else neutral c
      .join c ((operand "A").getD missing) ((operand "B").getD missing)
  | .negate => some (.negate ((operand "BOOL").getD (.name "True")))
  | .boolean => (s.compared? "BOOL" "TRUE" [("TRUE", "True"), ("FALSE", "False")]).map .name
  | .null => some (.name "None")
  | .ternary => some (.conditional ((operand "THEN").getD (.name "None")) ((operand "IF").getD (.name "False"))
      ((operand "ELSE").getD (.name "None")))
  | .text => some (.text (Text.quote (s.block.fieldD "TEXT" (.text "")).toText))
  | .join => match s.pieceCount with
    | .ok count =>
      if count = 0 then some .empty
      else Expr.sum? ((List.range count.toNat).map fun k =>
        .call (.name "str") [(operand ("ADD" ++ toString k)).getD .empty])
    | .error _ => none
  | .length => some (.call (.name "len") [(operand "VALUE").getD .empty])
  | .isEmpty => some (.negate (.call (.name "len") [(operand "VALUE").getD .empty]))
  | .variableGet => some (u.nameOf ⟨.variable, s.block.fieldD Block.variableField (.text "x")⟩)
  | .cast => (s.compared? "VARIABLE_SETTYPE_TYPE" "NUMBER" casts).map fun function =>
      .call (.name function) [(operand "VARIABLE_SETTYPE_INPUT").getD .zero]
  | .rescale => some (.call (u.functionOf .mapRange)
      [(operand "NUM").getD .zero, .zero, .numeral "1024", .zero, (operand "DMAX").getD .zero])
  | .clockMillis => some (.call (.of "time" "ticks_ms") [])
  | .clockMicros => some (.call (.of "time" "ticks_us") [])
  | .callValue => match s.block.arguments with
    | .ok names => some (.call (u.nameOf ⟨.procedure, s.block.fieldD "NAME" (.text "procedure")⟩)
        ((List.range names.length).map fun k => (operand ("ARG" ++ toString k)).getD (.name "None")))
    | .error _ => none
  | .digitalRead => some (deviceCall u (.digital "IN") (s.pin "PIN") "value")
  | .level => (s.compared? "STATE" "HIGH" [("HIGH", "HIGH"), ("LOW", "LOW")]).map .name
  | .analogRead => some (deviceCall u .adc (s.pin "PIN") "read")
  | .pulse timeout => some (.call (.name "time_pulse_us")
      ([u.nameOf ⟨.generated, .text ((Device.digital "IN").object ++ (s.pin "PULSEPIN").toText)⟩,
          (operand "PULSETYPE").getD (.numeral "1")] ++
        if timeout then [(operand "TIMEOUT").getD (.numeral "1000000")] else []))
  | .servoRead => some (.call (.name "int")
      [.binary .divide (.binary .times
        (.binary .minus (deviceCall u .servo (s.pin "SERVO_PIN") "duty") (.numeral (toString dutyMin)))
        (.numeral (toString maxAngle))) (.numeral (toString dutySpan))])
  | _ => none

end Scene

/-- The operator tree of a block and what is plugged into it, with at most `depth` blocks inside each other. A
disabled block has none, and so has a block that is not translated. -/
def Job.treeWithin {n : Nat} (job : Job n) (u : Session) : Nat → Fin n → Option Expr
  | 0, _ => none
  | depth + 1, i =>
    let s := job.scene i
    if s.block.disabled then none
    else s.block.kind?.bind (s.tree? u fun name => (s.block.child? name).bind (job.treeWithin u depth))

/-- The operator tree of a block, with the identifiers that a session keeps. -/
def Job.tree {n : Nat} (job : Job n) (u : Session) (i : Fin n) : Option Expr :=
  job.treeWithin u n i

end BlockScript
