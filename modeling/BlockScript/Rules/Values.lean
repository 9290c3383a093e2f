import BlockScript.Rules.FunctionTexts
import BlockScript.Emission.Scene

namespace BlockScript

variable {n : Nat}

namespace Scene

def function (s : Scene n) (h : FunctionText) : Run String :=
  s.provide h.preferred h.lines

/-- A number that starts with a sign binds like one. -/
def signedOutput (code : String) : Output :=
  Output.ofClass code (if code.toList.head? = some '-' then .unarySign else .atomic)

def number (s : Scene n) : Run Output := do
  match (s.block.fieldD "NUM" (.int 0)).toDouble with
  | .ok d => return signedOutput d.literal
  | .error f => throw f

/-- An operator between two numbers, its class, and the loosest ranks of its operands. -/
structure BinaryOperator where
  symbol : String
  kind : OperatorClass
  left : Rank
  right : Rank

/-- Operators of a class group to the left. -/
def BinaryOperator.leftward (symbol : String) (kind : OperatorClass) : BinaryOperator :=
  ⟨symbol, kind, kind.rank, kind.rank - 1⟩

/-- Powers group to the right and bind tighter than a sign on their left. -/
def arithmeticOperators : List (String × BinaryOperator) :=
  [("ADD", .leftward " + " .additive),
    ("MINUS", .leftward " - " .additive),
    ("MULTIPLY", .leftward " * " .multiplicative),
    ("DIVIDE", .leftward " / " .multiplicative),
    ("POWER", ⟨" ** ", .exponentiation, OperatorClass.functionCall.rank,
      OperatorClass.unarySign.rank⟩)]

def arithmetic (s : Scene n) : Run Output := do
  let op ← s.select "OP" "ADD" arithmeticOperators
  let left ← s.valueAt "A" op.left "0"
  let right ← s.valueAt "B" op.right "0"
  return Output.ofClass (left ++ op.symbol ++ right) op.kind

/-- A function of one number. -/
inductive UnaryFunction where
  | negate
  | powerOfTen
  | builtin (name : String)
  | library (name : String)
  /-- Takes degrees. -/
  | ofDegrees (name : String)
  /-- Gives degrees. -/
  | toDegrees (name : String)

def unaryFunctions : List (String × UnaryFunction) :=
  [("NEG", .negate),
    ("POW10", .powerOfTen),
    ("ABS", .builtin "abs"),
    ("ROUND", .builtin "round"),
    ("ROOT", .library "math.sqrt"),
    ("LN", .library "math.log"),
    ("LOG10", .library "math.log10"),
    ("EXP", .library "math.exp"),
    ("ROUNDUP", .library "math.ceil"),
    ("ROUNDDOWN", .library "math.floor"),
    ("SIN", .ofDegrees "math.sin"),
    ("COS", .ofDegrees "math.cos"),
    ("TAN", .ofDegrees "math.tan"),
    ("ASIN", .toDegrees "math.asin"),
    ("ACOS", .toDegrees "math.acos"),
    ("ATAN", .toDegrees "math.atan")]

def defaultUnary : UnaryFamily → String
  | .single => "ROOT"
  | .round => "ROUND"
  | .trig => "SIN"

def unary (s : Scene n) (family : UnaryFamily) : Run Output := do
  let argument (outer : OperatorClass) := s.value "NUM" outer "0"
  match ← s.select "OP" (defaultUnary family) unaryFunctions with
  | .negate => return Output.ofClass ("-" ++ (← argument .unarySign)) .unarySign
  | .powerOfTen => return Output.ofClass ("10 ** " ++ (← argument .unarySign)) .exponentiation
  | .builtin name => return Output.call (name ++ "(" ++ (← argument .none) ++ ")")
  | .library name =>
    let arg ← argument .none
    let _ ← Run.importModule "math"
    return Output.call (name ++ "(" ++ arg ++ ")")
  | .ofDegrees name =>
    let arg ← argument .multiplicative
    let _ ← Run.importModule "math"
    return Output.call (name ++ "(" ++ arg ++ " / 180.0 * math.pi)")
  | .toDegrees name =>
    let arg ← argument .none
    let _ ← Run.importModule "math"
    return Output.ofClass (name ++ "(" ++ arg ++ ") / math.pi * 180") .multiplicative

/-- A known number: its text, its class, and whether it needs the library. -/
structure NamedNumber where
  code : String
  kind : OperatorClass
  fromLibrary : Bool := true

def namedNumbers : List (String × NamedNumber) :=
  [("PI", { code := "math.pi", kind := .member }),
    ("E", { code := "math.e", kind := .member }),
    ("GOLDEN_RATIO", { code := "(1 + math.sqrt(5)) / 2", kind := .multiplicative }),
    ("SQRT2", { code := "math.sqrt(2)", kind := .member }),
    ("SQRT1_2", { code := "math.sqrt(1.0 / 2)", kind := .member }),
    ("INFINITY", { code := "float('inf')", kind := .atomic, fromLibrary := false })]

def constant (s : Scene n) : Run Output := do
  let c ← s.select "CONSTANT" "PI" namedNumbers
  if c.fromLibrary then
    let _ ← Run.importModule "math"
  return Output.ofClass c.code c.kind

/-- What a number is asked for. -/
inductive NumberProperty where
  | prime
  | comparison (symbol : String)
  | remainder (divisor result : String)
  | divisible

def numberProperties : List (String × NumberProperty) :=
  [("PRIME", .prime),
    ("POSITIVE", .comparison ">"),
    ("NEGATIVE", .comparison "<"),
    ("EVEN", .remainder "2" "0"),
    ("ODD", .remainder "2" "1"),
    ("WHOLE", .remainder "1" "0"),
    ("DIVISIBLE_BY", .divisible)]

/-- The rank of a right operand of `%`. -/
def divisorRank : Rank := OperatorClass.multiplicative.rank - 1

def remainderTest (number divisor result : String) : Output :=
  Output.ofClass (number ++ " % " ++ divisor ++ " == " ++ result) .relational

/-- An unknown property is a fault, but one that comes after those of the number. -/
def property (s : Scene n) : Run Output := do
  let number (outer : OperatorClass) := s.value "NUMBER_TO_CHECK" outer "0"
  match s.compared? "PROPERTY" "EVEN" numberProperties with
  | some .prime =>
    let x ← number .none
    let _ ← Run.importModule "math"
    return Output.call ((← s.function .isPrime) ++ "(" ++ x ++ ")")
  | some (.comparison symbol) =>
    return Output.ofClass ((← number .bitwiseOr) ++ " " ++ symbol ++ " 0") .relational
  | some (.remainder divisor result) =>
    return remainderTest (← number .multiplicative) divisor result
  | some .divisible =>
    let x ← number .multiplicative
    return remainderTest x (← s.valueAt "DIVISOR" divisorRank "0") "0"
  | none =>
    let _ ← number .multiplicative
    throw (s.unknownValue "PROPERTY" (s.block.fieldD "PROPERTY" (.text "EVEN")))

def modulo (s : Scene n) : Run Output := do
  let dividend ← s.value "DIVIDEND" .multiplicative "0"
  let divisor ← s.valueAt "DIVISOR" divisorRank "0"
  return Output.ofClass (dividend ++ " % " ++ divisor) .multiplicative

def constrain (s : Scene n) : Run Output := do
  let value ← s.value "VALUE" .none "0"
  let low ← s.value "LOW" .none "0"
  let high ← s.value "HIGH" .none "float('inf')"
  return Output.call ("min(max(" ++ value ++ ", " ++ low ++ "), " ++ high ++ ")")

def randomWhole (s : Scene n) : Run Output := do
  let _ ← Run.importModule "random"
  let low ← s.value "FROM" .none "0"
  let high ← s.value "TO" .none "0"
  let function ← s.function .randomWhole
  return Output.call (function ++ "(" ++ low ++ ", " ++ high ++ ")")

def randomFraction : Run Output := do
  let _ ← Run.importModule "random"
  return Output.call "random.random()"

def rescale (s : Scene n) : Run Output := do
  let value ← s.value "NUM" .none "0"
  let top ← s.value "DMAX" .none "0"
  let function ← s.function .mapRange
  return Output.call (function ++ "(" ++ value ++ ", 0, 1024, 0, " ++ top ++ ")")

def comparisons : List (String × String) :=
  [("EQ", "=="), ("NEQ", "!="), ("LT", "<"), ("LTE", "<="), ("GT", ">"), ("GTE", ">=")]

/-- Comparisons chain, so that no operand may be one. -/
def compare (s : Scene n) : Run Output := do
  let op ← s.select "OP" "EQ" comparisons
  let left ← s.value "A" .bitwiseOr "0"
  let right ← s.value "B" .bitwiseOr "0"
  return Output.ofClass (left ++ " " ++ op ++ " " ++ right) .relational

/-- A connective: its word, its class, and the operand that changes nothing. -/
structure Connective where
  word : String
  kind : OperatorClass
  neutral : String

def connectives : List (String × Connective) :=
  [("AND", ⟨"and", .logicalAnd, "True"⟩), ("OR", ⟨"or", .logicalOr, "False"⟩)]

/-- A single operand keeps its meaning; without operands the value is false. -/
def logic (s : Scene n) : Run Output := do
  let op ← s.compared "OP" "AND" connectives
  let left ← s.value "A" op.kind ""
  let right ← s.value "B" op.kind ""
  let missing := if left.isEmpty && right.isEmpty then "False" else op.neutral
  let operand (code : String) := if code.isEmpty then missing else code
  return Output.ofClass (operand left ++ " " ++ op.word ++ " " ++ operand right) op.kind

def negate (s : Scene n) : Run Output := do
  return Output.ofClass ("not " ++ (← s.value "BOOL" .logicalNot "True")) .logicalNot

def boolean (s : Scene n) : Run Output := do
  return Output.atom (← s.compared "BOOL" "TRUE" [("TRUE", "True"), ("FALSE", "False")])

def ternary (s : Scene n) : Run Output := do
  let condition ← s.value "IF" .logicalOr "False"
  let first ← s.value "THEN" .logicalOr "None"
  let second ← s.value "ELSE" .conditional "None"
  return Output.ofClass (first ++ " if " ++ condition ++ " else " ++ second) .conditional

def text (s : Scene n) : Run Output :=
  return Output.atom (Text.quote (s.block.fieldD "TEXT" (.text "")).toText)

/-- How many pieces are joined: as many as the shape says, or as there are slots for them. -/
def pieceCount (s : Scene n) : Except Fault Int := do
  let said ← ((s.block.shape.lookup "items").getD (.int 0)).toWhole
  if said = 0 then
    return ((s.block.slots.filter fun t => "ADD".toList.isPrefixOf t.name.toList).length : Int)
  else return said

def join (s : Scene n) : Run Output := do
  match s.pieceCount with
  | .error f => throw f
  | .ok count =>
    let pieces ← (List.range count.toNat).mapM fun k => do
      return "str(" ++ (← s.value ("ADD" ++ toString k) .none "''") ++ ")"
    if count = 0 then return Output.atom "''"
    else if count = 1 then return Output.call (Text.joined " + " pieces)
    else return Output.ofClass (Text.joined " + " pieces) .additive

def length (s : Scene n) : Run Output := do
  return Output.call ("len(" ++ (← s.value "VALUE" .none "''") ++ ")")

def isEmpty (s : Scene n) : Run Output := do
  return Output.ofClass ("not len(" ++ (← s.value "VALUE" .none "''") ++ ")") .logicalNot

/-- The variable that a block names. -/
def variableOf (s : Scene n) (default : String) : Run String :=
  Run.variableName (s.block.fieldD Block.variableField (.text default))

def variableGet (s : Scene n) : Run Output := do
  return Output.atom (← s.variableOf "x")

def casts : List (String × String) :=
  [("SHORT_NUMBER", "int"), ("NUMBER", "int"), ("LARGE_NUMBER", "int"), ("DECIMAL", "float"),
    ("TEXT", "str"), ("CHARACTER", "str"), ("BOOLEAN", "bool")]

def cast (s : Scene n) : Run Output := do
  let function ← s.select "VARIABLE_SETTYPE_TYPE" "NUMBER" casts
  return Output.call (function ++ "(" ++ (← s.value "VARIABLE_SETTYPE_INPUT" .none "0") ++ ")")

/-- The reading of a clock. -/
def clock (function : String) : Run Output := do
  let _ ← Run.importModule "time"
  return Output.call ("time." ++ function ++ "()")

end Scene

end BlockScript
