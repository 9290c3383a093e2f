import BlockScript.Sorting.Insertion

namespace BlockScript

/-- How loosely the outermost operator of an expression binds. -/
abbrev Rank := Int

/-- The classes of operators, from the tightest to the loosest. -/
inductive OperatorClass where
  | atomic
  | collection
  | stringConversion
  | member
  | functionCall
  | exponentiation
  | unarySign
  | bitwiseNot
  | multiplicative
  | additive
  | bitwiseShift
  | bitwiseAnd
  | bitwiseXor
  | bitwiseOr
  | relational
  | logicalNot
  | logicalAnd
  | logicalOr
  | conditional
  | lambda
  | none
deriving DecidableEq, Inhabited

namespace OperatorClass

def rank : OperatorClass → Rank
  | atomic => 0
  | collection => 1
  | stringConversion => 1
  | member => 2
  | functionCall => 2
  | exponentiation => 3
  | unarySign => 4
  | bitwiseNot => 4
  | multiplicative => 5
  | additive => 6
  | bitwiseShift => 7
  | bitwiseAnd => 8
  | bitwiseXor => 9
  | bitwiseOr => 10
  | relational => 11
  | logicalNot => 12
  | logicalAnd => 13
  | logicalOr => 14
  | conditional => 15
  | lambda => 16
  | none => 99

def name : OperatorClass → String
  | atomic => "ATOMIC"
  | collection => "COLLECTION"
  | stringConversion => "STRING_CONVERSION"
  | member => "MEMBER"
  | functionCall => "FUNCTION_CALL"
  | exponentiation => "EXPONENTIATION"
  | unarySign => "UNARY_SIGN"
  | bitwiseNot => "BITWISE_NOT"
  | multiplicative => "MULTIPLICATIVE"
  | additive => "ADDITIVE"
  | bitwiseShift => "BITWISE_SHIFT"
  | bitwiseAnd => "BITWISE_AND"
  | bitwiseXor => "BITWISE_XOR"
  | bitwiseOr => "BITWISE_OR"
  | relational => "RELATIONAL"
  | logicalNot => "LOGICAL_NOT"
  | logicalAnd => "LOGICAL_AND"
  | logicalOr => "LOGICAL_OR"
  | conditional => "CONDITIONAL"
  | lambda => "LAMBDA"
  | none => "NONE"

def all : List OperatorClass :=
  [atomic, collection, stringConversion, member, functionCall, exponentiation, unarySign,
    bitwiseNot, multiplicative, additive, bitwiseShift, bitwiseAnd, bitwiseXor, bitwiseOr,
    relational, logicalNot, logicalAnd, logicalOr, conditional, lambda, none]

/-- The ranks by name, in the order of the names. -/
def table : List (String × Rank) :=
  stableSort (fun a b => decide (a.1 < b.1)) (all.map fun c => (c.name, c.rank))

end OperatorClass

namespace Rank

/-- A slot takes an expression as it is unless it binds looser than the slot allows. -/
def needsParens (inner outer : Rank) : Bool :=
  outer < inner

/-- The text of an expression in a slot. -/
def parenthesize (code : String) (inner outer : Rank) : String :=
  if !code.isEmpty && needsParens inner outer then "(" ++ code ++ ")" else code

end Rank

end BlockScript
