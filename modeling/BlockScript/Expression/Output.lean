import BlockScript.Expression.Rank

namespace BlockScript

/-- What the rule of a block gives: whole lines, an expression with the rank of its outermost
operator, or nothing at the place of the block. -/
inductive Output where
  | statement (code : String)
  | expression (code : String) (rank : Rank)
  | nothing
deriving DecidableEq, Inhabited

namespace Output

def code : Output → String
  | statement code => code
  | expression code _ => code
  | nothing => ""

/-- The lines of a block without a block around it. A value stands on a line of its own. -/
def topLines : Output → String
  | statement code => code
  | expression code _ => if code.isEmpty then "" else code ++ "\n"
  | nothing => ""

/-- A value block that is not written out. -/
def blankValue : Output := expression "" OperatorClass.atomic.rank

/-- A statement block that is not written out. -/
def blankLine : Output := statement ""

/-- An expression whose outermost operator is of class `c`. -/
def ofClass (code : String) (c : OperatorClass) : Output :=
  expression code c.rank

def atom (code : String) : Output := ofClass code .atomic

def call (code : String) : Output := ofClass code .functionCall

end Output

end BlockScript
