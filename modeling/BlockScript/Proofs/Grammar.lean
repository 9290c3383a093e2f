import BlockScript.Expression.Rank
import BlockScript.Settings

namespace BlockScript

inductive Token where
  | word (s : String)
  | numeral (s : String)
  | text (s : String)
  | symbol (s : String)
deriving DecidableEq

/-- The level of the phrases whose outermost operator is of class `c`. -/
def OperatorClass.level (c : OperatorClass) : Nat :=
  c.rank.toNat

/-- The operators between two operands. -/
inductive BinaryOp where
  | power
  | times
  | divide
  | floorDivide
  | modulo
  | plus
  | minus
  | shiftLeft
  | shiftRight
  | bitAnd
  | bitXor
  | bitOr
deriving DecidableEq

namespace BinaryOp

def symbol : BinaryOp → String
  | power => "**"
  | times => "*"
  | divide => "/"
  | floorDivide => "//"
  | modulo => "%"
  | plus => "+"
  | minus => "-"
  | shiftLeft => "<<"
  | shiftRight => ">>"
  | bitAnd => "&"
  | bitXor => "^"
  | bitOr => "|"

def kind : BinaryOp → OperatorClass
  | power => .exponentiation
  | times | divide | floorDivide | modulo => .multiplicative
  | plus | minus => .additive
  | shiftLeft | shiftRight => .bitwiseShift
  | bitAnd => .bitwiseAnd
  | bitXor => .bitwiseXor
  | bitOr => .bitwiseOr

/-- The level of the left operand: all operators but the power group to the left. -/
def left : BinaryOp → Nat
  | power => OperatorClass.functionCall.level
  | op => op.kind.level

/-- The level of the right operand. A power takes a sign there. -/
def right : BinaryOp → Nat
  | power => OperatorClass.unarySign.level
  | op => op.kind.level - 1

def all : List BinaryOp :=
  [power, times, divide, floorDivide, modulo, plus, minus, shiftLeft, shiftRight, bitAnd, bitXor, bitOr]

end BinaryOp

inductive Connection where
  | both
  | either
deriving DecidableEq

namespace Connection

def word : Connection → String
  | both => "and"
  | either => "or"

def kind : Connection → OperatorClass
  | both => .logicalAnd
  | either => .logicalOr

end Connection

/-- An expression of the emitted language. Comparisons chain, and a connection has all its operands in one
row. -/
inductive Expr where
  | name (s : String)
  | numeral (s : String)
  | text (s : String)
  | member (e : Expr) (s : String)
  | call (f : Expr) (args : List Expr)
  | binary (op : BinaryOp) (a b : Expr)
  | sign (s : String) (e : Expr)
  | compare (a : Expr) (rest : List (String × Expr))
  | negate (e : Expr)
  | connect (c : Connection) (operands : List Expr)
  | conditional (value condition other : Expr)

def signs : List String := ["-", "+", "~"]

def comparisonSymbols : List String := ["<", ">", "==", "!=", "<=", ">="]

/-- A word that stands for a value: no keyword but one that names a constant. -/
def IsOperand (s : String) : Prop :=
  s ∉ keywords ∨ s ∈ ["False", "None", "True"]

instance (s : String) : Decidable (IsOperand s) :=
  inferInstanceAs (Decidable (_ ∨ _))

def listed : List (List Token) → List Token
  | [] => []
  | [ts] => ts
  | ts :: us :: rest => ts ++ .symbol "," :: listed (us :: rest)

def chained (c : Connection) (tss : List (List Token)) : List Token :=
  tss.flatMap fun ts => .word c.word :: ts

def compared (items : List (String × List Token × Expr)) : List Token :=
  items.flatMap fun p => .symbol p.1 :: p.2.1

/-- The phrases of each level. -/
inductive Derives : Nat → List Token → Expr → Prop where
  | name {s : String} : IsOperand s → Derives 0 [.word s] (.name s)
  | numeral (s : String) : Derives 0 [.numeral s] (.numeral s)
  | text (s : String) : Derives 0 [.text s] (.text s)
  | group {ts : List Token} {e : Expr} : Derives OperatorClass.conditional.level ts e →
      Derives 0 (.symbol "(" :: (ts ++ [.symbol ")"])) e
  | member {ts : List Token} {e : Expr} {s : String} : Derives OperatorClass.member.level ts e → s ∉ keywords →
      Derives OperatorClass.member.level (ts ++ [.symbol ".", .word s]) (.member e s)
  | call {ts : List Token} {f : Expr} (items : List (List Token × Expr)) :
      Derives OperatorClass.functionCall.level ts f →
      (∀ p ∈ items, Derives OperatorClass.conditional.level p.1 p.2) →
      Derives OperatorClass.functionCall.level
        (ts ++ .symbol "(" :: (listed (items.map (·.1)) ++ [.symbol ")"])) (.call f (items.map (·.2)))
  | binary (op : BinaryOp) {ts us : List Token} {a b : Expr} : Derives op.left ts a → Derives op.right us b →
      Derives op.kind.level (ts ++ .symbol op.symbol :: us) (.binary op a b)
  | sign {s : String} {ts : List Token} {e : Expr} : s ∈ signs → Derives OperatorClass.unarySign.level ts e →
      Derives OperatorClass.unarySign.level (.symbol s :: ts) (.sign s e)
  | compare {ts : List Token} {a : Expr} (items : List (String × List Token × Expr)) :
      Derives OperatorClass.bitwiseOr.level ts a → items ≠ [] →
      (∀ p ∈ items, p.1 ∈ comparisonSymbols) → (∀ p ∈ items, Derives OperatorClass.bitwiseOr.level p.2.1 p.2.2) →
      Derives OperatorClass.relational.level (ts ++ compared items) (.compare a (items.map fun p => (p.1, p.2.2)))
  | negate {ts : List Token} {e : Expr} : Derives OperatorClass.logicalNot.level ts e →
      Derives OperatorClass.logicalNot.level (.word "not" :: ts) (.negate e)
  | connect (c : Connection) {ts : List Token} {a : Expr} (items : List (List Token × Expr)) :
      Derives (c.kind.level - 1) ts a → items ≠ [] → (∀ p ∈ items, Derives (c.kind.level - 1) p.1 p.2) →
      Derives c.kind.level (ts ++ chained c (items.map (·.1))) (.connect c (a :: items.map (·.2)))
  | conditional {ts us vs : List Token} {a c b : Expr} : Derives OperatorClass.logicalOr.level ts a →
      Derives OperatorClass.logicalOr.level us c → Derives OperatorClass.conditional.level vs b →
      Derives OperatorClass.conditional.level (ts ++ .word "if" :: (us ++ .word "else" :: vs)) (.conditional a c b)
  | looser {r : Nat} {ts : List Token} {e : Expr} : Derives r ts e → Derives (r + 1) ts e

theorem Derives.mono {q r : Nat} {ts : List Token} {e : Expr} (h : Derives q ts e) (hr : q ≤ r) :
    Derives r ts e := by
  induction hr with
  | refl => exact h
  | step _ ih => exact ih.looser

/-- The loosest phrases are those of a condition. -/
theorem Derives.tighten {r : Nat} {ts : List Token} {e : Expr} (h : Derives r ts e) :
    Derives OperatorClass.conditional.level ts e := by
  have hbound : r ≤ OperatorClass.conditional.level ∨ Derives OperatorClass.conditional.level ts e := by
    induction h with
    | binary op _ _ _ _ => exact Or.inl (by cases op <;> decide)
    | connect c _ _ _ _ _ _ => exact Or.inl (by cases c <;> decide)
    | looser h ih =>
      obtain hr | hd := ih
      · exact Or.inr (h.mono hr)
      · exact Or.inr hd
    | _ => exact Or.inl (by decide)
  obtain hr | hd := hbound
  · exact h.mono hr
  · exact hd

end BlockScript
