import BlockScript.Expression.Rank
import BlockScript.Value

namespace BlockScript.Value

mutual

/-- Whether a value is greater than another one. Numbers compare by value, texts by characters and
lists at the first place where they differ; nothing else compares. -/
def exceeds : Value → Value → Except Fault Bool
  | text s, text t => .ok (t < s)
  | list items, list others => exceedsItems items others
  | v, w => match v.number?, w.number? with
    | some a, some b => .ok (b.lt a)
    | _, _ => .error .unsuitable

def exceedsItems : List Value → List Value → Except Fault Bool
  | [], _ => .ok false
  | _ :: _, [] => .ok true
  | v :: vs, w :: ws => if v == w then exceedsItems vs ws else exceeds v w

end

/-- An expression in a slot, where the expression and both ranks are given as values. -/
def parenthesized (code inner outer : Value) : Except Fault Value := do
  if !code.isGiven then return code
  if ← inner.exceeds outer then return text ("(" ++ code.toText ++ ")")
  return code

theorem exceeds_int (inner outer : Int) :
    (int inner).exceeds (int outer) = .ok (Rank.needsParens inner outer) := by
  simp [exceeds, number?, Number.lt, Number.place?, Number.Place.lt, Rank.needsParens,
    Rat.intCast_lt_intCast]

theorem parenthesized_text (code : String) (inner outer : Int) :
    (text code).parenthesized (int inner) (int outer) =
      .ok (text (Rank.parenthesize code inner outer)) := by
  simp only [parenthesized, isGiven, exceeds_int, Rank.parenthesize, toText, bind, Except.bind, pure,
    Except.pure]
  by_cases h : code.isEmpty <;> cases Rank.needsParens inner outer <;> simp [h]

end BlockScript.Value
