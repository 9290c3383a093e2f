namespace BlockScript

variable {α : Type}

/-- The side from which a list is searched. -/
inductive Direction where
  | forward
  | backward
deriving DecidableEq

/-- The middle of a gap; of two members in the middle, the one that is later from the front. -/
def Direction.half : Direction → Nat → Nat
  | forward, width => width / 2
  | backward, width => (width - 1) / 2

/-- The first place from `low` to `high` where to stop, by halving the gap at most `count` times. -/
def halve (d : Direction) (stop : α → Bool) (as : List α) : Nat → Nat → Nat → Nat
  | 0, _, high => high
  | count + 1, low, high =>
    if low < high then
      let middle := low + d.half (high - low)
      if (as[middle]?.map stop).getD true then halve d stop as count low middle
      else halve d stop as count (middle + 1) high
    else high

/-- Looks ahead in growing strides, at most `count` of them: the last place that was passed, and the
place where the strides ended. -/
def stride (stop : α → Bool) (as : List α) : Nat → Nat → Nat → Nat × Nat
  | 0, passed, place => (passed, place)
  | count + 1, passed, place =>
    if (as[place]?.map stop).getD true then (passed, place)
    else stride stop as count place (2 * place + 1)

/-- How many members stand in front of the first one where to stop, if the members where to stop come
last. Strides find a gap that is then halved. -/
def leap (d : Direction) (stop : α → Bool) (as : List α) : Nat :=
  if (as.head?.map stop).getD true then 0
  else
    let (passed, place) := stride stop as as.length 0 1
    halve d stop as as.length (passed + 1) (min place as.length)

end BlockScript
