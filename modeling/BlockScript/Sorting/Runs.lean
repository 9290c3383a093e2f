import BlockScript.Sorting.Merge

namespace BlockScript

variable {α : Type}

/-- Splits a list behind the members that each follow the one in front of it. -/
def spanChain (follows : α → α → Bool) (last : α) : List α → List α × List α
  | [] => ([], [])
  | a :: as =>
    if follows last a then
      let (chain, rest) := spanChain follows a as
      (a :: chain, rest)
    else ([], a :: as)

/-- The run that a list begins with, and the rest. A run that goes down is turned round. -/
def firstRun (before : α → α → Bool) : List α → List α × List α
  | a :: b :: as =>
    if before b a then
      let (chain, rest) := spanChain (fun c d => before d c) b as
      ((a :: b :: chain).reverse, rest)
    else
      let (chain, rest) := spanChain (fun c d => !before d c) b as
      (a :: b :: chain, rest)
  | as => (as, [])

/-- Inserts a member in front of those that it stands before, which are found by halving. -/
def insertHalving (before : α → α → Bool) (a : α) (as : List α) : List α :=
  let place := halve .forward (before a) as as.length 0 as.length
  as.take place ++ a :: as.drop place

/-- Makes a run longer by `count` members of the rest. -/
def extendRun (before : α → α → Bool) : Nat → List α → List α → List α × List α
  | count + 1, run, a :: rest => extendRun before count (insertHalving before a run) rest
  | _, run, rest => (run, rest)

/-- Splits a list into runs of `least` members or more; only the last one may be shorter. -/
def splitRuns (before : α → α → Bool) (least : Nat) : Nat → List α → List (List α)
  | 0, as => [as]
  | _, [] => []
  | count + 1, as =>
    let (run, rest) := firstRun before as
    let (run, rest) := extendRun before (least - run.length) run rest
    run :: splitRuns before least count rest

/-- Halves `size` until it is below 64, rounding up if a one was cut off. -/
def leastRun : Nat → Nat → Nat → Nat
  | 0, size, odd => size + odd
  | count + 1, size, odd =>
    if size < 64 then size + odd else leastRun count (size / 2) (max odd (size % 2))

/-- The first binary place in which the middles of two neighbouring runs differ, as parts of `size`;
`a` and `b` are twice these middles. -/
def splitDepth (size : Nat) : Nat → Nat → Nat → Nat
  | 0, _, _ => 0
  | count + 1, a, b =>
    if size ≤ a then splitDepth size count (2 * (a - size)) (2 * (b - size)) + 1
    else if size ≤ b then 1
    else splitDepth size count (2 * a) (2 * b) + 1

/-- A run that waits to be merged with the one behind it, and how deep the border between them is. -/
structure WaitingRun (α : Type) where
  run : List α
  depth : Nat

/-- Merges a run with those in front of it whose border is deeper than `depth`. -/
def mergeDeeper (before : α → α → Bool) (depth : Nat) :
    List (WaitingRun α) → List α → Nat → List α × List (WaitingRun α) × Nat
  | [], run, patience => (run, [], patience)
  | w :: waiting, run, patience =>
    if depth < w.depth then
      let (run, patience) := mergeRuns before w.run run patience
      mergeDeeper before depth waiting run patience
    else (run, w :: waiting, patience)

/-- Merges what is left, the last run first. Of three runs, the middle one goes to the shorter
neighbour. -/
def mergeAll (before : α → α → Bool) : Nat → List (List α) → Nat → List α
  | count + 1, c :: b :: a :: runs, patience =>
    if a.length < c.length then
      let (run, patience) := mergeRuns before a b patience
      mergeAll before count (c :: run :: runs) patience
    else
      let (run, patience) := mergeRuns before b c patience
      mergeAll before count (run :: a :: runs) patience
  | _ + 1, [b, a], patience => (mergeRuns before a b patience).1
  | _, runs, _ => runs.reverse.flatten

/-- Merges the runs of a list of `size` members; `run` is the one that begins at `start`. -/
def mergeInOrder (before : α → α → Bool) (size : Nat) :
    List (List α) → Nat → List α → List (WaitingRun α) → Nat → List α
  | [], _, run, waiting, patience =>
    mergeAll before (waiting.length + 1) (run :: waiting.map (·.run)) patience
  | next :: runs, start, run, waiting, patience =>
    let middle := 2 * start + run.length
    let depth := splitDepth size size middle (middle + run.length + next.length)
    let (merged, waiting, patience) := mergeDeeper before depth waiting run patience
    mergeInOrder before size runs (start + run.length) next (⟨merged, depth⟩ :: waiting) patience

/-- Sorts by merging runs that are there already. Members of which none stands before the other keep
their places. Where the order is none, the places depend on which members are compared, and these are
the ones that this way of merging compares. -/
def runSort (before : α → α → Bool) (as : List α) : List α :=
  match splitRuns before (leastRun as.length as.length 0) as.length as with
  | [] => []
  | run :: runs => mergeInOrder before as.length runs 0 run [] worthyLeap

theorem spanChain_append (follows : α → α → Bool) (last : α) (as : List α) :
    (spanChain follows last as).1 ++ (spanChain follows last as).2 = as := by
  induction as generalizing last with
  | nil => rfl
  | cons a as ih =>
    simp only [spanChain]
    split
    · simp [ih]
    · rfl

theorem firstRun_perm (before : α → α → Bool) (as : List α) :
    ((firstRun before as).1 ++ (firstRun before as).2).Perm as := by
  unfold firstRun
  split
  · split
    · refine ((List.reverse_perm _).append_right _).trans ?_
      simp only [List.cons_append, spanChain_append]
      exact .refl _
    · simp only [List.cons_append, spanChain_append]
      exact .refl _
  · simp

theorem insertHalving_perm (before : α → α → Bool) (a : α) (as : List α) :
    (insertHalving before a as).Perm (a :: as) := by
  simp only [insertHalving]
  refine List.perm_middle.trans ?_
  rw [List.take_append_drop]

theorem extendRun_perm (before : α → α → Bool) (count : Nat) (run rest : List α) :
    ((extendRun before count run rest).1 ++ (extendRun before count run rest).2).Perm
      (run ++ rest) := by
  induction count generalizing run rest with
  | zero => exact .refl _
  | succ count ih =>
    cases rest with
    | nil => exact .refl _
    | cons a rest =>
      exact (ih _ _).trans
        (((insertHalving_perm before a run).append_right _).trans List.perm_middle.symm)

theorem splitRuns_perm (before : α → α → Bool) (least count : Nat) (as : List α) :
    (splitRuns before least count as).flatten.Perm as := by
  induction count generalizing as with
  | zero => simp [splitRuns]
  | succ count ih =>
    cases as with
    | nil => exact .refl _
    | cons a as =>
      simp only [splitRuns, List.flatten_cons]
      exact ((ih _).append_left _).trans
        ((extendRun_perm before _ _ _).trans (firstRun_perm before (a :: as)))

theorem mergeDeeper_perm (before : α → α → Bool) (depth : Nat) (waiting : List (WaitingRun α))
    (run : List α) (patience : Nat) :
    ((mergeDeeper before depth waiting run patience).1 ++
      ((mergeDeeper before depth waiting run patience).2.1.map (·.run)).flatten).Perm
      (run ++ (waiting.map (·.run)).flatten) := by
  induction waiting generalizing run patience with
  | nil => exact .refl _
  | cons w waiting ih =>
    simp only [mergeDeeper]
    split
    · refine (ih _ _).trans (((mergeRuns_perm ..).append_right _).trans ?_)
      simp only [List.map_cons, List.flatten_cons, ← List.append_assoc]
      exact List.perm_append_comm.append_right _
    · exact .refl _

theorem mergeAll_perm (before : α → α → Bool) (count : Nat) (runs : List (List α)) (patience : Nat) :
    (mergeAll before count runs patience).Perm runs.flatten := by
  fun_induction mergeAll before count runs patience with
  | case1 count c b a runs patience h run rest hm ih =>
    have hr : run.Perm (a ++ b) := by simpa [hm] using mergeRuns_perm before a b patience
    refine ih.trans ?_
    simp only [List.flatten_cons, ← List.append_assoc]
    refine ((hr.trans List.perm_append_comm).append_left c).append_right _ |>.trans ?_
    simp
  | case2 count c b a runs patience h run rest hm ih =>
    have hr : run.Perm (b ++ c) := by simpa [hm] using mergeRuns_perm before b c patience
    refine ih.trans ?_
    simp only [List.flatten_cons, ← List.append_assoc]
    exact ((hr.trans List.perm_append_comm).append_right a).append_right _
  | case3 count b a patience =>
    simpa using (mergeRuns_perm before a b patience).trans List.perm_append_comm
  | case4 count runs patience => exact (List.reverse_perm runs).flatten

theorem mergeInOrder_perm (before : α → α → Bool) (size : Nat) (runs : List (List α)) (start : Nat)
    (run : List α) (waiting : List (WaitingRun α)) (patience : Nat) :
    (mergeInOrder before size runs start run waiting patience).Perm
      (runs.flatten ++ (run ++ (waiting.map (·.run)).flatten)) := by
  induction runs generalizing start run waiting patience with
  | nil => exact mergeAll_perm before _ _ _
  | cons next runs ih =>
    simp only [mergeInOrder]
    refine (ih _ _ _ _).trans ?_
    simp only [List.map_cons, List.flatten_cons]
    refine (((mergeDeeper_perm ..).append_left _).append_left _).trans ?_
    rw [← List.append_assoc]
    exact List.perm_append_comm.append_right _

/-- Sorting only moves members. -/
theorem runSort_perm (before : α → α → Bool) (as : List α) : (runSort before as).Perm as := by
  unfold runSort
  have h := splitRuns_perm before (leastRun as.length as.length 0) as.length as
  split
  · next hr => simpa [hr] using h
  · next run runs hr =>
    rw [hr] at h
    refine (mergeInOrder_perm ..).trans (List.Perm.trans ?_ h)
    simpa using List.perm_append_comm

@[simp] theorem mem_runSort (before : α → α → Bool) (as : List α) (a : α) :
    a ∈ runSort before as ↔ a ∈ as :=
  (runSort_perm before as).mem_iff

end BlockScript
