import BlockScript.Sorting.Leap

namespace BlockScript

variable {α : Type}

/-- What a merge does next. -/
inductive MergePhase where
  | opening
  | straight
  | leapShort
  | takeLong
  | leapLong
  | takeShort
  | review
deriving DecidableEq

/-- The first phase of a round of leaps. -/
def Direction.firstLeap : Direction → MergePhase
  | forward => .leapShort
  | backward => .leapLong

/-- The phase after `phase` in a round of leaps. -/
def Direction.after (d : Direction) (phase : MergePhase) : MergePhase :=
  match d, phase with
  | forward, .leapShort => .takeLong
  | forward, .takeLong => .leapLong
  | forward, .leapLong => .takeShort
  | backward, .leapLong => .takeShort
  | backward, .takeShort => .leapShort
  | backward, .leapShort => .takeLong
  | _, _ => .review

/-- A leap of this many members pays. -/
def worthyLeap : Nat := 7

/-- A merge of a short and a long side: how many members of each were taken lately, and how many in a
row it takes to begin with leaps. -/
structure Merge (α : Type) where
  short : List α
  long : List α
  phase : MergePhase := .opening
  shorts : Nat := 0
  longs : Nat := 0
  patience : Nat

namespace Merge

def members (m : Merge α) : List α :=
  m.short ++ m.long

/-- The members in their final order, once a side is used up. The last member of the short side
comes last. -/
def settled? (m : Merge α) : Option (List α) :=
  match m.short, m.long with
  | short, [] => some short
  | [], long => some long
  | [a], long => some (long ++ [a])
  | _, _ => none

/-- Takes the first member of the long side if it stands ahead, otherwise that of the short side. A
side that is taken from again and again is worth a leap. -/
def takeOne (d : Direction) (ahead : α → α → Bool) (m : Merge α) (a : α) (short : List α) (b : α)
    (long : List α) : List α × Merge α :=
  let phase (taken : Nat) := if m.patience ≤ taken then d.firstLeap else .straight
  if ahead b a then
    ([b], { m with long, shorts := 0, longs := m.longs + 1, phase := phase (m.longs + 1) })
  else
    ([a], { m with short, shorts := m.shorts + 1, longs := 0, phase := phase (m.shorts + 1) })

/-- Goes on with leaps as long as one of the last round was worth it. Every such round lowers the
patience, and giving up raises it. -/
def judge (d : Direction) (m : Merge α) : Merge α :=
  if worthyLeap ≤ m.shorts || worthyLeap ≤ m.longs then
    { m with phase := d.firstLeap, patience := if 1 < m.patience then m.patience - 1 else m.patience }
  else { m with phase := .straight, shorts := 0, longs := 0, patience := m.patience + 1 }

/-- The members that come next, and the merge of the others. -/
def step (d : Direction) (ahead : α → α → Bool) (m : Merge α) : List α × Merge α :=
  match m.short, m.long with
  | a :: short, b :: long =>
    match m.phase with
    | .opening => ([b], { m with long, phase := .straight })
    | .straight => m.takeOne d ahead a short b long
    | .leapShort =>
      let count := leap d (ahead b) m.short
      (m.short.take count,
        { m with short := m.short.drop count, shorts := count, phase := d.after m.phase })
    | .takeLong => ([b], { m with long, phase := d.after m.phase })
    | .leapLong =>
      let count := leap d (fun c => !ahead c a) m.long
      (m.long.take count,
        { m with long := m.long.drop count, longs := count, phase := d.after m.phase })
    | .takeShort => ([a], { m with short, phase := d.after m.phase })
    | .review => ([], m.judge d)
  | _, _ => ([], m)

/-- Takes steps until a side is used up, at most `count` of them: the members in order, and the
patience that is left. -/
def run (d : Direction) (ahead : α → α → Bool) : Nat → Merge α → List α × Nat
  | 0, m => (m.members, m.patience)
  | count + 1, m =>
    match m.settled? with
    | some as => (as, m.patience)
    | none =>
      let (as, rest) := m.step d ahead
      let (bs, patience) := rest.run d ahead count
      (as ++ bs, patience)

/-- A round of leaps has five steps and takes at least two members. -/
def stepLimit (m : Merge α) : Nat :=
  3 * m.members.length + 5

theorem settled?_perm {m : Merge α} {as : List α} (h : m.settled? = some as) :
    as.Perm m.members := by
  unfold settled? at h
  unfold members
  split at h
  · next h₂ => rw [h₂, List.append_nil]; injection h with h; exact h ▸ .refl _
  · next h₁ _ => rw [h₁, List.nil_append]; injection h with h; exact h ▸ .refl _
  · next h₁ _ => rw [h₁]; injection h with h; exact h ▸ List.perm_append_comm
  · cases h

theorem takeOne_perm (d : Direction) (ahead : α → α → Bool) (m : Merge α) {a b : α}
    {short long : List α} (hs : m.short = a :: short) (hl : m.long = b :: long) :
    ((m.takeOne d ahead a short b long).1 ++
      (m.takeOne d ahead a short b long).2.members).Perm m.members := by
  unfold takeOne
  dsimp only
  split <;> simp only [members, hs, hl]
  · exact (@List.perm_middle _ b (a :: short) long).symm
  · exact .refl _

theorem step_perm (d : Direction) (ahead : α → α → Bool) (m : Merge α) :
    ((m.step d ahead).1 ++ (m.step d ahead).2.members).Perm m.members := by
  unfold step
  split
  · next hs hl =>
    split
    · simp only [members, hs, hl]; exact (@List.perm_middle _ _ (_ :: _) _).symm
    · exact m.takeOne_perm d ahead hs hl
    · simp only [members, ← List.append_assoc, List.take_append_drop]; exact .refl _
    · simp only [members, hs, hl]; exact (@List.perm_middle _ _ (_ :: _) _).symm
    · simp only [members]
      rw [← List.append_assoc]
      refine (List.perm_append_comm.append_right _).trans ?_
      rw [List.append_assoc, List.take_append_drop]
    · simp only [members, hs, hl]; exact .refl _
    · unfold judge; split <;> exact .refl _
  · exact .refl _

theorem run_perm (d : Direction) (ahead : α → α → Bool) (count : Nat) (m : Merge α) :
    (m.run d ahead count).1.Perm m.members := by
  induction count generalizing m with
  | zero => exact .refl _
  | succ count ih =>
    simp only [run]
    split
    · next h => exact settled?_perm h
    · exact ((ih _).append_left _).trans (m.step_perm d ahead)

end Merge

/-- Merges two runs, beginning on the side of the shorter one: the members in order, and the patience
that is left. -/
def mergeSides (before : α → α → Bool) (as bs : List α) (patience : Nat) : List α × Nat :=
  if as.length ≤ bs.length then
    let m : Merge α := { short := as, long := bs, patience }
    m.run .forward before m.stepLimit
  else
    let m : Merge α := { short := bs.reverse, long := as.reverse, patience }
    let (cs, patience) := m.run .backward (fun a b => before b a) m.stepLimit
    (cs.reverse, patience)

/-- Merges two runs; the members in front of the second run and those behind the first one keep
their places. -/
def mergeRuns (before : α → α → Bool) (as bs : List α) (patience : Nat) : List α × Nat :=
  let front := (bs.head?.map fun b => leap .forward (before b) as).getD 0
  let back := ((as.drop front).getLast?.map fun a =>
    leap .backward (fun b => before b a) bs.reverse).getD 0
  let kept := bs.length - back
  let (middle, patience) := mergeSides before (as.drop front) (bs.take kept) patience
  (as.take front ++ middle ++ bs.drop kept, patience)

theorem mergeSides_perm (before : α → α → Bool) (as bs : List α) (patience : Nat) :
    (mergeSides before as bs patience).1.Perm (as ++ bs) := by
  unfold mergeSides
  split
  · exact Merge.run_perm ..
  · refine (List.reverse_perm _).trans ((Merge.run_perm ..).trans ?_)
    exact List.perm_append_comm.trans ((List.reverse_perm _).append (List.reverse_perm _))

theorem mergeRuns_perm (before : α → α → Bool) (as bs : List α) (patience : Nat) :
    (mergeRuns before as bs patience).1.Perm (as ++ bs) := by
  simp only [mergeRuns]
  refine (((mergeSides_perm ..).append_left _).append_right _).trans ?_
  rw [← List.append_assoc, List.take_append_drop, List.append_assoc, List.take_append_drop]

end BlockScript
