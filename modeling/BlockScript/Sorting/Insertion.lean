namespace BlockScript

variable {α : Type}

/-- Inserts in front of the first member that does not stand before `a`. -/
def insertSorted (before : α → α → Bool) (a : α) : List α → List α
  | [] => [a]
  | b :: bs => if before b a then b :: insertSorted before a bs else a :: b :: bs

/-- Sorts by an order; members of which none stands before the other keep their places. -/
def stableSort (before : α → α → Bool) : List α → List α
  | [] => []
  | a :: as => insertSorted before a (stableSort before as)

theorem insertSorted_perm (before : α → α → Bool) (a : α) (as : List α) :
    (insertSorted before a as).Perm (a :: as) := by
  induction as with
  | nil => exact .refl _
  | cons b bs ih =>
    simp only [insertSorted]
    split
    · exact (ih.cons b).trans (.swap a b bs)
    · exact .refl _

theorem stableSort_perm (before : α → α → Bool) (as : List α) :
    (stableSort before as).Perm as := by
  induction as with
  | nil => exact .refl _
  | cons a as ih => exact (insertSorted_perm before a _).trans (ih.cons a)

@[simp] theorem mem_stableSort (before : α → α → Bool) (as : List α) (a : α) :
    a ∈ stableSort before as ↔ a ∈ as :=
  (stableSort_perm before as).mem_iff

end BlockScript
