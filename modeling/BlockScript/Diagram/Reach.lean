import BlockScript.Diagram.Basic

namespace BlockScript.Diagram

variable {n : Nat}

def childrenOf (d : Diagram n) (i : Fin n) : List (Fin n) :=
  (d.block i).children.map (·.2)

/-- Takes the first unseen block from the stack and puts its children there instead, at most
`count` times. -/
def visit (d : Diagram n) : Nat → List (Fin n) → List (Fin n) → List (Fin n)
  | 0, _, _ => []
  | count + 1, seen, stack =>
    match stack.dropWhile seen.contains with
    | [] => []
    | i :: stack => i :: d.visit count (i :: seen) (d.childrenOf i ++ stack)

theorem not_mem_visit (d : Diagram n) (count : Nat) (seen stack : List (Fin n)) (i : Fin n)
    (h : i ∈ seen) : i ∉ d.visit count seen stack := by
  induction count generalizing seen stack with
  | zero => simp [visit]
  | succ count ih =>
    simp only [visit]
    cases hd : stack.dropWhile seen.contains with
    | nil => simp
    | cons j rest =>
      have hj : j ∉ seen := by
        have hn : stack.dropWhile seen.contains ≠ [] := by simp [hd]
        have := List.head_dropWhile_not seen.contains hn
        simpa [hd] using this
      have hi : i ≠ j := fun he => hj (he ▸ h)
      simpa [hi] using ih (j :: seen) _ (List.mem_cons_of_mem _ h)

theorem nodup_visit (d : Diagram n) (count : Nat) (seen stack : List (Fin n)) :
    (d.visit count seen stack).Nodup := by
  induction count generalizing seen stack with
  | zero => simp [visit]
  | succ count ih =>
    simp only [visit]
    split
    · exact .nil
    · exact List.nodup_cons.mpr ⟨d.not_mem_visit _ _ _ _ (by simp), ih _ _⟩

/-- The block and everything that hangs below it, depth first. Every step takes another block, so
there are at most as many steps as blocks. -/
def descendants (d : Diagram n) (i : Fin n) : List (Fin n) :=
  d.visit n [] [i]

/-- The comments at a block and below it, each on lines of its own. -/
def nestedComments (d : Diagram n) (i : Fin n) : String :=
  match (d.descendants i).filterMap fun j => (d.block j).comment? with
  | [] => ""
  | comments => Text.joined "\n" comments ++ "\n"

end BlockScript.Diagram
