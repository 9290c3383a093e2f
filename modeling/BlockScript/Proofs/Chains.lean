import Mathlib.Data.Fintype.Pigeonhole
import Mathlib.Data.List.TakeWhile
import Mathlib.Logic.Relation
import BlockScript.Workspace.Basic

namespace BlockScript

section

variable {α : Type} {R : α → α → Prop}

/-- A relation from which one comes back to some member of a chain. -/
theorem circle_of_chain [Fintype α] (p : Nat → α) (h : ∀ k < Fintype.card α, R (p k) (p (k + 1))) :
    ∃ a, Relation.ReflTransGen R (p 0) a ∧ Relation.TransGen R a a := by
  have hreach : ∀ m k, m + k ≤ Fintype.card α → Relation.ReflTransGen R (p m) (p (m + k)) := by
    intro m k hk
    induction k with
    | zero => exact .refl
    | succ k ih => exact (ih (by omega)).tail (h (m + k) (by omega))
  obtain ⟨x, y, hne, hxy⟩ := Fintype.exists_ne_map_eq_of_card_lt
    (fun k : Fin (Fintype.card α + 1) => p k) (by simp)
  wlog hlt : x < y generalizing x y
  · exact this y x (Ne.symm hne) hxy.symm (lt_of_le_of_ne (not_lt.mp hlt) (Ne.symm hne))
  have hy := y.isLt
  refine ⟨p x, by simpa using hreach 0 x (by omega), ?_⟩
  have hstep : R (p x) (p (x + 1)) := h x (by omega)
  have hback := hreach (x + 1) (y - (x + 1)) (by omega)
  rw [show (x : Nat) + 1 + (y - (x + 1)) = y by omega, ← show p x = p y from hxy] at hback
  exact .head' hstep hback

theorem chain_of_descent {P : Nat → α → Prop} (h : ∀ d a, P (d + 1) a → ∃ b, R a b ∧ P d b) {d : Nat} {a : α}
    (ha : P d a) : ∃ p : Nat → α, p 0 = a ∧ ∀ k < d, R (p k) (p (k + 1)) := by
  induction d generalizing a with
  | zero => exact ⟨fun _ => a, rfl, by omega⟩
  | succ d ih =>
    obtain ⟨b, hab, hb⟩ := h d a ha
    obtain ⟨p, hp, hstep⟩ := ih hb
    refine ⟨fun k => k.casesOn a p, rfl, ?_⟩
    intro k hk
    cases k with
    | zero => simpa [hp] using hab
    | succ k => exact hstep k (by omega)

/-- What goes down as many steps as there are blocks comes to a circle. -/
theorem circle_of_descent {n : Nat} {R : Fin n → Fin n → Prop} {P : Nat → Fin n → Prop}
    (h : ∀ d i, P (d + 1) i → ∃ j, R i j ∧ P d j) {i : Fin n} (hi : P n i) :
    ∃ j, Relation.ReflTransGen R i j ∧ Relation.TransGen R j j := by
  obtain ⟨p, rfl, hp⟩ := chain_of_descent h hi
  exact circle_of_chain p (by simpa using hp)

end

namespace Diagram

variable {n : Nat} {d : Diagram n} {P : Fin n → Prop}

theorem visit_closed (hP : ∀ i, P i → ∀ j ∈ d.childrenOf i, P j) (count : Nat) {seen stack : List (Fin n)}
    (h : ∀ i ∈ stack, P i) : ∀ i ∈ d.visit count seen stack, P i := by
  induction count generalizing seen stack with
  | zero => simp [visit]
  | succ count ih =>
    intro i hi
    rw [visit] at hi
    split at hi
    · cases hi
    · rename_i j rest hrest
      have hsub : ∀ k ∈ j :: rest, P k := fun k hk =>
        h k ((List.dropWhile_suffix _).mem (hrest ▸ hk))
      obtain rfl | hi := List.mem_cons.mp hi
      · exact hsub i (by simp)
      · refine ih ?_ i hi
        intro k hk
        obtain hk | hk := List.mem_append.mp hk
        · exact hP j (hsub j (by simp)) k hk
        · exact hsub k (by simp [hk])

theorem descendants_closed (hP : ∀ i, P i → ∀ j ∈ d.childrenOf i, P j) {i : Fin n} (hi : P i) :
    ∀ j ∈ d.descendants i, P j :=
  visit_closed hP n (by simpa using hi)

/-- A search with a step for every block leaves nothing out: what it starts from and the children of what it
finds are found. -/
theorem visit_complete (count : Nat) {seen : List (Fin n)} (stack : List (Fin n)) (hseen : seen.Nodup)
    (hcount : n ≤ count + seen.length) :
    (∀ i ∈ stack, i ∈ seen ∨ i ∈ d.visit count seen stack) ∧
      ∀ i ∈ d.visit count seen stack, ∀ j ∈ d.childrenOf i, j ∈ seen ∨ j ∈ d.visit count seen stack := by
  induction count generalizing seen stack with
  | zero =>
    refine ⟨fun i _ => Or.inl ?_, by simp [visit]⟩
    by_contra hi
    have hlength := (List.nodup_cons.mpr ⟨hi, hseen⟩).length_le_card
    simp only [List.length_cons, Fintype.card_fin] at hlength
    omega
  | succ count ih =>
    simp only [visit]
    cases hd : stack.dropWhile seen.contains with
    | nil =>
      refine ⟨fun i hi => Or.inl ?_, by simp⟩
      simpa using List.dropWhile_eq_nil_iff.mp hd i hi
    | cons k rest =>
      have hk : k ∉ seen := by
        have hne : stack.dropWhile seen.contains ≠ [] := by simp [hd]
        simpa [hd] using List.head_dropWhile_not seen.contains hne
      obtain ⟨hstack, hvisit⟩ := ih (d.childrenOf k ++ rest) (List.nodup_cons.mpr ⟨hk, hseen⟩) (by
        simp only [List.length_cons]
        omega)
      have hfound : ∀ i, i ∈ k :: seen ∨ i ∈ d.visit count (k :: seen) (d.childrenOf k ++ rest) →
          i ∈ seen ∨ i ∈ k :: d.visit count (k :: seen) (d.childrenOf k ++ rest) := by
        simp only [List.mem_cons]
        tauto
      refine ⟨fun i hi => ?_, fun i hi j hj => ?_⟩
      · rw [← List.takeWhile_append_dropWhile (p := seen.contains) (l := stack), List.mem_append, hd, List.mem_cons] at hi
        obtain hi | rfl | hi := hi
        · exact Or.inl (by simpa using List.mem_takeWhile_imp hi)
        · exact Or.inr (by simp)
        · exact hfound i (hstack i (List.mem_append_right _ hi))
      · obtain rfl | hi := List.mem_cons.mp hi
        · exact hfound j (hstack j (List.mem_append_left _ hj))
        · exact hfound j (hvisit i hi j hj)

theorem mem_descendants (i : Fin n) : i ∈ d.descendants i := by
  simpa [descendants] using (visit_complete (d := d) n [i] List.nodup_nil (by simp)).1 i (List.mem_singleton_self i)

theorem descendants_children {i j k : Fin n} (hj : j ∈ d.descendants i) (hk : k ∈ d.childrenOf j) :
    k ∈ d.descendants i := by
  simpa [descendants] using (visit_complete (d := d) n [i] List.nodup_nil (by simp)).2 j hj k hk

end Diagram

namespace Workspace

variable {n : Nat} {w : Workspace n}

theorem mem_allBlocks {i : Fin n} (h : i ∈ w.orderedTops) : i ∈ w.allBlocks :=
  List.mem_flatMap.mpr ⟨i, h, w.diagram.mem_descendants i⟩

theorem allBlocks_children {i j : Fin n} (hi : i ∈ w.allBlocks) (hj : j ∈ w.diagram.childrenOf i) : j ∈ w.allBlocks := by
  obtain ⟨top, htop, hi⟩ := List.mem_flatMap.mp hi
  exact List.mem_flatMap.mpr ⟨top, htop, Diagram.descendants_children hi hj⟩

end Workspace

end BlockScript
