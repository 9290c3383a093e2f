import BlockScript.Proofs.Chains
import BlockScript.Proofs.Validation

namespace BlockScript

open Relation

variable {n : Nat}

theorem Diagram.mem_descendants_iff {d : Diagram n} {i j : Fin n} :
    j ∈ d.descendants i ↔ ReflTransGen d.IsParent i j := by
  constructor
  · apply descendants_closed (P := ReflTransGen d.IsParent i)
    · intro k hk l hl
      exact hk.tail hl
    · exact .refl
  · intro hpath
    induction hpath with
    | refl => exact d.mem_descendants i
    | tail _ hstep ih => exact descendants_children ih hstep

namespace Workspace

variable {w : Workspace n} {i j k : Fin n}

theorem mem_allBlocks_iff : i ∈ w.allBlocks ↔ w.Reachable i := by
  unfold allBlocks orderedTops
  simp only [List.mem_flatMap, Diagram.mem_descendants_iff, mem_runSort]
  rfl

theorem Reachable.below (hi : w.Reachable i) (hpath : ReflTransGen w.diagram.IsParent i j) : w.Reachable j := by
  obtain ⟨top, htop, hi⟩ := hi
  exact ⟨top, htop, hi.trans hpath⟩

/-- No block hangs below two others, and none below itself. -/
structure Branching (w : Workspace n) : Prop where
  parent : ∀ {i k j}, w.Reachable i → w.Reachable k → w.diagram.IsParent i j → w.diagram.IsParent k j → i = k
  acyclic : ∀ {i}, w.Reachable i → ¬ TransGen w.diagram.IsParent i i

theorem branching_of_validate (hids : w.DistinctIds) {g : Connections n} (h : w.validate = .ok g) : w.Branching := by
  obtain ⟨row, -, -, hvalidate⟩ | ⟨hcircles, ⟨ids, -, -, hvalidate⟩ | ⟨hshared, -⟩⟩ := validate_cases hids
  · rw [h] at hvalidate
    cases hvalidate
  · rw [h] at hvalidate
    cases hvalidate
  · constructor
    · intro i k j hi hk hij hkj
      by_contra hne
      exact hshared j ⟨i, k, hne, hi, hk, hij, hkj⟩
    · intro i hi
      exact hcircles i hi

/-- Of two blocks above a third one, one is above the other. -/
theorem Branching.above (h : w.Branching) (hi : w.Reachable i) (hj : w.Reachable j)
    (hik : ReflTransGen w.diagram.IsParent i k) (hjk : ReflTransGen w.diagram.IsParent j k) :
    ReflTransGen w.diagram.IsParent i j ∨ ReflTransGen w.diagram.IsParent j i := by
  induction hik with
  | refl => exact Or.inr hjk
  | @tail m k him hmk ih =>
    obtain rfl | ⟨m', hjm, hmk'⟩ := ReflTransGen.cases_tail hjk
    · exact Or.inl (him.tail hmk)
    · apply ih
      rw [h.parent (hi.below him) (hj.below hjm) hmk hmk']
      exact hjm

/-- The top blocks are different ones, and nothing leads to them. -/
def TopsApart (w : Workspace n) : Prop :=
  w.tops.Nodup ∧ ∀ i j, w.Reachable i → w.diagram.IsParent i j → j ∉ w.tops

theorem TopsApart.eq_of_path (h : w.TopsApart) (hi : w.Reachable i) (hj : j ∈ w.tops)
    (hij : ReflTransGen w.diagram.IsParent i j) : i = j := by
  obtain heq | ⟨m, him, hmj⟩ := ReflTransGen.cases_tail hij
  · exact heq.symm
  · exact absurd hj (h.2 m j (hi.below him) hmj)

theorem Branching.tops_disjoint (h : w.Branching) (htops : w.TopsApart) (hi : i ∈ w.tops) (hj : j ∈ w.tops)
    (hik : ReflTransGen w.diagram.IsParent i k) (hjk : ReflTransGen w.diagram.IsParent j k) : i = j := by
  have hri : w.Reachable i := ⟨i, hi, .refl⟩
  have hrj : w.Reachable j := ⟨j, hj, .refl⟩
  obtain hij | hji := h.above hri hrj hik hjk
  · exact htops.eq_of_path hri hj hij
  · exact (htops.eq_of_path hrj hi hji).symm

theorem Branching.children_disjoint (h : w.Branching) {m : Fin n} (hm : w.Reachable m) (hi : w.diagram.IsParent m i)
    (hj : w.diagram.IsParent m j) (hik : ReflTransGen w.diagram.IsParent i k)
    (hjk : ReflTransGen w.diagram.IsParent j k) : i = j := by
  -- a child above its sibling would lie above the parent of both
  have hsame : ∀ {a b}, w.diagram.IsParent m a → w.diagram.IsParent m b →
      ReflTransGen w.diagram.IsParent a b → a = b := by
    intro a b ha hb hab
    obtain heq | ⟨m', ham, hmb⟩ := ReflTransGen.cases_tail hab
    · exact heq.symm
    · obtain rfl := h.parent hm ((hm.child ha).below ham) hb hmb
      exact absurd (TransGen.head' ha ham) (h.acyclic hm)
  obtain hij | hji := h.above (hm.child hi) (hm.child hj) hik hjk
  · exact hsame hi hj hij
  · exact (hsame hj hi hji).symm

theorem Branching.allBlocks_nodup (h : w.Branching) : w.allBlocks.Nodup ↔ w.TopsApart := by
  have hsymm : Std.Symm fun i j => (w.diagram.descendants i).Disjoint (w.diagram.descendants j) :=
    ⟨fun _ _ hij => hij.symm⟩
  have hnodup : w.allBlocks.Nodup ↔
      w.tops.Pairwise fun i j => (w.diagram.descendants i).Disjoint (w.diagram.descendants j) := by
    unfold allBlocks orderedTops
    have heach : ∀ i, (w.diagram.descendants i).Nodup := fun i => w.diagram.nodup_visit n [] [i]
    rw [List.nodup_flatMap, and_iff_right fun i _ => heach i]
    exact (runSort_perm _ _).pairwise_iff fun hij => hij.symm
  rw [hnodup]
  constructor
  · intro hpairs
    constructor
    · apply hpairs.imp
      rintro i j hij rfl
      exact hij (w.diagram.mem_descendants i) (w.diagram.mem_descendants i)
    · rintro i j ⟨top, htop, hpath⟩ hij hj
      by_cases heq : top = j
      · subst heq
        exact h.acyclic ⟨top, htop, .refl⟩ (TransGen.tail' hpath hij)
      · apply hpairs.forall htop hj heq
        · exact Diagram.mem_descendants_iff.mpr (hpath.tail hij)
        · exact w.diagram.mem_descendants j
  · intro htops
    apply htops.1.pairwise_of_forall_ne
    intro i hi j hj hne k hik hjk
    exact hne (h.tops_disjoint htops hi hj (Diagram.mem_descendants_iff.mp hik) (Diagram.mem_descendants_iff.mp hjk))

end Workspace

end BlockScript
