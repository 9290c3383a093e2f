import Mathlib.Data.List.Chain
import Mathlib.Data.List.Nodup
import Mathlib.Data.List.Perm.Subperm
import Mathlib.Data.List.TakeWhile
import Mathlib.Logic.Relation
import BlockScript.Proofs.Faults
import BlockScript.Workspace.Forest

namespace BlockScript

/-- A row without repetition in which each member leads to the next one, and the last one to the first. -/
def IsCircle {α : Type} (R : α → α → Prop) (row : List α) : Prop :=
  ∃ a rest, row = a :: rest ∧ row.Nodup ∧ List.IsChain R (a :: (rest ++ [a]))

variable {successors : String → List String} {nodes : List String}

/-- A row in which the successors of each node stand behind it. -/
inductive Settled (successors : String → List String) : List String → Prop where
  | nil : Settled successors []
  | cons {v : String} {done : List String} : Settled successors done → (∀ w ∈ successors v, w ∈ done) →
      Settled successors (v :: done)

namespace Settled

theorem closed {done : List String} (h : Settled successors done) :
    ∀ v ∈ done, ∀ w ∈ successors v, w ∈ done := by
  induction h with
  | nil => simp
  | cons hdone hv ih =>
    intro u hu w hw
    obtain rfl | hu := List.mem_cons.mp hu
    · exact List.mem_cons_of_mem _ (hv w hw)
    · exact List.mem_cons_of_mem _ (ih u hu w hw)

theorem mem_of_reflTransGen {done : List String} (h : Settled successors done) {v w : String} (hv : v ∈ done)
    (hvw : Relation.ReflTransGen (fun a b => b ∈ successors a) v w) : w ∈ done := by
  induction hvw with
  | refl => exact hv
  | tail _ hw ih => exact h.closed _ ih _ hw

theorem no_circle {done : List String} (h : Settled successors done) :
    ∀ v ∈ done, ¬ Relation.TransGen (fun a b => b ∈ successors a) v v := by
  induction h with
  | nil => simp
  | @cons u done hdone hu ih =>
    have hback : ∀ v, Relation.TransGen (fun a b => b ∈ successors a) v v → v ∉ done := fun v hv hmem => ih v hmem hv
    intro v hv hcircle
    obtain rfl | hv := List.mem_cons.mp hv
    · apply hback v hcircle
      obtain ⟨w, hw, hrest⟩ := Relation.TransGen.head'_iff.mp hcircle
      exact hdone.mem_of_reflTransGen (hu w hw) hrest
    · exact hback v hcircle hv

theorem of_foldlM {step : List String → String → Except (List String) (List String)} {ws : List String}
    (hstep : ∀ w ∈ ws, ∀ done found, Settled successors done → step done w = .ok found →
      Settled successors found ∧ done ⊆ found ∧ w ∈ found) {done found : List String}
    (hdone : Settled successors done) (h : ws.foldlM step done = .ok found) :
    Settled successors found ∧ done ⊆ found ∧ ∀ w ∈ ws, w ∈ found := by
  induction ws generalizing done with
  | nil =>
    cases h
    exact ⟨hdone, fun _ hx => hx, by simp⟩
  | cons w ws ih =>
    rw [List.foldlM_cons] at h
    obtain ⟨next, hnext, h⟩ := ok_of_bind h
    obtain ⟨hsettled, hsub, hw⟩ := hstep w (by simp) done next hdone hnext
    obtain ⟨hfound, hrest, hws⟩ := ih (fun x hx => hstep x (List.mem_cons_of_mem _ hx)) hsettled h
    refine ⟨hfound, fun x hx => hrest (hsub hx), ?_⟩
    intro x hx
    obtain rfl | hx := List.mem_cons.mp hx
    · exact hrest hw
    · exact hws x hx

end Settled

/-- The path has no repetition, so that it has no more nodes than there are and the depth does not run out. -/
theorem searchCycle_settled (hclosed : ∀ v ∈ nodes, ∀ w ∈ successors v, w ∈ nodes) (depth : Nat)
    {path done found : List String} {v : String} (hnodup : (v :: path).Nodup) (hpath : v :: path ⊆ nodes)
    (hdepth : nodes.length ≤ path.length + depth) (hdone : Settled successors done)
    (h : searchCycle successors depth path v done = .ok found) :
    Settled successors found ∧ done ⊆ found ∧ v ∈ found := by
  induction depth generalizing path done found v with
  | zero =>
    have hlength := (hnodup.subperm hpath).length_le
    simp only [List.length_cons] at hlength
    omega
  | succ depth ih =>
    rw [searchCycle] at h
    obtain ⟨below, hbelow, h⟩ := ok_of_bind h
    cases h
    have hfold := Settled.of_foldlM ?step hdone hbelow
    case step =>
      intro w hw done found hdone h
      by_cases hon : (v :: path).contains w
      · rw [if_pos hon] at h
        cases h
      · rw [if_neg hon] at h
        have hfresh : w ∉ v :: path := fun hmem => hon (List.contains_iff_mem.mpr hmem)
        by_cases hknown : done.contains w
        · rw [if_pos hknown] at h
          cases h
          exact ⟨hdone, fun _ hx => hx, List.contains_iff_mem.mp hknown⟩
        · rw [if_neg hknown] at h
          apply ih _ _ _ hdone h
          · exact List.nodup_cons.mpr ⟨hfresh, hnodup⟩
          · exact List.cons_subset.mpr ⟨hclosed v (hpath (by simp)) w hw, hpath⟩
          · simp only [List.length_cons]
            omega
    obtain ⟨hsettled, hsub, hsuccessors⟩ := hfold
    exact ⟨hsettled.cons hsuccessors, fun x hx => List.mem_cons_of_mem _ (hsub hx), by simp⟩

/-- The part of a path from a node on is a circle, if the end of the path leads to the node. -/
theorem circle_of_path {path : List String} {v w : String} (hnodup : (v :: path).Nodup)
    (hchain : List.IsChain (fun a b => a ∈ successors b) (v :: path)) (hw : w ∈ successors v) (hmem : w ∈ v :: path) :
    IsCircle (fun a b => b ∈ successors a) (w :: ((v :: path).takeWhile (· != w)).reverse) := by
  have hsplit : ∃ rest, v :: path = (v :: path).takeWhile (· != w) ++ w :: rest := by
    have hne : (v :: path).dropWhile (· != w) ≠ [] := by
      intro hnil
      simpa using List.dropWhile_eq_nil_iff.mp hnil w hmem
    obtain ⟨x, rest, hx⟩ := List.exists_cons_of_ne_nil hne
    have hhead := List.head_dropWhile_not (· != w) hne
    simp only [hx, List.head_cons, bne_eq_false_iff_eq] at hhead
    subst hhead
    exact ⟨rest, by rw [← hx, List.takeWhile_append_dropWhile]⟩
  obtain ⟨rest, hsplit⟩ := hsplit
  refine ⟨w, _, rfl, ?_, ?_⟩
  · apply List.nodup_cons.mpr
    constructor
    · intro hw
      simpa using List.mem_takeWhile_imp (List.mem_reverse.mp hw)
    · exact List.nodup_reverse.mpr (hnodup.sublist (List.takeWhile_sublist _))
  · have hwhole : List.IsChain (fun a b => a ∈ successors b) (w :: v :: path) := List.isChain_cons_cons.mpr ⟨hw, hchain⟩
    rw [hsplit] at hwhole
    have hpart : List.IsChain (fun a b => a ∈ successors b) (w :: ((v :: path).takeWhile (· != w) ++ [w])) :=
      hwhole.prefix ⟨rest, by simp⟩
    simpa using List.isChain_reverse.mpr hpart

theorem searchCycle_circle (hclosed : ∀ v ∈ nodes, ∀ w ∈ successors v, w ∈ nodes) (depth : Nat)
    {path done cycle : List String} {v : String} (hnodup : (v :: path).Nodup) (hpath : v :: path ⊆ nodes)
    (hchain : List.IsChain (fun a b => a ∈ successors b) (v :: path))
    (h : searchCycle successors depth path v done = .error cycle) :
    IsCircle (fun a b => b ∈ successors a) cycle ∧ cycle ⊆ nodes := by
  induction depth generalizing path done v with
  | zero => cases h
  | succ depth ih =>
    rw [searchCycle] at h
    obtain hfold | ⟨_, -, h⟩ := error_of_bind h
    · obtain ⟨w, hw, done, hstep⟩ := error_of_foldlM hfold
      by_cases hon : (v :: path).contains w
      · rw [if_pos hon] at hstep
        cases hstep
        have hmem : w ∈ v :: path := List.contains_iff_mem.mp hon
        refine ⟨circle_of_path hnodup hchain hw hmem, ?_⟩
        apply List.cons_subset.mpr
        refine ⟨hpath hmem, fun x hx => hpath ?_⟩
        exact (List.takeWhile_sublist _).subset (List.mem_reverse.mp hx)
      · rw [if_neg hon] at hstep
        by_cases hknown : done.contains w
        · rw [if_pos hknown] at hstep
          cases hstep
        · rw [if_neg hknown] at hstep
          have hfresh : w ∉ v :: path := fun hmem => hon (List.contains_iff_mem.mpr hmem)
          apply ih _ _ _ hstep
          · exact List.nodup_cons.mpr ⟨hfresh, hnodup⟩
          · exact List.cons_subset.mpr ⟨hclosed v (hpath (by simp)) w hw, hpath⟩
          · exact List.isChain_cons_cons.mpr ⟨hw, hchain⟩
    · cases h

theorem findCycle_none (hclosed : ∀ v ∈ nodes, ∀ w ∈ successors v, w ∈ nodes)
    (h : findCycle? successors nodes = none) :
    ∀ v ∈ nodes, ¬ Relation.TransGen (fun a b => b ∈ successors a) v v := by
  unfold findCycle? at h
  split at h
  · rename_i found hfound
    have hfold := Settled.of_foldlM ?step (Settled.nil : Settled successors []) hfound
    case step =>
      intro v hv done found hdone h
      by_cases hknown : done.contains v
      · rw [if_pos hknown] at h
        cases h
        exact ⟨hdone, fun _ hx => hx, List.contains_iff_mem.mp hknown⟩
      · rw [if_neg hknown] at h
        exact searchCycle_settled hclosed _ (by simp) (by simpa using hv) (by simp) hdone h
    obtain ⟨hsettled, -, hall⟩ := hfold
    exact fun v hv => hsettled.no_circle v (hall v hv)
  · cases h

theorem findCycle_some (hclosed : ∀ v ∈ nodes, ∀ w ∈ successors v, w ∈ nodes) {cycle : List String}
    (h : findCycle? successors nodes = some cycle) :
    IsCircle (fun a b => b ∈ successors a) cycle ∧ cycle ⊆ nodes := by
  unfold findCycle? at h
  split at h
  · cases h
  · rename_i hfound
    cases h
    obtain ⟨v, hv, done, hstep⟩ := error_of_foldlM hfound
    by_cases hknown : done.contains v
    · rw [if_pos hknown] at hstep
      cases hstep
    · rw [if_neg hknown] at hstep
      exact searchCycle_circle hclosed _ (by simp) (by simpa using hv) (List.isChain_singleton v) hstep

end BlockScript
