import Mathlib.Data.Fintype.Card
import Mathlib.Data.Set.Finite.List
import Mathlib.Logic.Relation
import Mathlib.Order.WellFounded
import BlockScript.Proofs.Keys
import BlockScript.Typing.Inference

namespace BlockScript

open Relation

/-- Most variables are named by texts. -/
def Value.IsText (v : Value) : Prop :=
  ∃ s, v = .text s

instance : DecidablePred Value.IsText
  | .text s => isTrue ⟨s, rfl⟩
  | .null | .bool _ | .int _ | .real _ | .nan _ | .list _ => isFalse fun ⟨_, h⟩ => nomatch h

theorem Value.IsText.beq_iff {v : Value} (h : v.IsText) (u : Value) : (v == u) = true ↔ v = u := by
  obtain ⟨s, rfl⟩ := h
  rw [Value.beq_iff]
  constructor
  · intro hkey
    cases u with
    | text t => simpa [key] using hkey
    | _ => simp [key] at hkey
  · rintro rfl
    rfl

theorem Value.IsText.isKey {v : Value} (h : v.IsText) : v.isKey = true := by
  obtain ⟨s, rfl⟩ := h
  rfl

theorem not_transGen_of_source {R : Value → Value → Prop} {x : Value} (h : ∀ u v, R u v → u = x ∧ v ≠ x) (v : Value) :
    ¬ TransGen R v v := by
  intro hv
  obtain ⟨_, hfirst, -⟩ := TransGen.head'_iff.mp hv
  obtain ⟨_, -, hlast⟩ := TransGen.tail'_iff.mp hv
  exact (h _ _ hlast).2 (h _ _ hfirst).1

section

variable {sources : Value → List Value} {left order : List Value} {v : Value}

theorem contains_iff_mem (h : ∀ u ∈ left, u.IsText) (v : Value) : left.contains v = true ↔ v ∈ left := by
  rw [List.contains_iff_exists_mem_beq]
  constructor
  · rintro ⟨u, hu, hvu⟩
    rwa [← ((h u hu).beq_iff v).mp (BEq.symm hvu)]
  · intro hv
    exact ⟨v, hv, BEq.rfl⟩

theorem perm_cons_erase (h : ∀ u ∈ left, u.IsText) (hv : v ∈ left) : left.Perm (v :: left.erase v) := by
  obtain ⟨u, before, after, -, huv, hleft, herase⟩ := List.exists_of_eraseP (p := (· == v)) hv BEq.rfl
  have hu : u = v := ((h u (by simp [hleft])).beq_iff v).mp huv
  rw [List.erase_eq_eraseP', herase, hleft, hu]
  exact List.perm_middle

theorem ready_iff (h : ∀ u ∈ left, u.IsText) : isReady sources left v = true ↔ ∀ u ∈ sources v, u ∉ left := by
  simp only [isReady, List.all_eq_true, Bool.not_eq_true']
  refine forall₂_congr fun u _ => ?_
  rw [← contains_iff_mem h, Bool.not_eq_true]

/-- Every variable comes once, and behind those that it depends on. -/
theorem takeReady?_order (h : ∀ u ∈ left, u.IsText) (htake : takeReady? sources left.length left = some order) :
    order.Perm left ∧ ∀ before v after, order = before ++ v :: after → ∀ u ∈ sources v, u ∈ left → u ∈ before := by
  generalize hcount : left.length = count at htake
  induction count generalizing left order with
  | zero =>
    obtain rfl := List.length_eq_zero_iff.mp hcount
    obtain rfl : [] = order := by simpa [takeReady?] using htake
    simp
  | succ count ih =>
    simp only [takeReady?] at htake
    obtain ⟨x, hx, htake⟩ := Option.bind_eq_some_iff.mp htake
    obtain ⟨rest, hrest, horder⟩ := Option.bind_eq_some_iff.mp htake
    obtain rfl : x :: rest = order := by simpa using horder
    have hperm := perm_cons_erase h (List.mem_of_find?_eq_some hx)
    have hready := (ready_iff h).mp (List.find?_some hx)
    have hsub : ∀ u ∈ left.erase x, u ∈ left := fun u hu => hperm.mem_iff.mpr (by simp [hu])
    have hlength : (left.erase x).length = count := by
      have := hperm.length_eq
      simp only [List.length_cons] at this
      omega
    obtain ⟨hrestperm, hbehind⟩ := ih (fun u hu => h u (hsub u hu)) hlength hrest
    refine ⟨(hrestperm.cons x).trans hperm.symm, ?_⟩
    intro before v after hsplit u hu hleft
    cases before with
    | nil =>
      obtain ⟨rfl, -⟩ := List.cons.inj hsplit
      exact absurd hleft (hready u hu)
    | cons y before =>
      obtain ⟨rfl, hbehindx⟩ := List.cons.inj hsplit
      obtain rfl | hlater := List.mem_cons.mp (hperm.mem_iff.mp hleft)
      · simp
      · exact List.mem_cons_of_mem _ (hbehind before v after hbehindx u hu hlater)

/-- Among variables that do not depend on each other in a circle, one depends on none of the others. -/
theorem exists_ready (hacyclic : ∀ v, ¬ TransGen (fun u v => u ∈ sources v) v v) (hleft : left ≠ []) :
    ∃ v ∈ left, ∀ u ∈ sources v, u ∉ left := by
  have hfinite : Finite {v // v ∈ left} := (List.finite_toSet left).to_subtype
  let depends : {v // v ∈ left} → {v // v ∈ left} → Prop := TransGen fun u v => u.1 ∈ sources v.1
  have hirrefl : Std.Irrefl depends := ⟨fun v hv => hacyclic v.1 (hv.lift Subtype.val fun _ _ huv => huv)⟩
  have htrans : IsTrans _ depends := ⟨fun _ _ _ => TransGen.trans⟩
  obtain ⟨first, hfirst⟩ := List.exists_mem_of_ne_nil left hleft
  obtain ⟨v, -, hmin⟩ := (Finite.wellFounded_of_trans_of_irrefl depends).has_min Set.univ ⟨⟨first, hfirst⟩, trivial⟩
  refine ⟨v.1, v.2, fun u hu hmem => ?_⟩
  exact hmin ⟨u, hmem⟩ trivial (TransGen.single hu)

variable (sources) in
theorem takeReady?_isSome (h : ∀ u ∈ left, u.IsText) (hacyclic : ∀ v, ¬ TransGen (fun u v => u ∈ sources v) v v) :
    ∃ order, takeReady? sources left.length left = some order := by
  generalize hcount : left.length = count
  induction count generalizing left with
  | zero => exact ⟨[], rfl⟩
  | succ count ih =>
    have hne : left ≠ [] := by
      rintro rfl
      cases hcount
    obtain ⟨v, hv, hready⟩ := exists_ready hacyclic hne
    obtain ⟨x, hx⟩ : ∃ x, left.find? (isReady sources left) = some x :=
      Option.isSome_iff_exists.mp (List.find?_isSome.mpr ⟨v, hv, (ready_iff h).mpr hready⟩)
    have hperm := perm_cons_erase h (List.mem_of_find?_eq_some hx)
    have hlength : (left.erase x).length = count := by
      have := hperm.length_eq
      simp only [List.length_cons] at this
      omega
    obtain ⟨rest, hrest⟩ := ih (fun u hu => h u (hperm.mem_iff.mpr (by simp [hu]))) hlength
    exact ⟨x :: rest, by simp [takeReady?, hx, hrest]⟩

end

end BlockScript
