import Mathlib.Data.List.Forall2
import Mathlib.Data.Prod.Basic
import BlockScript.Sorting.Runs

namespace BlockScript

variable {α β : Type} (f : α → β)

theorem halve_map (d : Direction) (stop : β → Bool) (as : List α) (count low high : Nat) :
    halve d stop (as.map f) count low high = halve d (fun a => stop (f a)) as count low high := by
  induction count generalizing low high with
  | zero => rfl
  | succ count ih =>
    simp only [halve, List.getElem?_map, Option.map_map, ih]
    rfl

theorem stride_map (stop : β → Bool) (as : List α) (count passed place : Nat) :
    stride stop (as.map f) count passed place = stride (fun a => stop (f a)) as count passed place := by
  induction count generalizing passed place with
  | zero => rfl
  | succ count ih =>
    simp only [stride, List.getElem?_map, Option.map_map, ih]
    rfl

theorem leap_map (d : Direction) (stop : β → Bool) (as : List α) :
    leap d stop (as.map f) = leap d (fun a => stop (f a)) as := by
  simp only [leap, List.head?_map, Option.map_map, List.length_map, stride_map, halve_map]
  rfl

section

variable {before : α → α → Bool} {before' : β → β → Bool} (h : ∀ a b, before' (f a) (f b) = before a b)

namespace Merge

def map (m : Merge α) : Merge β :=
  { m with short := m.short.map f, long := m.long.map f }

theorem settled?_map (m : Merge α) : (m.map f).settled? = m.settled?.map (List.map f) := by
  obtain ⟨short, long⟩ := m
  match short, long with
  | _, [] => simp [map, settled?]
  | [], _ :: _ => simp [map, settled?]
  | [_], _ :: _ => simp [map, settled?]
  | _ :: _ :: _, _ :: _ => simp [map, settled?]

include h in
theorem step_map (d : Direction) (m : Merge α) :
    (m.map f).step d before' = Prod.map (List.map f) (map f) (m.step d before) := by
  obtain ⟨short, long, phase⟩ := m
  match short, long with
  | [], _ => rfl
  | _ :: _, [] => rfl
  | a :: short, b :: long =>
    have hshort : leap d (before' (f b)) ((a :: short).map f) = leap d (before b) (a :: short) := by
      rw [leap_map]
      simp only [h]
    have hlong : leap d (fun c => !before' c (f a)) ((b :: long).map f) = leap d (fun c => !before c a) (b :: long) := by
      rw [leap_map]
      simp only [h]
    cases phase with
    | opening | takeLong | takeShort => rfl
    | review =>
      simp only [map, step, judge, List.map_cons]
      split <;> rfl
    | straight =>
      simp only [map, step, takeOne, List.map_cons, h]
      split <;> rfl
    | leapShort =>
      simp only [List.map_cons] at hshort
      simp only [map, step, List.map_cons, hshort, Prod.map_apply, List.map_take, List.map_drop]
    | leapLong =>
      simp only [List.map_cons] at hlong
      simp only [map, step, List.map_cons, hlong, Prod.map_apply, List.map_take, List.map_drop]

include h in
theorem run_map (d : Direction) (count : Nat) (m : Merge α) :
    (m.map f).run d before' count = Prod.map (List.map f) id (m.run d before count) := by
  induction count generalizing m with
  | zero => simp [run, map, members]
  | succ count ih =>
    simp only [run, settled?_map, step_map f h]
    cases m.settled? with
    | some as => rfl
    | none => simp [ih]

end Merge

include h

theorem mergeSides_map (as bs : List α) (patience : Nat) :
    mergeSides before' (as.map f) (bs.map f) patience =
      Prod.map (List.map f) id (mergeSides before as bs patience) := by
  have hforward := Merge.run_map f h .forward
  have hbackward : ∀ count (m : Merge α), (m.map f).run .backward (fun a b => before' b a) count =
      Prod.map (List.map f) id (m.run .backward (fun a b => before b a) count) :=
    Merge.run_map f (fun a b => h b a) .backward
  unfold mergeSides
  simp only [List.length_map]
  split
  · rw [show Merge.stepLimit _ = Merge.stepLimit ⟨as, bs, .opening, 0, 0, patience⟩ by
      simp [Merge.stepLimit, Merge.members], ← hforward]
    rfl
  · rw [show Merge.stepLimit ⟨(bs.map f).reverse, (as.map f).reverse, .opening, 0, 0, patience⟩ =
      Merge.stepLimit ⟨bs.reverse, as.reverse, .opening, 0, 0, patience⟩ by simp [Merge.stepLimit, Merge.members]]
    have hrun := hbackward (Merge.stepLimit ⟨bs.reverse, as.reverse, .opening, 0, 0, patience⟩)
      ⟨bs.reverse, as.reverse, .opening, 0, 0, patience⟩
    simp only [Merge.map, List.map_reverse] at hrun
    simp [hrun, List.map_reverse]

theorem mergeRuns_map (as bs : List α) (patience : Nat) :
    mergeRuns before' (as.map f) (bs.map f) patience =
      Prod.map (List.map f) id (mergeRuns before as bs patience) := by
  simp only [mergeRuns, List.head?_map, Option.map_map, Function.comp_def, leap_map, h, ← List.map_drop, List.getLast?_map,
    ← List.map_reverse, List.length_map, ← List.map_take, mergeSides_map f h, Prod.map_fst, Prod.map_snd, Prod.map_apply,
    List.map_append, id]

theorem firstRun_map (as : List α) :
    firstRun before' (as.map f) = Prod.map (List.map f) (List.map f) (firstRun before as) := by
  have hspan : ∀ (follows : α → α → Bool) (follows' : β → β → Bool), (∀ a b, follows' (f a) (f b) = follows a b) →
      ∀ last (as : List α), spanChain follows' (f last) (as.map f) =
        Prod.map (List.map f) (List.map f) (spanChain follows last as) := by
    intro follows follows' hf last as
    induction as generalizing last with
    | nil => rfl
    | cons a as ih =>
      simp only [spanChain, List.map_cons, hf, ih]
      split <;> rfl
  cases as with
  | nil => rfl
  | cons a as =>
    cases as with
    | nil => rfl
    | cons b as =>
      simp only [firstRun, List.map_cons, h]
      split
      · rw [hspan (fun c d => before d c) _ fun a b => h b a]
        simp
      · rw [hspan (fun c d => !before d c) _ fun a b => by rw [h]]
        simp

theorem insertHalving_map (a : α) (as : List α) :
    insertHalving before' (f a) (as.map f) = (insertHalving before a as).map f := by
  simp only [insertHalving, halve_map, h, List.length_map, List.map_append, List.map_cons, List.map_take, List.map_drop]

theorem extendRun_map (count : Nat) (run rest : List α) :
    extendRun before' count (run.map f) (rest.map f) = Prod.map (List.map f) (List.map f) (extendRun before count run rest) := by
  induction count generalizing run rest with
  | zero => rfl
  | succ count ih =>
    cases rest with
    | nil => rfl
    | cons a rest =>
      simp only [extendRun, List.map_cons, insertHalving_map f h]
      exact ih _ _

theorem splitRuns_map (least count : Nat) (as : List α) :
    splitRuns before' least count (as.map f) = (splitRuns before least count as).map (List.map f) := by
  induction count generalizing as with
  | zero => rfl
  | succ count ih =>
    cases as with
    | nil => rfl
    | cons a as =>
      have hfirst := firstRun_map f h (a :: as)
      simp only [List.map_cons] at hfirst
      simp only [splitRuns, List.map_cons, hfirst, Prod.map_fst, Prod.map_snd, List.length_map, extendRun_map f h, ih]

theorem mergeAll_map (count : Nat) (runs : List (List α)) (patience : Nat) :
    mergeAll before' count (runs.map (List.map f)) patience = (mergeAll before count runs patience).map f := by
  induction count generalizing runs patience with
  | zero => simp [mergeAll, List.map_flatten]
  | succ count ih =>
    match runs with
    | [] => rfl
    | [_] => simp [mergeAll]
    | [b, a] => simp [mergeAll, mergeRuns_map f h]
    | c :: b :: a :: runs =>
      simp only [mergeAll, List.map_cons, List.length_map, mergeRuns_map f h, Prod.map_fst, Prod.map_snd, id]
      split
      · exact ih (c :: _ :: runs) _
      · exact ih (_ :: a :: runs) _

theorem mergeDeeper_map (depth : Nat) (waiting : List (WaitingRun α)) (run : List α) (patience : Nat) :
    mergeDeeper before' depth (waiting.map fun w => ⟨w.run.map f, w.depth⟩) (run.map f) patience =
      Prod.map (List.map f) (Prod.map (List.map fun w => ⟨w.run.map f, w.depth⟩) id)
        (mergeDeeper before depth waiting run patience) := by
  induction waiting generalizing run patience with
  | nil => rfl
  | cons w waiting ih =>
    simp only [mergeDeeper, List.map_cons, mergeRuns_map f h, Prod.map_fst, Prod.map_snd, id, ih]
    split <;> rfl

theorem mergeInOrder_map (size : Nat) (runs : List (List α)) (start : Nat) (run : List α)
    (waiting : List (WaitingRun α)) (patience : Nat) :
    mergeInOrder before' size (runs.map (List.map f)) start (run.map f)
        (waiting.map fun w => ⟨w.run.map f, w.depth⟩) patience =
      (mergeInOrder before size runs start run waiting patience).map f := by
  induction runs generalizing start run waiting patience with
  | nil =>
    rw [mergeInOrder, ← mergeAll_map f h]
    simp [mergeInOrder, Function.comp_def]
  | cons next runs ih =>
    simp only [mergeInOrder, List.map_cons, List.length_map, mergeDeeper_map f h, Prod.map_fst, Prod.map_snd, id]
    exact ih _ _ (⟨_, _⟩ :: _) _

/-- What is compared alike is sorted alike. -/
theorem runSort_map (as : List α) : runSort before' (as.map f) = (runSort before as).map f := by
  unfold runSort
  rw [splitRuns_map f h, List.length_map]
  cases splitRuns before (leastRun as.length as.length 0) as.length as with
  | nil => rfl
  | cons run runs => exact mergeInOrder_map f h _ _ _ _ [] _

end

/-- Lists that are related member by member are sorted alike. -/
theorem runSort_forall₂ {R : α → β → Prop} {before : α → α → Bool} {before' : β → β → Bool}
    (h : ∀ a b c d, R a c → R b d → before a b = before' c d) {as : List α} {bs : List β} (hR : List.Forall₂ R as bs) :
    List.Forall₂ R (runSort before as) (runSort before' bs) := by
  -- both lists are images of the list of their pairs
  obtain ⟨pairs, rfl, rfl⟩ : ∃ pairs : List {p : α × β // R p.1 p.2},
      pairs.map (·.1.1) = as ∧ pairs.map (·.1.2) = bs := by
    induction hR with
    | nil => exact ⟨[], rfl, rfl⟩
    | cons hab _ ih =>
      obtain ⟨pairs, rfl, rfl⟩ := ih
      exact ⟨⟨(_, _), hab⟩ :: pairs, rfl, rfl⟩
  rw [runSort_map _ fun p q => rfl, runSort_map _ fun p q => (h _ _ _ _ p.2 q.2).symm]
  rw [List.forall₂_map_left_iff, List.forall₂_map_right_iff, List.forall₂_same]
  intro p _
  exact p.2

end BlockScript
