import Mathlib.Computability.StateTransition
import BlockScript.Proofs.Forests

namespace BlockScript

open Relation StateTransition

variable {n : Nat}

/-- How many blocks are not among the given ones. -/
def unseen (seen : List (Fin n)) : Nat :=
  (Finset.univ \ seen.toFinset).card

theorem unseen_le {seen found : List (Fin n)} (h : seen <+: found) : unseen found ≤ unseen seen := by
  apply Finset.card_le_card
  intro i
  simpa using fun hi hseen => hi (h.subset hseen)

theorem unseen_lt {seen found : List (Fin n)} {i : Fin n} (hi : i ∉ seen) (h : seen ++ [i] <+: found) :
    unseen found < unseen seen := by
  refine lt_of_le_of_lt (unseen_le h) (Finset.card_lt_card ?_)
  refine (Finset.ssubset_iff_of_subset fun j => by simp).mpr ⟨i, ?_, ?_⟩
  · simpa using hi
  · simp

namespace Diagram

mutual

/-- The recursive search from a block, by which the list of the blocks seen so far grows. A block that was seen before
is passed over. Any other block is noted, then the search goes on from what its slots hold, one slot after the other,
and then from its next block. -/
def search (d : Diagram n) (seen : List (Fin n)) (i : Fin n) : { found : List (Fin n) // seen <+: found } :=
  if i ∈ seen then ⟨seen, List.prefix_rfl⟩
  else
    let ⟨inner, hinner⟩ := d.searchSlots (seen ++ [i]) (d.block i).slots
    have hseen : seen <+: inner := (List.prefix_append seen [i]).trans hinner
    match (d.block i).next with
    | none => ⟨inner, hseen⟩
    | some j =>
      let ⟨found, hfound⟩ := d.search inner j
      ⟨found, hseen.trans hfound⟩
termination_by (unseen seen, 0)
decreasing_by
  · exact Prod.Lex.left _ _ (unseen_lt ‹i ∉ seen› List.prefix_rfl)
  · exact Prod.Lex.left _ _ (unseen_lt ‹i ∉ seen› hinner)

def searchSlots (d : Diagram n) (seen : List (Fin n)) : List (Slot n) → { found : List (Fin n) // seen <+: found }
  | [] => ⟨seen, List.prefix_rfl⟩
  | slot :: slots =>
    match slot.child with
    | none => d.searchSlots seen slots
    | some j =>
      let ⟨inner, hinner⟩ := d.search seen j
      let ⟨found, hfound⟩ := d.searchSlots inner slots
      ⟨found, hinner.trans hfound⟩
termination_by slots => (unseen seen, slots.length + 1)
decreasing_by
  · exact Prod.Lex.right _ (by simp)
  · exact Prod.Lex.right _ (by simp)
  · -- the search from `j` may have found nothing new, but there is one slot less
    have hle := unseen_le hinner
    simp only [Prod.lex_def, List.length_cons]
    omega

end

variable {d : Diagram n} {seen stack : List (Fin n)} {i j : Fin n} {slot : Slot n} {slots : List (Slot n)} {count : Nat}

theorem search_seen (hi : i ∈ seen) : (d.search seen i).1 = seen := by
  rw [search, if_pos hi]

theorem search_last (hi : i ∉ seen) (hnext : (d.block i).next = none) :
    (d.search seen i).1 = (d.searchSlots (seen ++ [i]) (d.block i).slots).1 := by
  rw [search, if_neg hi]
  simp only [hnext]

theorem search_next (hi : i ∉ seen) (hnext : (d.block i).next = some j) :
    (d.search seen i).1 = (d.search (d.searchSlots (seen ++ [i]) (d.block i).slots).1 j).1 := by
  rw [search, if_neg hi]
  simp only [hnext]

theorem searchSlots_nil : (d.searchSlots seen []).1 = seen := by
  rw [searchSlots]

theorem searchSlots_free (hchild : slot.child = none) :
    (d.searchSlots seen (slot :: slots)).1 = (d.searchSlots seen slots).1 := by
  rw [searchSlots]
  simp only [hchild]

theorem searchSlots_filled (hchild : slot.child = some j) :
    (d.searchSlots seen (slot :: slots)).1 = (d.searchSlots (d.search seen j).1 slots).1 := by
  rw [searchSlots]
  simp only [hchild]

theorem childrenOf_eq (d : Diagram n) (i : Fin n) :
    d.childrenOf i = (d.block i).slots.filterMap (·.child) ++ (d.block i).next.toList := by
  simp [childrenOf, Block.children, List.map_filterMap, Function.comp_def]

theorem visit_passed (hi : i ∈ seen) : d.visit count seen (i :: stack) = d.visit count seen stack := by
  cases count with
  | zero => rfl
  | succ count => simp only [visit, List.dropWhile_cons, List.contains_iff_mem.mpr hi, ↓reduceIte]

theorem visit_taken (hi : i ∉ seen) :
    d.visit (count + 1) seen (i :: stack) = i :: d.visit count (i :: seen) (d.childrenOf i ++ stack) := by
  simp only [visit, List.dropWhile_cons, List.contains_eq_mem, hi, decide_false, Bool.false_eq_true, ↓reduceIte]

theorem descendants_head (d : Diagram n) (i : Fin n) : (d.descendants i).head? = some i := by
  obtain ⟨count, rfl⟩ := Nat.exists_eq_add_one.mpr i.pos
  rw [descendants, visit_taken List.not_mem_nil, List.head?_cons]

end Diagram

/-- The state of a search with a stack: the blocks found so far, in order, and those to look at, the top of the stack
first. A block is marked when it is taken from the stack, so it may lie there many times. -/
structure Sweep (n : Nat) where
  found : List (Fin n)
  stack : List (Fin n)

namespace Sweep

variable {d : Diagram n} {s t : Sweep n} {seen inner found js ks : List (Fin n)} {i : Fin n}

/-- One round takes the top block from the stack. If the block is new, it is found now, and its children are put on the
stack, the first one on top. -/
def round (d : Diagram n) : Sweep n → Option (Sweep n)
  | ⟨_, []⟩ => none
  | ⟨found, i :: stack⟩ =>
    if i ∈ found then some ⟨found, stack⟩ else some ⟨found ++ [i], d.childrenOf i ++ stack⟩

theorem round_cases (h : t ∈ round d s) :
    (∃ i ∈ s.found, s.stack = i :: t.stack ∧ t.found = s.found) ∨
      ∃ i ∉ s.found, ∃ stack, s.stack = i :: stack ∧ t = ⟨s.found ++ [i], d.childrenOf i ++ stack⟩ := by
  obtain ⟨found, _ | ⟨i, stack⟩⟩ := s
  · cases h
  · rw [round] at h
    split at h
    · rename_i hi
      cases h
      exact Or.inl ⟨i, hi, rfl, rfl⟩
    · rename_i hi
      cases h
      exact Or.inr ⟨i, hi, stack, rfl, rfl⟩

/-- Some rounds take `js` from the top of the stack, with all that they put there, and leave the rest of the stack as it
is. -/
def Clears (d : Diagram n) (seen js found : List (Fin n)) : Prop :=
  ∀ stack, Reaches (round d) ⟨seen, js ++ stack⟩ ⟨found, stack⟩

namespace Clears

theorem nil : Clears d seen [] seen :=
  fun _ => .refl

theorem append (hjs : Clears d seen js inner) (hks : Clears d inner ks found) : Clears d seen (js ++ ks) found := by
  intro stack
  rw [List.append_assoc]
  exact (hjs (ks ++ stack)).trans (hks stack)

theorem passed (hi : i ∈ seen) : Clears d seen [i] seen :=
  fun _ => .single (if_pos hi)

theorem taken (hi : i ∉ seen) (h : Clears d (seen ++ [i]) (d.childrenOf i) found) : Clears d seen [i] found :=
  fun stack => .head (if_neg hi) (h stack)

end Clears

/-- The rounds do what the recursive search does, block by block and slot by slot. -/
theorem clears_search (d : Diagram n) :
    (∀ seen i, Clears d seen [i] (d.search seen i)) ∧
      ∀ seen slots, Clears d seen (slots.filterMap (·.child)) (d.searchSlots seen slots) := by
  refine Diagram.search.mutual_induct d (fun seen i => Clears d seen [i] (d.search seen i))
    (fun seen slots => Clears d seen (slots.filterMap (·.child)) (d.searchSlots seen slots))
    ?seen ?last ?next ?nil ?free ?filled
  case seen =>
    intro seen i hi
    rw [Diagram.search_seen hi]
    exact .passed hi
  case last =>
    intro seen i hi inner hinner _ _ hnext hslots
    rw [Diagram.search_last hi hnext]
    apply Clears.taken hi
    rw [Diagram.childrenOf_eq, hnext, Option.toList_none, List.append_nil]
    exact hslots
  case next =>
    intro seen i hi inner hinner heq _ j hnext found hfound _ hslots hsearch
    rw [Diagram.search_next hi hnext]
    apply Clears.taken hi
    rw [Diagram.childrenOf_eq, hnext, Option.toList_some]
    rw [heq] at hslots ⊢
    exact hslots.append hsearch
  case nil =>
    intro seen
    rw [Diagram.searchSlots_nil]
    exact .nil
  case free =>
    intro seen slot slots hchild hslots
    rw [Diagram.searchSlots_free hchild, List.filterMap_cons_none hchild]
    exact hslots
  case filled =>
    intro seen slot slots j hchild inner hinner heq found hfound _ hsearch hslots
    rw [Diagram.searchSlots_filled hchild, List.filterMap_cons_some hchild]
    rw [heq] at hsearch ⊢
    exact hsearch.append hslots

/-- What is found in the end if the search goes on from here with a step for every block that is left. -/
def outcome (d : Diagram n) (s : Sweep n) : List (Fin n) :=
  s.found ++ d.visit (n - s.found.length) s.found.reverse s.stack

theorem round_outcome (h : t ∈ round d s) (hs : s.found.Nodup) : t.found.Nodup ∧ t.outcome d = s.outcome d := by
  obtain ⟨i, hi, hstack, hfound⟩ | ⟨i, hi, stack, hstack, rfl⟩ := round_cases h
  · refine ⟨hfound ▸ hs, ?_⟩
    rw [outcome, outcome, hstack, hfound, Diagram.visit_passed (List.mem_reverse.mpr hi)]
  · have hnodup : (s.found ++ [i]).Nodup := by
      simpa using hs.concat hi
    refine ⟨hnodup, ?_⟩
    -- one more block is found than before, so a step was left for it
    have hlength := hnodup.length_le_card
    simp only [List.length_append, List.length_singleton, Fintype.card_fin] at hlength
    have hcount : n - s.found.length = n - (s.found.length + 1) + 1 := by omega
    rw [outcome, outcome, hstack, hcount, Diagram.visit_taken (List.mem_reverse.not.mpr hi)]
    simp

theorem reaches_outcome (h : Reaches (round d) s t) (hs : s.found.Nodup) :
    t.found.Nodup ∧ t.outcome d = s.outcome d := by
  induction h with
  | refl => exact ⟨hs, rfl⟩
  | tail _ hround ih =>
    obtain ⟨hnodup, houtcome⟩ := ih
    obtain ⟨hnodup, hround⟩ := round_outcome hround hnodup
    exact ⟨hnodup, hround.trans houtcome⟩

theorem outcome_end (d : Diagram n) (found : List (Fin n)) : outcome d ⟨found, []⟩ = found := by
  unfold outcome
  cases n - found.length <;> simp [Diagram.visit]

end Sweep

namespace Diagram

theorem descendants_eq_search (d : Diagram n) (i : Fin n) : d.descendants i = d.search [] i := by
  have hreaches := (Sweep.clears_search d).1 [] i []
  calc d.descendants i = Sweep.outcome d ⟨[], [i]⟩ := rfl
    _ = Sweep.outcome d ⟨d.search [] i, []⟩ := (Sweep.reaches_outcome hreaches List.nodup_nil).2.symm
    _ = d.search [] i := Sweep.outcome_end d _

/-- Whatever the drawing, also with shared blocks and circles, the search with a stack comes to an end, and it has then
found the descendants. They are what the recursive search finds, in the same order, and so all blocks below the first
one, each once, with the first one in front. -/
theorem descendants_depth_first (d : Diagram n) (i : Fin n) :
    eval (Sweep.round d) ⟨[], [i]⟩ = Part.some ⟨d.descendants i, []⟩ ∧
      d.descendants i = d.search [] i ∧
      (∀ j, j ∈ d.descendants i ↔ ReflTransGen d.IsParent i j) ∧
      (d.descendants i).Nodup ∧ (d.descendants i).head? = some i := by
  have hsearch := d.descendants_eq_search i
  refine ⟨?_, hsearch, fun _ => mem_descendants_iff, d.nodup_visit n [] [i], d.descendants_head i⟩
  apply Part.eq_some_iff.mpr
  apply mem_eval.mpr
  rw [hsearch]
  exact ⟨(Sweep.clears_search d).1 [] i [], rfl⟩

/-- The last block follows two others and leads back to the first one. It is listed where it is first come to, before a
block that was put on the stack earlier. -/
example : descendants ⟨#v[
    { type := "controls_if", id := "a", slots := [⟨"IF0", .value, some 1⟩, ⟨"DO0", .statement, some 2⟩],
      next := some 3 },
    { type := "logic_negate", id := "b", next := some 3 },
    { type := "serial_print", id := "c" },
    { type := "controls_repeat", id := "d", slots := [⟨"DO", .statement, some 0⟩] }]⟩ 0 = [0, 1, 3, 2] := by
  decide

end Diagram

end BlockScript
