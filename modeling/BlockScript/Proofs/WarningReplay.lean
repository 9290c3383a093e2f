import BlockScript.Proofs.Forests
import BlockScript.Warnings

namespace BlockScript

namespace Ledger

variable {κ ι α : Type} [BEq κ] [LawfulBEq κ] [BEq ι]

/-- The entries under the pairs that start with `k`, in their order. -/
def below (l : Ledger (κ × ι) α) (k : κ) : Ledger ι α :=
  ⟨(l.entries.filter (·.1.1 == k)).map fun e => (e.1.2, e.2)⟩

omit [LawfulBEq κ] in
theorem pair_beq (p : κ × ι) (k : κ) (j : ι) : (p == (k, j)) = (p.1 == k && p.2 == j) := rfl

theorem below_put (l : Ledger (κ × ι) α) (k k' : κ) (j : ι) (a : α) :
    (l.put (k', j) a).below k = if k' == k then (l.below k).put j a else l.below k := by
  obtain ⟨es⟩ := l
  simp only [put, below]
  induction es with
  | nil => by_cases hk : k' == k <;> simp [putEntry, hk]
  | cons e es ih =>
    obtain ⟨⟨k₀, i⟩, b⟩ := e
    by_cases hk : k' == k
    · rw [if_pos hk] at ih ⊢
      obtain rfl := eq_of_beq hk
      by_cases h₀ : k₀ == k'
      · by_cases hi : i == j
        · simp [putEntry, pair_beq, h₀, hi]
        · simpa [putEntry, pair_beq, h₀, hi] using ih
      · simpa [putEntry, pair_beq, h₀] using ih
    · rw [if_neg hk] at ih ⊢
      by_cases h₀ : k₀ == k'
      · obtain rfl := eq_of_beq h₀
        by_cases hi : i == j
        · simp [putEntry, pair_beq, hi, hk]
        · simpa [putEntry, pair_beq, hi, hk] using ih
      · by_cases hk₀ : k₀ == k
        · simpa [putEntry, pair_beq, h₀, hk₀] using ih
        · simpa [putEntry, pair_beq, h₀, hk₀] using ih

theorem below_erase (l : Ledger (κ × ι) α) (k k' : κ) (j : ι) :
    (l.erase (k', j)).below k = if k' == k then (l.below k).erase j else l.below k := by
  simp only [erase, below, List.filter_filter, List.filter_map, pair_beq]
  by_cases hk : k' == k
  · rw [if_pos hk]
    obtain rfl := eq_of_beq hk
    refine congrArg (fun es : List _ => (⟨es.map _⟩ : Ledger ι α)) (List.filter_congr fun e _ => ?_)
    by_cases he : e.1.1 == k' <;> simp [he]
  · rw [if_neg hk]
    refine congrArg (fun es : List _ => (⟨es.map _⟩ : Ledger ι α)) (List.filter_congr fun e _ => ?_)
    by_cases he : e.1.1 == k
    · obtain rfl := eq_of_beq he
      rw [BEq.comm] at hk
      simp [hk]
    · simp [he]

end Ledger

variable {n : Nat}

/-- An event changes the warnings of the block that it is for, and no others. -/
theorem WarningEvent.below_apply (active : Ledger (String × String) String) (e : WarningEvent) {b : Block n}
    (h : b.warnings = active.below b.id) :
    (if e.blockId = b.id then b.setWarning e.tag e.text else b).warnings = (apply active e).below b.id := by
  unfold apply
  cases htext : e.text with
  | some text =>
    rw [Ledger.below_put]
    by_cases hid : e.blockId = b.id
    · simp [hid, Block.setWarning, h]
    · simp [hid, h]
  | none =>
    rw [Ledger.below_erase]
    by_cases hid : e.blockId = b.id
    · simp [hid, Block.setWarning, h]
    · simp [hid, h]

theorem Diagram.block_update (d : Diagram n) (i j : Fin n) (f : Block n → Block n) :
    (d.update i f).block j = if i = j then f (d.block i) else d.block j := by
  show (d.blocks.set i (f (d.block i)))[j.val] = _
  rw [Vector.getElem_set]
  simp only [Fin.val_inj]
  rfl

namespace Workspace

variable {w w' : Workspace n} {blocks : List (Fin n)}

/-- Where the listed blocks have different ids, an event goes to the one with its id. -/
theorem addressee?_eq_some (hids : ∀ i ∈ blocks, ∀ j ∈ blocks, (w.block i).id = (w.block j).id → i = j) {i : Fin n}
    (hi : i ∈ blocks) : w.addressee? blocks (w.block i).id = some i := by
  unfold addressee?
  cases hfound : blocks.reverse.find? fun j => (w.block j).id == (w.block i).id with
  | none =>
    have hnone := List.find?_eq_none.mp hfound i (List.mem_reverse.mpr hi)
    simp at hnone
  | some j =>
    have hj := List.mem_reverse.mp (List.mem_of_find?_eq_some hfound)
    have hid := List.find?_some hfound
    rw [hids j hj i hi (beq_iff_eq.mp hid)]

theorem block_applyWarning (hids : ∀ i ∈ blocks, ∀ j ∈ blocks, (w.block i).id = (w.block j).id → i = j)
    (e : WarningEvent) {i : Fin n} (hi : i ∈ blocks) : (applyWarning blocks w e).1.block i =
      if e.blockId = (w.block i).id then (w.block i).setWarning e.tag e.text else w.block i := by
  unfold applyWarning
  by_cases hid : e.blockId = (w.block i).id
  · rw [hid, addressee?_eq_some hids hi, if_pos rfl]
    exact (Diagram.block_update _ _ _ _).trans (if_pos rfl)
  · rw [if_neg hid]
    split
    · rename_i j hj
      refine (Diagram.block_update _ _ _ _).trans (if_neg ?_)
      rintro rfl
      have hj := List.find?_some hj
      exact hid (beq_iff_eq.mp hj).symm
    · rfl

/-- A workspace with the same blocks, but the listed ones have their warnings from a table. -/
def Shows (w : Workspace n) (blocks : List (Fin n)) (active : Ledger (String × String) String) (w' : Workspace n) : Prop :=
  ∀ i ∈ blocks, w'.block i = { w.block i with warnings := active.below (w.block i).id }

theorem Shows.applyWarning {active : Ledger (String × String) String} (h : w.Shows blocks active w')
    (hids : ∀ i ∈ blocks, ∀ j ∈ blocks, (w.block i).id = (w.block j).id → i = j) (e : WarningEvent) :
    w.Shows blocks (e.apply active) (applyWarning blocks w' e).1 := by
  have hids' : ∀ i ∈ blocks, ∀ j ∈ blocks, (w'.block i).id = (w'.block j).id → i = j := by
    intro i hi j hj
    rw [h i hi, h j hj]
    exact hids i hi j hj
  have hothers : ∀ (b : Block n) (c : Prop) [Decidable c], (if c then b.setWarning e.tag e.text else b) =
      { b with warnings := (if c then b.setWarning e.tag e.text else b).warnings } := by
    intro b c _
    split <;> rfl
  intro i hi
  rw [block_applyWarning hids' e hi, hothers, WarningEvent.below_apply active e, h i hi]
  rw [h i hi]

theorem Shows.applyAll {active : Ledger (String × String) String} (h : w.Shows blocks active w')
    (hids : ∀ i ∈ blocks, ∀ j ∈ blocks, (w.block i).id = (w.block j).id → i = j) (events : List WarningEvent)
    (log : List LogRecord) : w.Shows blocks (events.foldl WarningEvent.apply active)
      (events.foldl (fun (w, log) e => ((Workspace.applyWarning blocks w e).1, log ++ (Workspace.applyWarning blocks w e).2))
        (w', log)).1 := by
  induction events generalizing active w' log with
  | nil => exact h
  | cons e events ih => exact ih (h.applyWarning hids e) _

/-- Replaying events on the blocks of a drawing without warnings leaves at each block what is left for its id when the
events are collapsed, in the same order, and nothing else of a block changes. -/
theorem warnings_replayed (hids : w.DistinctIds) (hnone : ∀ i, w.Reachable i → (w.block i).warnings.entries = [])
    (events : List WarningEvent) {i : Fin n} (hi : w.Reachable i) :
    let shown := (WarningEvent.active events).entries.filter fun e => e.1.1 = (w.block i).id
    (w.applyWarnings events).1.block i = { w.block i with warnings := ⟨shown.map fun e => (e.1.2, e.2)⟩ } ∧
    ((w.applyWarnings events).1.block i).warningText? =
      if shown = [] then none else some (Text.joined "\n" (shown.map (·.2))) := by
  have hstart : w.Shows w.allBlocks {} w := by
    intro j hj
    have hentries := hnone j (mem_allBlocks_iff.mp hj)
    show w.block j = { w.block j with warnings := ⟨[]⟩ }
    rw [← hentries]
  have hdistinct : ∀ i ∈ w.allBlocks, ∀ j ∈ w.allBlocks, (w.block i).id = (w.block j).id → i = j :=
    fun i hi j hj => hids i j (mem_allBlocks_iff.mp hi) (mem_allBlocks_iff.mp hj)
  have hend := hstart.applyAll hdistinct events [] i (mem_allBlocks_iff.mpr hi)
  have hblock : (w.applyWarnings events).1.block i = { w.block i with
      warnings := ⟨((WarningEvent.active events).entries.filter fun e => e.1.1 = (w.block i).id).map
        fun e => (e.1.2, e.2)⟩ } := hend
  refine ⟨hblock, ?_⟩
  rw [hblock]
  simp only [Block.warningText?, Ledger.values, List.map_map, List.isEmpty_iff, List.map_eq_nil_iff]
  rfl

end Workspace

def twoPrints : Workspace 2 where
  diagram := { blocks := #v[
    { type := "serial_print", id := "a", next := some 1 },
    { type := "serial_print", id := "b" }] : Diagram 2 }
  tops := [0]

/-- A warning that is overwritten keeps its place, and one that is cleared and set again comes last. -/
theorem twoPrints_replayed : twoPrints.DistinctIds ∧ (∀ i, (twoPrints.block i).warnings.entries = []) ∧
    (((twoPrints.applyWarnings [⟨"a", "pin", some "one"⟩, ⟨"a", "kind", some "two"⟩, ⟨"b", "pin", some "three"⟩,
      ⟨"c", "pin", some "four"⟩, ⟨"a", "duty", some "five"⟩, ⟨"a", "pin", none⟩, ⟨"a", "kind", some "six"⟩,
      ⟨"b", "pin", none⟩, ⟨"a", "pin", some "seven"⟩]).1.block 0).warnings.entries =
        [("kind", "six"), ("duty", "five"), ("pin", "seven")]) := by
  have hall : ∀ i j : Fin 2, (twoPrints.block i).id = (twoPrints.block j).id → i = j := by decide
  have hids : twoPrints.DistinctIds := fun i j _ _ => hall i j
  have hnone : ∀ i, (twoPrints.block i).warnings.entries = [] := by decide
  refine ⟨hids, hnone, ?_⟩
  rw [(Workspace.warnings_replayed hids (fun i _ => hnone i) _ ⟨0, by decide, .refl⟩).1]
  decide +kernel

end BlockScript
