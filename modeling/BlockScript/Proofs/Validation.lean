import Mathlib.Data.Finset.Card
import Mathlib.Data.Fintype.Card
import Mathlib.Data.String.Basic
import BlockScript.Proofs.CycleSearch

namespace BlockScript

variable {n : Nat}

def Diagram.IsParent (d : Diagram n) (i j : Fin n) : Prop :=
  j ∈ d.childrenOf i

namespace Workspace

def Reachable (w : Workspace n) (i : Fin n) : Prop :=
  ∃ top ∈ w.tops, Relation.ReflTransGen w.diagram.IsParent top i

def DistinctIds (w : Workspace n) : Prop :=
  ∀ i j, w.Reachable i → w.Reachable j → (w.block i).id = (w.block j).id → i = j

/-- A block that hangs below two others. -/
def Shared (w : Workspace n) (j : Fin n) : Prop :=
  ∃ i k, i ≠ k ∧ w.Reachable i ∧ w.Reachable k ∧ w.diagram.IsParent i j ∧ w.diagram.IsParent k j

theorem Reachable.child {w : Workspace n} {i j : Fin n} (hi : w.Reachable i) (hj : w.diagram.IsParent i j) :
    w.Reachable j := by
  obtain ⟨top, htop, hpath⟩ := hi
  exact ⟨top, htop, hpath.tail hj⟩

theorem Reachable.closed {w : Workspace n} {P : Fin n → Prop} (htops : ∀ i ∈ w.tops, P i)
    (hP : ∀ i j, P i → w.diagram.IsParent i j → P j) {i : Fin n} (hi : w.Reachable i) : P i := by
  obtain ⟨top, htop, hpath⟩ := hi
  induction hpath with
  | refl => exact htops top htop
  | tail _ hj ih => exact hP _ _ ih hj

end Workspace

namespace Connections

variable {d : Diagram n} {g g' g'' : Connections n} {source : String} {cs cs' : List (String × Fin n)}

/-- What edges from one source to some children add. -/
structure Linked (d : Diagram n) (g g' : Connections n) (source : String) (cs : List (String × Fin n)) : Prop where
  block : ∀ id, g'.block? id = g.block? id
  nodes_nodup : g.nodes.keys.Nodup → g'.nodes.keys.Nodup
  nodes : ∀ id, id ∈ g'.nodes.keys ↔ id ∈ g.nodes.keys ∨ ∃ c ∈ cs, id = (d.block c.2).id
  edges_nodup : g.edges.keys.Nodup → g'.edges.keys.Nodup
  edges : ∀ e, e ∈ g'.edges.keys ↔ e ∈ g.edges.keys ∨ ∃ c ∈ cs, e = (source, (d.block c.2).id)
  relations : ∀ e r, g'.edges.get? e = some r → g.edges.get? e = some r ∨ ∃ c ∈ cs, e = (source, (d.block c.2).id) ∧ r = c.1

theorem linked_addEdge (c : String × Fin n) : Linked d g (g.addEdge source (d.block c.2).id c.1) source [c] where
  block id := by
    unfold block? addEdge
    by_cases h : g.nodes.contains (d.block c.2).id
    · rw [if_pos h]
    · rw [if_neg h, Ledger.get?_put]
      split
      · rename_i hid
        rw [Ledger.contains_eq, Option.not_isSome_iff_eq_none] at h
        rw [← beq_iff_eq.mp hid, h]
        rfl
      · rfl
  nodes_nodup h := by
    unfold addEdge
    split
    · exact h
    · exact Ledger.nodup_keys_put h _ _
  nodes id := by
    unfold addEdge
    by_cases h : g.nodes.contains (d.block c.2).id
    · rw [if_pos h]
      rw [Ledger.contains_iff] at h
      simp only [List.mem_singleton, exists_eq_left]
      constructor
      · exact Or.inl
      · rintro (hid | rfl)
        · exact hid
        · exact h
    · rw [if_neg h, Ledger.mem_keys_put]
      simp [or_comm]
  edges_nodup h := Ledger.nodup_keys_put h _ _
  edges e := by
    unfold addEdge
    rw [Ledger.mem_keys_put]
    simp [or_comm]
  relations e r h := by
    unfold addEdge at h
    rw [Ledger.get?_put] at h
    split at h
    · rename_i he
      cases h
      exact Or.inr ⟨c, by simp, (beq_iff_eq.mp he).symm, rfl⟩
    · exact Or.inl h

theorem Linked.trans (h : Linked d g g' source cs) (h' : Linked d g' g'' source cs') :
    Linked d g g'' source (cs ++ cs') where
  block id := (h'.block id).trans (h.block id)
  nodes_nodup hg := h'.nodes_nodup (h.nodes_nodup hg)
  nodes id := by
    rw [h'.nodes, h.nodes, or_assoc]
    simp only [List.mem_append, or_and_right, exists_or]
  edges_nodup hg := h'.edges_nodup (h.edges_nodup hg)
  edges e := by
    rw [h'.edges, h.edges, or_assoc]
    simp only [List.mem_append, or_and_right, exists_or]
  relations e r he := by
    obtain he | ⟨c, hc, he⟩ := h'.relations e r he
    · obtain he | ⟨c, hc, he⟩ := h.relations e r he
      · exact Or.inl he
      · exact Or.inr ⟨c, List.mem_append_left _ hc, he⟩
    · exact Or.inr ⟨c, List.mem_append_right _ hc, he⟩

theorem linked_children (cs : List (String × Fin n)) :
    Linked d g (cs.foldl (fun g c => g.addEdge source (d.block c.2).id c.1) g) source cs := by
  induction cs generalizing g with
  | nil => exact ⟨fun _ => rfl, id, by simp, id, by simp, fun _ _ h => Or.inl h⟩
  | cons c cs ih => exact (linked_addEdge c).trans ih

/-- The graph of the blocks that have been expanded: each has its node, and an edge to each of its children. -/
structure Shows (g : Connections n) (d : Diagram n) (expanded : List (Fin n)) : Prop where
  nodup : expanded.Nodup
  block : ∀ id i, g.block? id = some i ↔ i ∈ expanded ∧ (d.block i).id = id
  nodes_nodup : g.nodes.keys.Nodup
  nodes : ∀ id, id ∈ g.nodes.keys ↔ ∃ i ∈ expanded, id = (d.block i).id ∨ ∃ j, d.IsParent i j ∧ id = (d.block j).id
  edges_nodup : g.edges.keys.Nodup
  edges : ∀ e, e ∈ g.edges.keys ↔ ∃ i ∈ expanded, ∃ j, d.IsParent i j ∧ e = ((d.block i).id, (d.block j).id)
  relations : ∀ e r, g.edges.get? e = some r →
    ∃ i ∈ expanded, ∃ j, (r, j) ∈ (d.block i).children ∧ e = ((d.block i).id, (d.block j).id)

theorem shows_empty (d : Diagram n) : ({} : Connections n).Shows d [] where
  nodup := .nil
  block := by simp [block?, Ledger.get?]
  nodes_nodup := .nil
  nodes := by simp [Ledger.keys]
  edges_nodup := .nil
  edges := by simp [Ledger.keys]
  relations := by simp [Ledger.get?]

theorem isParent_iff {i j : Fin n} : d.IsParent i j ↔ ∃ c ∈ (d.block i).children, c.2 = j := by
  simp [Diagram.IsParent, Diagram.childrenOf]

theorem Shows.addBlock {expanded : List (Fin n)} (h : g.Shows d expanded) {i : Fin n}
    (hi : g.block? (d.block i).id = none) : (g.addBlock d i).Shows d (i :: expanded) := by
  have hlinked : Linked d (g.addNode (d.block i).id i) (g.addBlock d i) (d.block i).id (d.block i).children :=
    linked_children _
  have hfresh : ∀ j ∈ expanded, (d.block j).id ≠ (d.block i).id := by
    intro j hj hid
    rw [(h.block _ j).mpr ⟨hj, hid⟩] at hi
    cases hi
  constructor
  · exact List.nodup_cons.mpr ⟨fun hmem => hfresh i hmem rfl, h.nodup⟩
  · intro id j
    have hblock : (g.addNode (d.block i).id i).block? id = if (d.block i).id == id then some i else g.block? id := by
      unfold block? addNode
      rw [Ledger.get?_put]
      split <;> rfl
    rw [hlinked.block, hblock]
    by_cases hid : (d.block i).id = id
    · rw [if_pos (beq_iff_eq.mpr hid)]
      constructor
      · intro hj
        cases hj
        exact ⟨by simp, hid⟩
      · rintro ⟨hj, hid'⟩
        obtain rfl | hj := List.mem_cons.mp hj
        · rfl
        · exact absurd (hid'.trans hid.symm) (hfresh j hj)
    · rw [if_neg (by simpa using hid), h.block]
      constructor
      · exact fun ⟨hj, hid'⟩ => ⟨List.mem_cons_of_mem _ hj, hid'⟩
      · rintro ⟨hj, hid'⟩
        obtain rfl | hj := List.mem_cons.mp hj
        · exact absurd hid' hid
        · exact ⟨hj, hid'⟩
  · exact hlinked.nodes_nodup (Ledger.nodup_keys_put h.nodes_nodup _ _)
  · intro id
    rw [hlinked.nodes, List.exists_mem_cons_iff, ← h.nodes, addNode, Ledger.mem_keys_put]
    simp only [isParent_iff]
    constructor
    · rintro ((rfl | hid) | ⟨c, hc, rfl⟩)
      · exact Or.inl (Or.inl rfl)
      · exact Or.inr hid
      · exact Or.inl (Or.inr ⟨c.2, ⟨c, hc, rfl⟩, rfl⟩)
    · rintro ((rfl | ⟨_, ⟨c, hc, rfl⟩, rfl⟩) | hid)
      · exact Or.inl (Or.inl rfl)
      · exact Or.inr ⟨c, hc, rfl⟩
      · exact Or.inl (Or.inr hid)
  · exact hlinked.edges_nodup h.edges_nodup
  · intro e
    rw [hlinked.edges, List.exists_mem_cons_iff, ← h.edges]
    simp only [isParent_iff]
    constructor
    · rintro (he | ⟨c, hc, rfl⟩)
      · exact Or.inr he
      · exact Or.inl ⟨c.2, ⟨c, hc, rfl⟩, rfl⟩
    · rintro (⟨_, ⟨c, hc, rfl⟩, rfl⟩ | he)
      · exact Or.inr ⟨c, hc, rfl⟩
      · exact Or.inl he
  · intro e r he
    obtain he | ⟨c, hc, rfl, rfl⟩ := hlinked.relations e r he
    · obtain ⟨k, hk, hrest⟩ := h.relations e r he
      exact ⟨k, List.mem_cons_of_mem _ hk, hrest⟩
    · exact ⟨i, by simp, c.2, hc, rfl⟩

end Connections

namespace Workspace

variable {w : Workspace n}

open Connections

/-- The blocks that have been expanded and those that are pending hold all top blocks and the children of what has been
expanded. -/
theorem expand_shows (hids : w.DistinctIds) (count : Nat) {pending expanded : List (Fin n)} {g : Connections n}
    (hg : g.Shows w.diagram expanded) (hexpanded : ∀ i ∈ expanded, w.Reachable i) (hpending : ∀ i ∈ pending, w.Reachable i)
    (htops : ∀ i ∈ w.tops, i ∈ expanded ∨ i ∈ pending)
    (hchildren : ∀ i ∈ expanded, ∀ j, w.diagram.IsParent i j → j ∈ expanded ∨ j ∈ pending)
    (hcount : n ≤ count + expanded.length) :
    ∃ all, (expand w.diagram count pending g).Shows w.diagram all ∧ ∀ i, i ∈ all ↔ w.Reachable i := by
  induction count generalizing pending expanded g with
  | zero =>
    refine ⟨expanded, hg, fun i => ⟨hexpanded i, fun _ => ?_⟩⟩
    by_contra hi
    have hlength := (List.nodup_cons.mpr ⟨hi, hg.nodup⟩).length_le_card
    simp only [List.length_cons, Fintype.card_fin] at hlength
    omega
  | succ count ih =>
    have hknown : ∀ i, w.Reachable i → (g.block? (w.diagram.block i).id).isSome → i ∈ expanded := by
      intro i hi hsome
      obtain ⟨j, hj⟩ := Option.isSome_iff_exists.mp hsome
      obtain ⟨hmem, hid⟩ := (hg.block _ j).mp hj
      rw [hids i j hi (hexpanded j hmem) hid.symm]
      exact hmem
    rw [expand]
    cases hdrop : pending.dropWhile fun i => (g.block? (w.diagram.block i).id).isSome with
    | nil =>
      have hdone : ∀ i ∈ pending, i ∈ expanded := fun i hi => hknown i (hpending i hi) (List.dropWhile_eq_nil_iff.mp hdrop i hi)
      refine ⟨expanded, hg, fun i => ⟨hexpanded i, fun hi => ?_⟩⟩
      apply hi.closed
      · intro top htop
        exact (htops top htop).elim id (hdone top)
      · intro i j hi hj
        exact (hchildren i hi j hj).elim id (hdone j)
    | cons i rest =>
      have hmem : ∀ j ∈ i :: rest, j ∈ pending := fun j hj => (List.dropWhile_suffix _).mem (hdrop ▸ hj)
      have hi : g.block? (w.diagram.block i).id = none := by
        have hne : (pending.dropWhile fun i => (g.block? (w.diagram.block i).id).isSome) ≠ [] := by simp [hdrop]
        simpa [hdrop] using List.head_dropWhile_not _ hne
      have hreach : w.Reachable i := hpending i (hmem i (by simp))
      have hmoved : ∀ j, j ∈ expanded ∨ j ∈ pending → j ∈ i :: expanded ∨ j ∈ (w.diagram.childrenOf i).reverse ++ rest := by
        rintro j (hj | hj)
        · exact Or.inl (List.mem_cons_of_mem _ hj)
        · rw [← List.takeWhile_append_dropWhile (l := pending), hdrop, List.mem_append, List.mem_cons] at hj
          obtain hj | rfl | hj := hj
          · apply Or.inl
            apply List.mem_cons_of_mem
            have hsome := List.mem_takeWhile_imp hj
            exact hknown j (hpending j ((List.takeWhile_sublist _).mem hj)) hsome
          · exact Or.inl (by simp)
          · exact Or.inr (List.mem_append_right _ hj)
      apply ih (hg.addBlock hi)
      · exact List.forall_mem_cons.mpr ⟨hreach, hexpanded⟩
      · intro j hj
        obtain hj | hj := List.mem_append.mp hj
        · exact hreach.child (List.mem_reverse.mp hj)
        · exact hpending j (hmem j (List.mem_cons_of_mem _ hj))
      · exact fun top htop => hmoved top (htops top htop)
      · intro k hk j hj
        obtain rfl | hk := List.mem_cons.mp hk
        · exact Or.inr (List.mem_append_left _ (List.mem_reverse.mpr hj))
        · exact hmoved j (hchildren k hk j hj)
      · simp only [List.length_cons]
        omega

/-- The graph of a drawing: a node for each block below the top blocks and an edge for each pair of parent and child. -/
structure Pictures (w : Workspace n) (g : Connections n) : Prop where
  nodes_nodup : g.nodes.keys.Nodup
  nodes : ∀ id, id ∈ g.nodes.keys ↔ ∃ i, w.Reachable i ∧ id = (w.block i).id
  block : ∀ i, w.Reachable i → g.block? (w.block i).id = some i
  edges_nodup : g.edges.keys.Nodup
  edges : ∀ a b, (a, b) ∈ g.edges.keys ↔
    ∃ i j, w.Reachable i ∧ w.diagram.IsParent i j ∧ a = (w.block i).id ∧ b = (w.block j).id
  relations : ∀ a b r, g.edges.get? (a, b) = some r →
    ∃ i j, w.Reachable i ∧ (r, j) ∈ (w.block i).children ∧ a = (w.block i).id ∧ b = (w.block j).id

theorem connections_pictures (hids : w.DistinctIds) : w.Pictures w.connections := by
  have htops : ∀ i ∈ w.tops.reverse, w.Reachable i := fun i hi => ⟨i, List.mem_reverse.mp hi, .refl⟩
  obtain ⟨all, hall, hreach⟩ := expand_shows hids n (shows_empty w.diagram) (by simp) htops
    (fun i hi => Or.inr (List.mem_reverse.mpr hi)) (by simp) (by simp)
  constructor
  · exact hall.nodes_nodup
  · intro id
    refine (hall.nodes id).trans ⟨?_, ?_⟩
    · rintro ⟨i, hi, rfl | ⟨j, hj, rfl⟩⟩
      · exact ⟨i, (hreach i).mp hi, rfl⟩
      · exact ⟨j, ((hreach i).mp hi).child hj, rfl⟩
    · rintro ⟨i, hi, rfl⟩
      exact ⟨i, (hreach i).mpr hi, Or.inl rfl⟩
  · exact fun i hi => (hall.block _ i).mpr ⟨(hreach i).mpr hi, rfl⟩
  · exact hall.edges_nodup
  · intro a b
    rw [show (a, b) ∈ w.connections.edges.keys ↔ _ from hall.edges (a, b)]
    constructor
    · rintro ⟨i, hi, j, hj, he⟩
      cases he
      exact ⟨i, j, (hreach i).mp hi, hj, rfl, rfl⟩
    · rintro ⟨i, j, hi, hj, rfl, rfl⟩
      exact ⟨i, (hreach i).mpr hi, j, hj, rfl⟩
  · intro a b r hr
    obtain ⟨i, hi, j, hj, he⟩ := hall.relations (a, b) r hr
    cases he
    exact ⟨i, j, (hreach i).mp hi, hj, rfl, rfl⟩

namespace Pictures

variable {g : Connections n}

theorem mem_successors (h : w.Pictures g) {a b : String} : b ∈ g.successors a ↔
    ∃ i j, w.Reachable i ∧ w.diagram.IsParent i j ∧ a = (w.block i).id ∧ b = (w.block j).id := by
  rw [← h.edges]
  simp [successors]

theorem closed (h : w.Pictures g) : ∀ a ∈ g.nodes.keys, ∀ b ∈ g.successors a, b ∈ g.nodes.keys := by
  intro a _ b hb
  obtain ⟨i, j, hi, hj, -, rfl⟩ := h.mem_successors.mp hb
  exact (h.nodes _).mpr ⟨j, hi.child hj, rfl⟩

theorem isParent_of_successor (h : w.Pictures g) (hids : w.DistinctIds) {i j : Fin n} (hi : w.Reachable i)
    (hj : w.Reachable j) (hij : (w.block j).id ∈ g.successors (w.block i).id) : w.diagram.IsParent i j := by
  obtain ⟨i', j', hi', hparent, hid, hid'⟩ := h.mem_successors.mp hij
  rw [hids i i' hi hi' hid, hids j j' hj (hi'.child hparent) hid']
  exact hparent

/-- A circle of nodes is one of blocks. -/
theorem circle (h : w.Pictures g) (hids : w.DistinctIds) {cycle : List String}
    (hcycle : IsCircle (fun a b => b ∈ g.successors a) cycle) (hnodes : cycle ⊆ g.nodes.keys) :
    ∃ row : List (Fin n), IsCircle w.diagram.IsParent row ∧ (∀ i ∈ row, w.Reachable i) ∧
      cycle = row.map fun i => (w.block i).id := by
  have hlift : ∀ ids : List String, ids ⊆ g.nodes.keys →
      ∃ row : List (Fin n), (∀ i ∈ row, w.Reachable i) ∧ ids = row.map fun i => (w.block i).id := by
    intro ids hsub
    induction ids with
    | nil => exact ⟨[], by simp, rfl⟩
    | cons id ids ih =>
      obtain ⟨hid, hids⟩ := List.cons_subset.mp hsub
      obtain ⟨i, hi, rfl⟩ := (h.nodes id).mp hid
      obtain ⟨row, hrow, rfl⟩ := ih hids
      exact ⟨i :: row, List.forall_mem_cons.mpr ⟨hi, hrow⟩, rfl⟩
  obtain ⟨row, hrow, rfl⟩ := hlift cycle hnodes
  refine ⟨row, ?_, hrow, rfl⟩
  obtain ⟨a, rest, hsplit, hnodup, hchain⟩ := hcycle
  cases row with
  | nil => cases hsplit
  | cons i row =>
    obtain ⟨rfl, rfl⟩ := List.cons.inj hsplit
    refine ⟨i, row, rfl, hnodup.of_map _, ?_⟩
    have hmap : List.IsChain (fun a b => b ∈ g.successors a) ((i :: (row ++ [i])).map fun i => (w.block i).id) := by
      simpa using hchain
    rw [List.isChain_map] at hmap
    have hmem : ∀ j ∈ i :: (row ++ [i]), w.Reachable j := by
      intro j hj
      apply hrow
      simpa [or_comm] using hj
    exact hmap.imp_of_mem_imp fun j k hj hk hjk => h.isParent_of_successor hids (hmem j hj) (hmem k hk) hjk

theorem transGen (h : w.Pictures g) {i j : Fin n} (hi : w.Reachable i) (hij : Relation.TransGen w.diagram.IsParent i j) :
    Relation.TransGen (fun a b => b ∈ g.successors a) (w.block i).id (w.block j).id := by
  have hstep : ∀ {a b}, w.Reachable a → w.diagram.IsParent a b → (w.block b).id ∈ g.successors (w.block a).id :=
    fun ha hab => h.mem_successors.mpr ⟨_, _, ha, hab, rfl, rfl⟩
  suffices hboth : w.Reachable j ∧ Relation.TransGen (fun a b => b ∈ g.successors a) (w.block i).id (w.block j).id from
    hboth.2
  induction hij with
  | single hij => exact ⟨hi.child hij, .single (hstep hi hij)⟩
  | tail _ hjk ih => exact ⟨ih.1.child hjk, ih.2.tail (hstep ih.1 hjk)⟩

theorem shared_iff (h : w.Pictures g) (hids : w.DistinctIds) {id : String} :
    1 < g.inDegree id ↔ ∃ j, w.Shared j ∧ id = (w.block j).id := by
  have hnodup : (g.edges.keys.filter (·.2 == id)).Nodup := h.edges_nodup.filter _
  unfold inDegree
  rw [← List.toFinset_card_of_nodup hnodup, Finset.one_lt_card_iff]
  simp only [List.mem_toFinset, List.mem_filter, beq_iff_eq]
  constructor
  · rintro ⟨⟨a, _⟩, ⟨b, _⟩, ⟨ha, rfl⟩, ⟨hb, rfl⟩, hne⟩
    obtain ⟨i, j, hi, hij, rfl, hid⟩ := (h.edges _ _).mp ha
    obtain ⟨k, j', hk, hkj, rfl, hid'⟩ := (h.edges _ _).mp hb
    obtain rfl := hids j j' (hi.child hij) (hk.child hkj) (hid.symm.trans hid')
    refine ⟨j, ⟨i, k, ?_, hi, hk, hij, hkj⟩, hid⟩
    rintro rfl
    exact hne rfl
  · rintro ⟨j, ⟨i, k, hne, hi, hk, hij, hkj⟩, rfl⟩
    refine ⟨((w.block i).id, (w.block j).id), ((w.block k).id, (w.block j).id), ⟨(h.edges _ _).mpr ⟨i, j, hi, hij, rfl, rfl⟩, rfl⟩,
      ⟨(h.edges _ _).mpr ⟨k, j, hk, hkj, rfl, rfl⟩, rfl⟩, ?_⟩
    intro he
    exact hne (hids i k hi hk (Prod.mk.inj he).1)

end Pictures

end Workspace

theorem transGen_of_chain {α : Type} {R : α → α → Prop} {a b : α} {rest : List α}
    (h : List.IsChain R (a :: (rest ++ [b]))) : Relation.TransGen R a b := by
  induction rest generalizing a with
  | nil => exact .single (List.isChain_cons_cons.mp h).1
  | cons c rest ih =>
    obtain ⟨hac, hrest⟩ := List.isChain_cons_cons.mp h
    exact .head hac (ih hrest)

section

variable {α : Type} [LinearOrder α] {before : α → α → Bool}

theorem insertSorted_pairwise (hbefore : ∀ a b, before a b = true ↔ a < b) (a : α) {as : List α}
    (h : as.Pairwise (· ≤ ·)) : (insertSorted before a as).Pairwise (· ≤ ·) := by
  induction as with
  | nil => exact List.pairwise_singleton _ _
  | cons b bs ih =>
    obtain ⟨hb, hbs⟩ := List.pairwise_cons.mp h
    rw [insertSorted]
    by_cases hlt : before b a
    · rw [if_pos hlt]
      apply List.pairwise_cons.mpr
      refine ⟨fun c hc => ?_, ih hbs⟩
      obtain rfl | hc := List.mem_cons.mp ((insertSorted_perm before a bs).mem_iff.mp hc)
      · exact ((hbefore b c).mp hlt).le
      · exact hb c hc
    · rw [if_neg hlt]
      have hle : a ≤ b := not_lt.mp fun hba => hlt ((hbefore b a).mpr hba)
      apply List.pairwise_cons.mpr
      refine ⟨fun c hc => ?_, h⟩
      obtain rfl | hc := List.mem_cons.mp hc
      · exact hle
      · exact hle.trans (hb c hc)

theorem stableSort_pairwise (hbefore : ∀ a b, before a b = true ↔ a < b) (as : List α) :
    (stableSort before as).Pairwise (· ≤ ·) := by
  induction as with
  | nil => exact .nil
  | cons a as ih => exact insertSorted_pairwise hbefore a ih

end

namespace Workspace

variable {w : Workspace n}

/-- The ids of the blocks with two parents, each once and in order. -/
def ListsShared (w : Workspace n) (ids : List String) : Prop :=
  ids.Pairwise (· < ·) ∧ ∀ id, id ∈ ids ↔ ∃ j, w.Shared j ∧ id = (w.block j).id

theorem listsShared (hids : w.DistinctIds) : w.ListsShared (stableSort (fun a b => decide (a < b))
    (w.connections.nodes.keys.filter fun id => 1 < w.connections.inDegree id)) := by
  have hpictures := connections_pictures hids
  constructor
  · apply List.Pairwise.imp₂ (fun a b hle hne => lt_of_le_of_ne hle hne) (stableSort_pairwise (by simp) _)
    exact (stableSort_perm _ _).nodup_iff.mpr (hpictures.nodes_nodup.filter _)
  · intro id
    rw [mem_stableSort, List.mem_filter, decide_eq_true_iff, hpictures.shared_iff hids, and_iff_right_iff_imp]
    rintro ⟨j, ⟨i, -, -, hi, -, hij, -⟩, rfl⟩
    exact (hpictures.nodes _).mpr ⟨j, hi.child hij, rfl⟩

theorem validate_cases (hids : w.DistinctIds) :
    (∃ row : List (Fin n), IsCircle w.diagram.IsParent row ∧ (∀ i ∈ row, w.Reachable i) ∧
      w.validate = .error (.cyclic (row.map fun i => (w.block i).type))) ∨
    (∀ i, w.Reachable i → ¬ Relation.TransGen w.diagram.IsParent i i) ∧
      ((∃ ids, ids ≠ [] ∧ w.ListsShared ids ∧ w.validate = .error (.shared ids)) ∨
        (∀ j, ¬ w.Shared j) ∧ w.validate = .ok w.connections) := by
  have hpictures := connections_pictures hids
  have hsorted := listsShared hids
  cases hfind : findCycle? w.connections.successors w.connections.nodes.keys with
  | some cycle =>
    obtain ⟨hcircle, hnodes⟩ := findCycle_some hpictures.closed hfind
    obtain ⟨row, hrow, hreach, rfl⟩ := hpictures.circle hids hcircle hnodes
    refine Or.inl ⟨row, hrow, hreach, ?_⟩
    have htypes : ∀ i ∈ row, w.connections.typeOf w.diagram (w.block i).id = (w.block i).type := by
      intro i hi
      rw [Connections.typeOf, hpictures.block i (hreach i hi)]
      rfl
    simp only [validate, hfind, List.map_map]
    rw [← List.map_congr_left htypes]
    rfl
  | none =>
    refine Or.inr ⟨fun i hi hcircle => ?_, ?_⟩
    · exact findCycle_none hpictures.closed hfind _ ((hpictures.nodes _).mpr ⟨i, hi, rfl⟩) (hpictures.transGen hi hcircle)
    · cases hfilter : w.connections.nodes.keys.filter fun id => 1 < w.connections.inDegree id with
      | nil =>
        refine Or.inr ⟨fun j hj => ?_, by simp only [validate, hfind, hfilter]⟩
        rw [hfilter] at hsorted
        exact absurd ((hsorted.2 _).mpr ⟨j, hj, rfl⟩) (by simp [stableSort])
      | cons id ids =>
        rw [hfilter] at hsorted
        refine Or.inl ⟨_, ?_, hsorted, by simp only [validate, hfind, hfilter]⟩
        exact List.ne_nil_of_mem ((mem_stableSort _ _ id).mpr (by simp))

/-- Validation rejects exactly the drawings with a circle or a block with two parents below the top blocks, says which, and
gives the graph of the others. -/
theorem validate_decides_forest (hids : w.DistinctIds) :
    ((∃ f, w.validate = .error f) ↔
      ∃ i, w.Reachable i ∧ (Relation.TransGen w.diagram.IsParent i i ∨ w.Shared i)) ∧
    (∀ f, w.validate = .error f →
      (∃ row : List (Fin n), IsCircle w.diagram.IsParent row ∧ (∀ i ∈ row, w.Reachable i) ∧
        f = .cyclic (row.map fun i => (w.block i).type) ∧
        f.message = some ("Block graph has a cycle: " ++ Text.joined " -> " (row.map fun i => (w.block i).type))) ∨
      ∃ ids, w.ListsShared ids ∧ f = .shared ids ∧
        f.message = some ("Blocks connected to more than one parent: " ++ Text.joined ", " ids)) ∧
    ∀ g, w.validate = .ok g → w.Pictures g := by
  obtain ⟨row, hrow, hreach, hvalidate⟩ | ⟨hcircles, ⟨ids, hne, hlists, hvalidate⟩ | ⟨hshared, hvalidate⟩⟩ :=
    validate_cases hids
  · rw [hvalidate]
    refine ⟨⟨fun _ => ?_, fun _ => ⟨_, rfl⟩⟩, ?_, by simp⟩
    · obtain ⟨i, rest, rfl, -, hchain⟩ := hrow
      exact ⟨i, hreach i (by simp), Or.inl (transGen_of_chain hchain)⟩
    · intro f hf
      cases hf
      exact Or.inl ⟨row, hrow, hreach, rfl, rfl⟩
  · rw [hvalidate]
    refine ⟨⟨fun _ => ?_, fun _ => ⟨_, rfl⟩⟩, ?_, by simp⟩
    · obtain ⟨id, hid⟩ := List.exists_mem_of_ne_nil ids hne
      obtain ⟨j, hj, -⟩ := (hlists.2 id).mp hid
      have hreach : w.Reachable j := by
        obtain ⟨i, -, -, hi, -, hij, -⟩ := hj
        exact hi.child hij
      exact ⟨j, hreach, Or.inr hj⟩
    · intro f hf
      cases hf
      exact Or.inr ⟨ids, hlists, rfl, rfl⟩
  · rw [hvalidate]
    refine ⟨⟨by simp, ?_⟩, by simp, ?_⟩
    · rintro ⟨i, hi, hcircle | hi'⟩
      · exact absurd hcircle (hcircles i hi)
      · exact absurd hi' (hshared i)
    · intro g hg
      cases hg
      exact connections_pictures hids

end Workspace

/-- Two blocks below each other, and one that hangs below both and below a third one. -/
def crossedBranches : Workspace 5 where
  diagram := { blocks := #v[
    { type := "controls_if", id := "a", slots := [⟨"DO0", .statement, some 3⟩], next := some 1 },
    { type := "controls_repeat", id := "b", slots := [⟨"DO", .statement, some 2⟩] },
    { type := "controls_if", id := "c", slots := [⟨"DO0", .statement, some 3⟩], next := some 4 },
    { type := "serial_print", id := "e", next := some 4 },
    { type := "serial_print", id := "d" }] : Diagram 5 }
  tops := [0]

theorem crossedBranches_distinctIds : crossedBranches.DistinctIds := by
  have hall : ∀ i j : Fin 5, (crossedBranches.block i).id = (crossedBranches.block j).id → i = j := by decide
  exact fun i j _ _ => hall i j

theorem crossedBranches_rejected : crossedBranches.DistinctIds ∧
    (crossedBranches.validate.map fun _ => ()) = .error (.shared ["d", "e"]) ∧
    ∃ i, crossedBranches.Reachable i ∧
      (Relation.TransGen crossedBranches.diagram.IsParent i i ∨ crossedBranches.Shared i) := by
  have hrejected : (crossedBranches.validate.map fun _ => ()) = .error (.shared ["d", "e"]) := by decide +kernel
  refine ⟨crossedBranches_distinctIds, hrejected, ?_⟩
  apply (Workspace.validate_decides_forest crossedBranches_distinctIds).1.mp
  cases hvalidate : crossedBranches.validate with
  | error f => exact ⟨f, rfl⟩
  | ok g =>
    rw [hvalidate] at hrejected
    cases hrejected

end BlockScript
