import BlockScript.Proofs.Declarations
import BlockScript.Proofs.KindReads
import BlockScript.Proofs.Resolution
import BlockScript.Proofs.Traversal

namespace BlockScript

open ValueKind

/-- A block is told that its assignment does not go together with others. -/
def Inference.Blames (found : Inference) (id : String) : Prop :=
  ∃ text, ⟨id, typeTag, some text⟩ ∈ found.events

namespace TypingScope

variable {n : Nat} {s : TypingScope n} {a : Ledger Value (List (Fin n))} {found out : Inference}

theorem inferFrom_step {name : Value} {i : Fin n} {rest : List (Fin n)} {established : Option ValueKind}
    (h : s.inferFrom name (i :: rest) established found = .ok out) :
    ∃ assigned next, s.assignedKind found.kinds i = .ok assigned ∧ next.kinds = found.kinds ∧
      s.inferFrom name rest (joined established assigned) next = .ok out ∧
      ∀ id, next.Blames id ↔
        found.Blames id ∨ ((s.diagram.block i).id = id ∧ ∃ k, fit established assigned = .conflicts k) := by
  rw [inferFrom] at h
  obtain ⟨assigned, hassigned, h⟩ := ok_of_bind h
  have hjoined := joined_of_fit established assigned
  dsimp only at h
  split at h
  · rename_i hfit
    simp only [hfit] at hjoined
    refine ⟨assigned, found, hassigned, rfl, by rwa [hjoined], ?_⟩
    simp [hfit]
  · rename_i kind hfit
    simp only [hfit] at hjoined
    refine ⟨assigned, _, hassigned, ?_, by rwa [hjoined], ?_⟩
    · rfl
    · simp [Inference.Blames, hfit]
  · rename_i kind hfit
    simp only [hfit] at hjoined
    refine ⟨assigned, _, hassigned, ?_, by rwa [hjoined], ?_⟩
    · rfl
    · simp [Inference.Blames, hfit, exists_or, eq_comm]

/-- A variable comes to what its assignments combine to, and those that do not go together with it are told so. -/
theorem inferFrom_spec {name : Value} {is : List (Fin n)} {established : Option ValueKind}
    (h : s.inferFrom name is established found = .ok out) :
    ∃ kinds, is.mapM (s.assignedKind found.kinds) = .ok kinds ∧
      out.kinds = found.kinds.put name ((kinds.foldl joined established).getD .undefined) ∧
      ∀ id, out.Blames id ↔ found.Blames id ∨ ∃ i ∈ is, (s.diagram.block i).id = id ∧
        ∃ k, s.assignedKind found.kinds i = .ok k ∧ Clashes ((kinds.foldl joined established).getD .undefined) k := by
  induction is generalizing established found with
  | nil =>
    obtain rfl := Except.ok.inj h
    exact ⟨[], rfl, rfl, by simp [Inference.Blames]⟩
  | cons i rest ih =>
    obtain ⟨assigned, next, hassigned, hsame, hrest, hnext⟩ := inferFrom_step h
    obtain ⟨kinds, hkinds, hout, hblames⟩ := ih hrest
    rw [hsame] at hkinds hout hblames
    refine ⟨assigned :: kinds, ?_, hout, fun id => ?_⟩
    · rw [List.mapM_cons, hassigned, hkinds]
      rfl
    · rw [hblames, hnext, fit_conflicts_iff established assigned kinds]
      simp [hassigned, or_assoc]

theorem inferFrom_total (name : Value) {is : List (Fin n)} (established : Option ValueKind) (found : Inference)
    (h : ∀ i ∈ is, ∀ held, ∃ k, s.assignedKind held i = .ok k) :
    ∃ out, s.inferFrom name is established found = .ok out := by
  induction is generalizing established found with
  | nil => exact ⟨_, rfl⟩
  | cons i rest ih =>
    obtain ⟨assigned, hassigned⟩ := h i List.mem_cons_self found.kinds
    have hrest := fun established found => ih established found fun j hj => h j (List.mem_cons_of_mem i hj)
    rw [inferFrom, hassigned]
    simp only [bind, Except.bind]
    split
    · exact hrest _ _
    · exact hrest _ _
    · exact hrest _ _

/-- Infers the kinds of variables one after the other. -/
def sweep (s : TypingScope n) (a : Ledger Value (List (Fin n))) (order : List Value) (found : Inference) :
    Except Fault Inference :=
  order.foldlM (fun found name => s.inferVariable a name found) found

theorem sweep_cons {name : Value} {rest : List Value} (h : s.sweep a (name :: rest) found = .ok out) :
    ∃ next, s.inferVariable a name found = .ok next ∧ s.sweep a rest next = .ok out := by
  unfold sweep at h
  rw [List.foldlM_cons] at h
  exact ok_of_bind h

theorem inferVariable_spec {name : Value} (h : s.inferVariable a name found = .ok out) :
    ∃ kinds, ((a.get? name).getD []).mapM (s.assignedKind found.kinds) = .ok kinds ∧
      out.kinds = found.kinds.put name (combined kinds) ∧
      ∀ id, out.Blames id ↔ found.Blames id ∨ ∃ i ∈ (a.get? name).getD [], (s.diagram.block i).id = id ∧
        ∃ k, s.assignedKind found.kinds i = .ok k ∧ Clashes (combined kinds) k := by
  unfold inferVariable at h
  split at h
  · exact inferFrom_spec h
  · cases h

theorem sweep_total {order : List Value} (hkeys : ∀ v ∈ order, v.isKey = true)
    (h : ∀ v ∈ order, ∀ i ∈ (a.get? v).getD [], ∀ held, ∃ k, s.assignedKind held i = .ok k) (found : Inference) :
    ∃ out, s.sweep a order found = .ok out := by
  induction order generalizing found with
  | nil => exact ⟨found, rfl⟩
  | cons name rest ih =>
    obtain ⟨next, hnext⟩ := inferFrom_total name none found (h name List.mem_cons_self)
    obtain ⟨out, hout⟩ := ih (fun v hv => hkeys v (List.mem_cons_of_mem name hv))
      (fun v hv => h v (List.mem_cons_of_mem name hv)) next
    refine ⟨out, ?_⟩
    unfold sweep
    rw [List.foldlM_cons, inferVariable, if_pos (hkeys name List.mem_cons_self), hnext]
    exact hout

/-- Only the variables that are inferred change. -/
theorem sweep_frame {order : List Value} (htexts : ∀ v ∈ order, v.IsText) {u : Value} (hu : u ∉ order)
    (h : s.sweep a order found = .ok out) : out.kinds.get? u = found.kinds.get? u := by
  induction order generalizing found with
  | nil =>
    obtain rfl : found = out := Except.ok.inj h
    rfl
  | cons name rest ih =>
    obtain ⟨next, hnext, hrest⟩ := sweep_cons h
    obtain ⟨kinds, -, hkinds, -⟩ := inferVariable_spec hnext
    rw [ih (fun v hv => htexts v (List.mem_cons_of_mem name hv)) (fun hmem => hu (List.mem_cons_of_mem name hmem)) hrest,
      hkinds, Ledger.get?_put, if_neg]
    rw [(htexts name List.mem_cons_self).beq_iff]
    rintro rfl
    exact hu List.mem_cons_self

/-- A sweep comes to a variable when these kinds are known. -/
inductive Turn (s : TypingScope n) (a : Ledger Value (List (Fin n))) :
    List Value → Inference → Value → VariableKinds → Prop where
  | now {v : Value} {rest : List Value} {found : Inference} : Turn s a (v :: rest) found v found.kinds
  | later {u v : Value} {rest : List Value} {found next : Inference} {held : VariableKinds} :
      s.inferVariable a u found = .ok next → Turn s a rest next v held → Turn s a (u :: rest) found v held

variable {order : List Value} {v : Value} {held : VariableKinds}

theorem exists_turn (h : s.sweep a order found = .ok out) (hv : v ∈ order) : ∃ held, Turn s a order found v held := by
  induction order generalizing found with
  | nil => cases hv
  | cons name rest ih =>
    obtain ⟨next, hnext, hrest⟩ := sweep_cons h
    obtain rfl | hv := List.mem_cons.mp hv
    · exact ⟨_, .now⟩
    · obtain ⟨held, hturn⟩ := ih hrest hv
      exact ⟨held, .later hnext hturn⟩

theorem Turn.combined (hturn : Turn s a order found v held) (htexts : ∀ v ∈ order, v.IsText) (hnodup : order.Nodup)
    (h : s.sweep a order found = .ok out) :
    ∃ kinds, ((a.get? v).getD []).mapM (s.assignedKind held) = .ok kinds ∧
      out.kinds.get? v = some (combined kinds) := by
  induction hturn with
  | now =>
    obtain ⟨next, hnext, hrest⟩ := sweep_cons h
    obtain ⟨kinds, hmap, hkinds, -⟩ := inferVariable_spec hnext
    refine ⟨kinds, hmap, ?_⟩
    rw [sweep_frame (fun u hu => htexts u (List.mem_cons_of_mem _ hu)) (List.nodup_cons.mp hnodup).1 hrest, hkinds,
      Ledger.get?_put, if_pos BEq.rfl]
  | later hfirst _ ih =>
    obtain ⟨next, hnext, hrest⟩ := sweep_cons h
    obtain rfl := Except.ok.inj (hfirst.symm.trans hnext)
    exact ih (fun u hu => htexts u (List.mem_cons_of_mem _ hu)) (List.nodup_cons.mp hnodup).2 hrest

/-- What is known when a variable is inferred: the final kinds of those before it, and nothing new of the others. -/
theorem Turn.known (hturn : Turn s a order found v held) (htexts : ∀ v ∈ order, v.IsText) (hnodup : order.Nodup)
    (h : s.sweep a order found = .ok out) :
    ∃ before after, order = before ++ v :: after ∧ (∀ u ∈ before, held.get? u = out.kinds.get? u) ∧
      ∀ u, u ∉ before → held.get? u = found.kinds.get? u := by
  induction hturn with
  | now => exact ⟨[], _, rfl, by simp, fun _ _ => rfl⟩
  | @later name v rest _ _ held hfirst _ ih =>
    obtain ⟨next, hnext, hrest⟩ := sweep_cons h
    obtain rfl := Except.ok.inj (hfirst.symm.trans hnext)
    obtain ⟨kinds, -, hkinds, -⟩ := inferVariable_spec hnext
    obtain ⟨before, after, rfl, hbefore, hothers⟩ :=
      ih (fun u hu => htexts u (List.mem_cons_of_mem _ hu)) (List.nodup_cons.mp hnodup).2 hrest
    have hname := (List.nodup_cons.mp hnodup).1
    refine ⟨name :: before, after, rfl, ?_, fun u hu => ?_⟩
    · rintro u hu
      obtain rfl | hu := List.mem_cons.mp hu
      · rw [hothers u fun hmem => hname (List.mem_append_left _ hmem)]
        exact (sweep_frame (fun u hu => htexts u (List.mem_cons_of_mem _ hu)) hname hrest).symm
      · exact hbefore u hu
    · rw [List.mem_cons, not_or] at hu
      rw [hothers u hu.2, hkinds, Ledger.get?_put, if_neg]
      rw [(htexts name List.mem_cons_self).beq_iff]
      exact fun heq => hu.1 heq.symm

theorem sweep_blames (htexts : ∀ v ∈ order, v.IsText) (hnodup : order.Nodup) (h : s.sweep a order found = .ok out)
    (id : String) :
    out.Blames id ↔ found.Blames id ∨ ∃ v held, Turn s a order found v held ∧ ∃ i ∈ (a.get? v).getD [],
      (s.diagram.block i).id = id ∧ ∃ k, s.assignedKind held i = .ok k ∧ Clashes (kindHeld out.kinds v) k := by
  induction order generalizing found with
  | nil =>
    obtain rfl : found = out := Except.ok.inj h
    refine ⟨Or.inl, fun hout => hout.resolve_right ?_⟩
    rintro ⟨v, held, hturn, -⟩
    cases hturn
  | cons name rest ih =>
    obtain ⟨next, hnext, hrest⟩ := sweep_cons h
    obtain ⟨kinds, -, hkinds, hblames⟩ := inferVariable_spec hnext
    have htexts' : ∀ v ∈ rest, v.IsText := fun u hu => htexts u (List.mem_cons_of_mem _ hu)
    have hkind : kindHeld out.kinds name = ValueKind.combined kinds := by
      rw [kindHeld, sweep_frame htexts' (List.nodup_cons.mp hnodup).1 hrest, hkinds, Ledger.get?_put, if_pos BEq.rfl]
      rfl
    rw [ih htexts' (List.nodup_cons.mp hnodup).2 hrest, hblames, ← hkind, or_assoc]
    refine or_congr_right ⟨?_, ?_⟩
    · rintro (hself | ⟨v, held, hturn, hlater⟩)
      · exact ⟨name, found.kinds, .now, hself⟩
      · exact ⟨v, held, .later hnext hturn, hlater⟩
    · rintro ⟨v, held, hturn, hblamed⟩
      cases hturn with
      | now => exact Or.inl hblamed
      | later hfirst hturn =>
        obtain rfl := Except.ok.inj (hfirst.symm.trans hnext)
        exact Or.inr ⟨v, held, hturn, hblamed⟩

end TypingScope

namespace Workspace

open Relation TypingScope

variable {n : Nat} {w : Workspace n} {a : Ledger Value (List (Fin n))} {names : List Value}

/-- The assignments to a variable, in the order of the blocks. -/
def assignmentsTo (w : Workspace n) (name : Value) : List (Fin n) :=
  w.allBlocks.filter fun i =>
    ((w.block i).kind?.map BlockKind.assigns).getD false && (w.block i).namedVariable?.any (· == name)

theorem get?_assignmentStep {found out : Ledger Value (List (Fin n))} {i : Fin n}
    (h : w.assignmentStep found i = .ok out) (name : Value) :
    (out.get? name).getD [] = (found.get? name).getD [] ++ [i].filter fun i =>
      ((w.block i).kind?.map BlockKind.assigns).getD false && (w.block i).namedVariable?.any (· == name) := by
  unfold assignmentStep at h
  dsimp only at h
  split at h
  · rename_i hassigns
    split at h
    · rename_i v hv
      split at h
      · obtain rfl := Except.ok.inj h
        rw [Ledger.get?_put]
        by_cases hvn : (v == name) = true
        · rw [if_pos hvn, found.get?_congr hvn]
          simp [hassigns, hv, hvn]
        · simp [hassigns, hv, hvn]
      · cases h
    · obtain rfl := Except.ok.inj h
      simp_all
  · obtain rfl := Except.ok.inj h
    simp_all

theorem assignments_get? (h : w.assignments = .ok a) (name : Value) :
    (a.get? name).getD [] = w.assignmentsTo name := by
  have hrun : ∀ (is : List (Fin n)) (found : Ledger Value (List (Fin n))), is.foldlM w.assignmentStep found = .ok a →
      (a.get? name).getD [] = (found.get? name).getD [] ++ is.filter fun i =>
        ((w.block i).kind?.map BlockKind.assigns).getD false && (w.block i).namedVariable?.any (· == name) := by
    intro is
    induction is with
    | nil =>
      intro found h
      obtain rfl := Except.ok.inj h
      simp
    | cons i is ih =>
      intro found h
      rw [List.foldlM_cons] at h
      obtain ⟨next, hnext, h⟩ := ok_of_bind h
      rw [ih next h, get?_assignmentStep hnext, List.append_assoc, ← List.filter_append, List.singleton_append]
  rw [assignments_eq] at h
  exact hrun w.allBlocks {} h

theorem mem_assignmentsTo {i : Fin n} {v : Value} (hv : v.IsText) :
    i ∈ w.assignmentsTo v ↔ i ∈ w.allBlocks ∧ ((w.block i).kind?.map BlockKind.assigns).getD false = true ∧
      (w.block i).namedVariable? = some v := by
  unfold assignmentsTo
  rw [List.mem_filter, Bool.and_eq_true]
  refine and_congr_right fun _ => and_congr_right fun _ => ?_
  cases (w.block i).namedVariable? with
  | none => simp
  | some u =>
    rw [Option.any_some, Option.some_inj, BEq.comm, hv.beq_iff, eq_comm]

/-- A variable is assigned a value in which another one is read. -/
def AssignedFrom (w : Workspace n) (u v : Value) : Prop :=
  u ≠ v ∧ ∃ i ∈ w.assignmentsTo v, ∃ j ∈ w.assignedValues i, w.readVariable? j = some u

theorem assignedValues_subset {i j : Fin n} (hi : i ∈ w.allBlocks) (hj : j ∈ w.assignedValues i) : j ∈ w.allBlocks := by
  unfold assignedValues at hj
  dsimp only at hj
  split at hj
  · obtain ⟨slot, -, hj⟩ := List.mem_flatMap.mp hj
    obtain ⟨child, hchild, hj⟩ := List.mem_flatMap.mp hj
    rw [mem_allBlocks_iff] at hi ⊢
    exact (hi.child (Diagram.mem_childrenOf (p := .slot slot) (Option.mem_toList.mp hchild))).below
      (Diagram.mem_descendants_iff.mp hj)
  · cases hj

theorem mem_names_of_named (hnames : w.allVariables = .ok names) (htexts : ∀ v ∈ names, v.IsText) {i : Fin n}
    (hi : i ∈ w.allBlocks) {v : Value} (hv : (w.block i).namedVariable? = some v) : v ∈ names := by
  obtain ⟨u, hu, huv⟩ := allVariables_covers hnames hi hv
  rwa [← ((htexts u hu).beq_iff v).mp huv]

theorem AssignedFrom.mem_names {u v : Value} (h : w.AssignedFrom u v) (hnames : w.allVariables = .ok names)
    (htexts : ∀ v ∈ names, v.IsText) : u ∈ names := by
  obtain ⟨-, i, hi, j, hj, hread⟩ := h
  unfold readVariable? at hread
  split at hread
  · exact mem_names_of_named hnames htexts (assignedValues_subset (List.mem_filter.mp hi).1 hj) hread
  · cases hread

theorem mem_sourcesOf (ha : w.assignments = .ok a) {u v : Value} (hv : v.IsText) :
    u ∈ w.sourcesOf a v ↔ w.AssignedFrom u v := by
  unfold sourcesOf AssignedFrom
  rw [assignments_get? ha, List.mem_filterMap]
  constructor
  · rintro ⟨j, hj, hu⟩
    obtain ⟨hread, hne⟩ := Option.filter_eq_some_iff.mp hu
    obtain ⟨i, hi, hj⟩ := List.mem_flatMap.mp hj
    refine ⟨?_, i, hi, j, hj, hread⟩
    rintro rfl
    simp at hne
  · rintro ⟨hne, i, hi, j, hj, hread⟩
    refine ⟨j, List.mem_flatMap.mpr ⟨i, hi, hj⟩, Option.filter_eq_some_iff.mpr ⟨hread, ?_⟩⟩
    rw [BEq.comm, Bool.not_eq_true', ← Bool.not_eq_true, hv.beq_iff]
    exact hne.symm

theorem mapM_declared (htexts : ∀ v ∈ names, v.IsText) : names.mapM declared = .ok names := by
  induction names with
  | nil => rfl
  | cons v names ih =>
    obtain ⟨t, rfl⟩ := htexts v List.mem_cons_self
    rw [List.mapM_cons, ih fun u hu => htexts u (List.mem_cons_of_mem _ hu)]
    rfl

theorem checkVariables_ok (htexts : ∀ v ∈ names, v.IsText) (sources : Ledger Value (List Value))
    (hsources : ∀ e ∈ sources.entries, ∀ u ∈ e.2, u.isKey = true) : checkVariables names sources = .ok () := by
  have hkeys : (sources.values.flatten.any fun source => !source.isKey) = false := by
    simp only [Ledger.values, List.any_eq_false, List.mem_flatten, List.mem_map]
    rintro u ⟨_, ⟨e, he, rfl⟩, hu⟩
    simp [hsources e he u hu]
  have hknown : (names.any fun name => !names.contains name) = false := by
    rw [List.any_eq_false]
    intro v hv
    simp [(contains_iff_mem htexts v).mpr hv]
  unfold checkVariables
  rw [mapM_declared htexts]
  simp only [bind, Except.bind, hkeys, hknown]
  rfl

theorem get?_map_of_mem {α : Type} (f : Value → α) (htexts : ∀ v ∈ names, v.IsText) (v : Value) :
    (⟨names.map fun name => (name, f name)⟩ : Ledger Value α).get? v = if names.contains v then some (f v) else none := by
  induction names with
  | nil => rfl
  | cons u names ih =>
    have hu := htexts u List.mem_cons_self
    simp only [Ledger.get?] at ih ⊢
    rw [List.map_cons, List.find?_cons]
    by_cases huv : u = v
    · subst huv
      simp
    · have hne : (u == v) = false := Bool.eq_false_iff.mpr fun h => huv ((hu.beq_iff v).mp h)
      rw [hne, ih fun x hx => htexts x (List.mem_cons_of_mem u hx)]
      simp [List.contains_cons, BEq.comm (a := v), hne]

/-- Where variables do not depend on each other in a circle, they are inferred in one sweep, each behind those that it is
assigned from. -/
theorem infer_eq {p : Procedures n} (hp : w.procedures = .ok p) (ha : w.assignments = .ok a)
    (hnames : w.allVariables = .ok names) (htexts : ∀ v ∈ names, v.IsText)
    (hacyclic : ∀ v, ¬ TransGen w.AssignedFrom v v) :
    ∃ order, order.Perm names ∧
      (∀ before v after, order = before ++ v :: after → ∀ u, w.AssignedFrom u v → u ∈ before) ∧
      w.infer = (do
        let found ← (p.scope w).sweep a order { log := p.log ++ [] }
        return ⟨p.scope w, { found with kinds := ⟨names.map fun name => (name, kindHeld found.kinds name)⟩ }⟩) := by
  have hsources : ∀ v, ((⟨names.map fun name => (name, w.sourcesOf a name)⟩ : Ledger Value (List Value)).get? v).getD [] =
      if names.contains v then w.sourcesOf a v else [] := by
    intro v
    rw [get?_map_of_mem _ htexts]
    split <;> rfl
  have hsource : ∀ u v, u ∈ (if names.contains v then w.sourcesOf a v else []) → w.AssignedFrom u v := by
    intro u v hu
    split at hu
    · rename_i hv
      exact (mem_sourcesOf ha (htexts v ((contains_iff_mem htexts v).mp hv))).mp hu
    · cases hu
  have hkeys : names.filter Value.isKey = names := List.filter_eq_self.mpr fun v hv => (htexts v hv).isKey
  obtain ⟨order, horder⟩ := takeReady?_isSome (fun v => if names.contains v then w.sourcesOf a v else []) htexts
    fun v hv => hacyclic v (TransGen.mono hsource v v hv)
  obtain ⟨hperm, hbehind⟩ := takeReady?_order htexts horder
  refine ⟨order, hperm, fun before v after hsplit u hu => ?_, ?_⟩
  · have hv : v ∈ names := hperm.mem_iff.mp (by simp [hsplit])
    refine hbehind before v after hsplit u ?_ (hu.mem_names hnames htexts)
    rw [if_pos ((contains_iff_mem htexts v).mpr hv), mem_sourcesOf ha (htexts v hv)]
    exact hu
  · have hcheck := checkVariables_ok htexts ⟨names.map fun name => (name, w.sourcesOf a name)⟩ (by
      intro e he u hu
      obtain ⟨v, hv, rfl⟩ := List.mem_map.mp he
      exact (htexts u (((mem_sourcesOf ha (htexts v hv)).mp hu).mem_names hnames htexts)).isKey)
    have hall : (names.any fun name => !name.isKey) = false := by
      rw [List.any_eq_false]
      intro v hv
      simp [(htexts v hv).isKey]
    simp only [infer, hp, ha, hnames, bind, Except.bind, hcheck, hsources, hkeys, resolutionOrder?, horder, hall]
    rfl

/-- The variables of a drawing are inferred in an order that respects what they are assigned from. -/
structure Swept (w : Workspace n) (p : Procedures n) (a : Ledger Value (List (Fin n))) (names order : List Value)
    (start found : Inference) : Prop where
  assigned : w.assignments = .ok a
  used : w.allVariables = .ok names
  texts : ∀ v ∈ names, v.IsText
  perm : order.Perm names
  behind : ∀ before v after, order = before ++ v :: after → ∀ u, w.AssignedFrom u v → u ∈ before
  fresh : start.kinds = {} ∧ start.events = []
  swept : (p.scope w).sweep a order start = .ok found

theorem infer_swept {typed : Typed n} (h : w.infer = .ok typed)
    (htexts : ∀ names, w.allVariables = .ok names → ∀ v ∈ names, v.IsText)
    (hacyclic : ∀ v, ¬ TransGen w.AssignedFrom v v) :
    ∃ p a names order start found, w.procedures = .ok p ∧ w.Swept p a names order start found ∧
      typed = ⟨p.scope w, { found with kinds := ⟨names.map fun name => (name, kindHeld found.kinds name)⟩ }⟩ := by
  obtain ⟨p, a, names, -, hp, ha, hnames, -⟩ := infer_ok h
  obtain ⟨order, hperm, hbehind, heq⟩ := infer_eq hp ha hnames (htexts names hnames) hacyclic
  rw [h] at heq
  obtain ⟨found, hfound, htyped⟩ := ok_of_bind heq.symm
  exact ⟨p, a, names, order, _, found, hp, ⟨ha, hnames, htexts names hnames, hperm, hbehind, ⟨rfl, rfl⟩, hfound⟩,
    (Except.ok.inj htyped).symm⟩

namespace Swept

variable {p : Procedures n} {order : List Value} {start found : Inference} {held : VariableKinds} {u v : Value}

theorem order_texts (h : w.Swept p a names order start found) : ∀ v ∈ order, v.IsText :=
  fun v hv => h.texts v (h.perm.mem_iff.mp hv)

theorem order_nodup (h : w.Swept p a names order start found) : order.Nodup := by
  rw [h.perm.nodup_iff]
  refine (allVariables_apart h.used).imp fun hne => ?_
  rintro rfl
  simp at hne

theorem before_of_assignedFrom (h : w.Swept p a names order start found) (huv : TransGen w.AssignedFrom u v) :
    ∀ before after, order = before ++ v :: after → u ∈ before := by
  induction huv with
  | single huv => exact fun before after hsplit => h.behind before _ after hsplit u huv
  | @tail t v _ htv ih =>
    intro before after hsplit
    obtain ⟨first, second, rfl⟩ := List.append_of_mem (h.behind before v after hsplit t htv)
    exact List.mem_append_left _ (ih first (second ++ v :: after) (by rw [hsplit]; simp))

theorem known (h : w.Swept p a names order start found) (hturn : Turn (p.scope w) a order start v held) :
    (∀ u, TransGen w.AssignedFrom u v → kindHeld held u = kindHeld found.kinds u) ∧
      kindHeld held v = .undefined ∧ ∀ u, kindHeld held u = kindHeld found.kinds u ∨ kindHeld held u = .undefined := by
  obtain ⟨before, after, hsplit, hbefore, hothers⟩ := hturn.known h.order_texts h.order_nodup h.swept
  have hundefined : ∀ u, u ∉ before → kindHeld held u = .undefined := by
    intro u hu
    rw [kindHeld, hothers u hu, h.fresh.1]
    rfl
  have hsame : ∀ u ∈ before, kindHeld held u = kindHeld found.kinds u := by
    intro u hu
    rw [kindHeld, hbefore u hu, kindHeld]
  refine ⟨fun u hu => hsame u (h.before_of_assignedFrom hu before after hsplit), hundefined v ?_, fun u => ?_⟩
  · have hnodup := h.order_nodup
    rw [hsplit, List.nodup_append] at hnodup
    exact fun hv => hnodup.2.2 v hv v List.mem_cons_self rfl
  · by_cases hu : u ∈ before
    · exact Or.inl (hsame u hu)
    · exact Or.inr (hundefined u hu)

theorem combined (h : w.Swept p a names order start found) (hturn : Turn (p.scope w) a order start v held) :
    ∃ kinds, (w.assignmentsTo v).mapM ((p.scope w).assignedKind held) = .ok kinds ∧
      kindHeld found.kinds v = ValueKind.combined kinds := by
  obtain ⟨kinds, hkinds, hfound⟩ := hturn.combined h.order_texts h.order_nodup h.swept
  rw [assignments_get? h.assigned] at hkinds
  exact ⟨kinds, hkinds, by rw [kindHeld, hfound, Option.getD_some]⟩

theorem exists_turn (h : w.Swept p a names order start found) (hv : v ∈ names) :
    ∃ held, Turn (p.scope w) a order start v held :=
  TypingScope.exists_turn h.swept (h.perm.mem_iff.mpr hv)

theorem kindHeld_of_unused (h : w.Swept p a names order start found) (hv : v ∉ names) :
    kindHeld found.kinds v = .undefined := by
  rw [kindHeld, sweep_frame h.order_texts (fun hmem => hv (h.perm.mem_iff.mp hmem)) h.swept, h.fresh.1]
  rfl

theorem kindHeld_of_unassigned (h : w.Swept p a names order start found) (hv : w.assignmentsTo v = []) :
    kindHeld found.kinds v = .undefined := by
  by_cases hmem : v ∈ names
  · obtain ⟨held, hturn⟩ := h.exists_turn hmem
    obtain ⟨kinds, hkinds, hfound⟩ := h.combined hturn
    rw [hv] at hkinds
    obtain rfl : [] = kinds := Except.ok.inj hkinds
    exact hfound
  · exact h.kindHeld_of_unused hmem

theorem kindHeld_names (h : w.Swept p a names order start found) (v : Value) :
    kindHeld ⟨names.map fun name => (name, kindHeld found.kinds name)⟩ v = kindHeld found.kinds v := by
  rw [kindHeld, get?_map_of_mem _ h.texts]
  split
  · rfl
  · rename_i hv
    rw [contains_iff_mem h.texts] at hv
    exact (h.kindHeld_of_unused hv).symm

theorem blames (h : w.Swept p a names order start found) (id : String) :
    found.Blames id ↔ ∃ v held, Turn (p.scope w) a order start v held ∧ ∃ i ∈ w.assignmentsTo v, (w.block i).id = id ∧
      ∃ k, (p.scope w).assignedKind held i = .ok k ∧ Clashes (kindHeld found.kinds v) k := by
  rw [sweep_blames h.order_texts h.order_nodup h.swept, or_iff_right]
  · simp only [assignments_get? h.assigned]
    rfl
  · rintro ⟨text, htext⟩
    rw [h.fresh.2] at htext
    cases htext

end Swept

end Workspace

end BlockScript
