import BlockScript.Proofs.ValueRules

namespace BlockScript

open Run

variable {n : Nat} {u : Session}

/-- Where an output has a text, it is a tree, with a rank for its outermost operator unless it is unranked. -/
def Output.Tells (e? : Option Expr) (unranked : Prop) (o : Output) : Prop :=
  (o.code = "" ∧ e? = none) ∨
    ∃ code rank e, o = .expression code rank ∧ e? = some e ∧ Emits code rank e ∧ (Written rank code e ↔ ¬ unranked)

theorem Output.Tells.shows {e? : Option Expr} {unranked : Prop} {o : Output} (h : o.Tells e? unranked) :
    o.Shows e? := by
  obtain ⟨hcode, htree⟩ | ⟨code, rank, e, rfl, htree, hemits, -⟩ := h
  · cases o with
    | nothing => exact htree
    | statement code => trivial
    | expression code rank => exact Or.inl ⟨hcode, htree⟩
  · exact Or.inr ⟨e, htree, hemits⟩

/-- An output with a text in front. -/
def Output.behind (text : String) : Output → Output
  | nothing => nothing
  | statement code => statement (text ++ code)
  | expression code rank => expression (text ++ code) rank

theorem Output.behind_empty (o : Output) : o.behind "" = o := by
  cases o <;> simp [Output.behind]

namespace Scene

variable {s : Scene n}

theorem placed_gives (hnext : s.block.next = none) (hnone : Gives u (s.emit none) fun o => o = .nothing)
    (code : String) : Gives u (s.placed code) fun c => c = s.comments ++ code := by
  have hlines : Gives u s.nextLines fun c => c = "" := by
    unfold nextLines
    rw [hnext]
    refine Gives.imp (Gives.bind hnone (Q := fun o c => c = o.code) fun o => ?_) ?_
    · cases o <;> exact Gives.pure _
    · rintro c ⟨o, rfl, rfl⟩
      rfl
  refine Gives.imp (Gives.bind hlines fun c => Gives.pure _) ?_
  rintro c ⟨_, rfl, rfl⟩
  simp

theorem joined_of_empty {codes : List String} (h : ∀ code ∈ codes, code = "") : Text.joined "" codes = "" := by
  induction codes with
  | nil => rfl
  | cons code codes ih =>
    obtain rfl := h code (by simp)
    have hrest := ih fun c hc => h c (by simp [hc])
    cases codes with
    | nil => rfl
    | cons c codes => simpa [Text.joined] using hrest

theorem comments_eq_empty (hown : s.block.comment? = none) (hslots : ∀ slot ∈ s.block.slots, ∀ j,
    slot.child = some j → ∀ k ∈ s.job.diagram.descendants j, (s.job.diagram.block k).comment? = none) :
    s.comments = "" := by
  have hempty : ∀ code ∈ s.block.slots.map s.slotComments, code = "" := by
    rw [List.forall_mem_map]
    intro slot hslot
    unfold slotComments
    split
    · rename_i j _ hj
      have hnone : (s.job.diagram.descendants j).filterMap (fun k => (s.job.diagram.block k).comment?) = [] :=
        List.filterMap_eq_nil_iff.mpr (hslots slot hslot j hj)
      rw [Diagram.nestedComments, hnone]
      rfl
    · rfl
  unfold comments
  split
  · rfl
  · rw [hown]
    simpa using joined_of_empty hempty

variable {operand : Fin n → Option Expr}

theorem Shown.tells {kind : BlockKind} {o : Output} (hk : s.block.kind? = some kind)
    (h : s.Shown u operand kind o) : o.Tells (s.block.kind?.bind (s.tree? u (s.operandAt operand)))
      (∃ kind, s.block.kind? = some kind ∧ s.Unranked kind) := by
  have hunranked : (∃ kind, s.block.kind? = some kind ∧ s.Unranked kind) ↔ s.Unranked kind := by
    simp [hk]
  rw [hk, Option.bind_some]
  unfold Shown at h
  split at h
  · rename_i htree
    obtain ⟨rank, rfl⟩ := h
    exact Or.inl ⟨rfl, htree⟩
  · rename_i e htree
    obtain ⟨code, rank, rfl, hemits, hw⟩ := h
    rw [← hk, hunranked]
    exact Or.inr ⟨code, rank, e, rfl, htree, hemits, hw⟩

theorem ruleOutput_gives (hr : s.job.rules = {}) (hvalue : ∀ kind, s.block.kind? = some kind → kind.isValue = true)
    (hf : s.Faithful u operand) :
    Gives u s.ruleOutput (Output.Tells (s.block.kind?.bind (s.tree? u (s.operandAt operand)))
      (∃ kind, s.block.kind? = some kind ∧ s.Unranked kind)) := by
  rw [ruleOutput_eq hr]
  cases hk : s.block.kind? with
  | some kind =>
    have hshown := standard_gives hf (hvalue kind hk)
    refine hshown.imp fun o ho => ?_
    have htells := ho.tells hk
    rwa [hk] at htells
  | none =>
    refine Gives.imp (Gives.bind (Gives.skip (Session.grows_steps.record _)) fun _ => Gives.pure _) ?_
    rintro o ⟨_, -, rfl⟩
    refine Or.inl ⟨?_, rfl⟩
    split <;> rfl

/-- Nothing follows, so that a value block gives the output of its rule behind its comments. -/
theorem output_gives (hr : s.job.rules = {}) (hvalue : ∀ kind, s.block.kind? = some kind → kind.isValue = true)
    (hnext : s.block.next = none) (hf : s.Faithful u operand) (hnone : Gives u (s.emit none) fun o => o = .nothing) :
    Gives u s.output fun o => ∃ o' : Output, o'.Tells (s.block.kind?.bind (s.tree? u (s.operandAt operand)))
      (∃ kind, s.block.kind? = some kind ∧ s.Unranked kind) ∧ o = o'.behind s.comments := by
  refine Gives.imp (Gives.bind (ruleOutput_gives hr hvalue hf) (Q := fun o o' =>
    (∀ code, o = .statement code → code = "") → o' = o.behind s.comments) fun o => ?_) ?_
  · cases o with
    | nothing => exact (Gives.pure _).imp fun _ h _ => h
    | expression code rank =>
      refine Gives.imp (Gives.bind (placed_gives hnext hnone code) fun c => Gives.pure _) ?_
      rintro o ⟨_, rfl, rfl⟩ _
      rfl
    | statement code =>
      refine Gives.imp (Gives.bind (placed_gives hnext hnone _) fun c => Gives.pure _) ?_
      rintro o ⟨_, rfl, rfl⟩ hcode
      obtain rfl := hcode code rfl
      rfl
  · rintro o' ⟨o, htells, hsame⟩
    refine ⟨o, htells, hsame ?_⟩
    rintro code rfl
    obtain ⟨hcode, -⟩ | ⟨_, _, _, hne, -⟩ := htells
    · exact hcode
    · cases hne

end Scene

namespace Job

variable {job : Job n} {i : Fin n}

theorem treeWithin_succ (depth : Nat) (i : Fin n) : job.treeWithin u (depth + 1) i =
    if (job.diagram.block i).disabled then none
    else (job.diagram.block i).kind?.bind ((job.scene i).tree? u fun name =>
      ((job.diagram.block i).child? name).bind (job.treeWithin u depth)) := rfl

/-- A block that gives a number without finite value as an atom. -/
def Unranked (job : Job n) (i : Fin n) : Prop :=
  ∃ kind, (job.diagram.block i).kind? = some kind ∧ (job.scene i).Unranked kind

theorem emitWithin_none_gives (depth : Nat) : Gives u (job.emitWithin depth none) fun o => o = .nothing := by
  cases depth <;>
    exact Gives.imp (Gives.bind (Gives.skip Session.grows_steps.checkOpen) fun _ => Gives.pure _) fun _ ⟨_, _, h⟩ => h

/-- The text of a value block behind its comments is its tree, if the texts of the blocks in its slots are theirs. -/
theorem emitWithin_value (hr : job.rules = {}) {depth : Nat}
    (hvalue : ∀ kind, (job.diagram.block i).kind? = some kind → kind.isValue = true)
    (hnext : (job.diagram.block i).next = none)
    (hf : Scene.Faithful ⟨job, i, job.emitWithin depth⟩ u (job.treeWithin u depth)) :
    Gives u (job.emitWithin (depth + 1) (some i)) fun o => ∃ o' : Output,
      o'.Tells (job.treeWithin u (depth + 1) i) (job.Unranked i) ∧ o = o'.behind (job.scene i).comments := by
  let s : Scene n := ⟨job, i, job.emitWithin depth⟩
  have houtput := Scene.output_gives (s := s) hr hvalue hnext hf (job.emitWithin_none_gives depth)
  have hrest : Gives u (if (job.diagram.block i).disabled then job.emitWithin depth (job.diagram.block i).next
      else s.output) fun o => ∃ o' : Output, o'.Tells (job.treeWithin u (depth + 1) i) (job.Unranked i) ∧
        o = o'.behind (job.scene i).comments := by
    rw [treeWithin_succ]
    by_cases hd : (job.diagram.block i).disabled = true
    · rw [if_pos hd, if_pos hd, hnext]
      refine (job.emitWithin_none_gives depth).imp ?_
      rintro o rfl
      exact ⟨.nothing, Or.inl ⟨rfl, rfl⟩, rfl⟩
    · rw [if_neg hd, if_neg hd]
      exact houtput
  exact Gives.imp (Gives.bind (Gives.skip Session.grows_steps.checkOpen) fun _ => hrest) fun _ ⟨_, _, h⟩ => h

end Job

end BlockScript
