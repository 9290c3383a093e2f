import BlockScript.Proofs.RuleScripts

namespace BlockScript

namespace Run

/-- A relation that every single change of a session keeps. -/
structure Steps (R : Session → Session → Prop) : Prop extends Joins R where
  record : ∀ r, (record r).Within R
  fragment : ∀ part tag code overwrite, (addFragment part tag code overwrite).Within R
  identifier : ∀ realm name, (identifier realm name).Within R
  distinct : ∀ realm name, (distinctIdentifier realm name).Within R
  provide : ∀ preferred text, (provide preferred text).Within R
  procedure : ∀ name code, (addProcedure name code).Within R
  warn : ∀ id tag text, (warn id tag text).Within R
  pin : ∀ id pin task tag, (claimPin id pin task tag).Within R

theorem Joins.checkOpen {R : Session → Session → Prop} (h : Joins R) : checkOpen.Within R := by
  intro s
  rw [run_checkOpen]
  exact h.refl s

end Run

variable {n : Nat} {R : Session → Session → Prop}

theorem Deed.within (h : Run.Steps R) {α : Type} (d : Deed α) : d.run.Within R := by
  cases d with
  | record r => exact h.record r
  | fragment part tag code overwrite => exact h.fragment part tag code overwrite
  | identifier realm name => exact h.identifier realm name
  | distinct realm name => exact h.distinct realm name
  | object label tag declaration overwrite =>
    exact h.bind (h.identifier _ _) fun _ => h.bind (h.fragment _ _ _ _) fun _ => h.pure _
  | provide preferred text => exact h.provide preferred text
  | procedure name code => exact h.procedure name code
  | warn id tag text => exact h.warn id tag text
  | claim id pin task tag => exact h.pin id pin task tag
  | claims id pins task tag => exact h.forM pins fun pin _ => h.bind (h.pin id pin task tag) fun _ => h.pure _

namespace Scripted

variable {s : Scene n} {emit : Option (Fin n) → Run Output} {α : Type} {ps : List Place} {P : α → Prop} {r r' : Run α}

theorem result (h : Scripted s emit ps P r r') {σ τ : Session} {a : α} (hr : r.run σ = (.ok a, τ)) : P a := by
  induction h generalizing σ τ with
  | pure b hb =>
    obtain ⟨rfl, -⟩ := Run.ok_of_run_pure hr
    exact hb
  | throw f => exact (Run.not_ok_of_run_throw hr).elim
  | deed d hd => trivial
  | ask p => trivial
  | bind hr' hnext ih ihnext =>
    obtain ⟨b, υ, hb, hr⟩ := Run.ok_of_run_bind hr
    exact ihnext b (ih hb) hr
  | weaken h hsub hP ih => exact hP a (ih hr)

/-- A relation that the allowed changes keep, and the blocks that are asked for, the rule of a block keeps. -/
theorem within (h : Scripted s emit ps P r r') (hR : Run.Joins R)
    (hdeed : ∀ {β : Type} (d : Deed β), d.Allowed s.job s.index → d.run.Within R)
    (hask : ∀ p, (s.emit (s.block.at? p)).Within R) : r.Within R := by
  induction h with
  | pure a ha => exact hR.pure a
  | throw f => exact hR.throw f
  | deed d hd => exact hdeed d hd
  | ask p => exact hask p
  | bind h hnext ih ihnext => exact hR.bind_result ih fun _ a _ hr => ihnext a (h.result hr)
  | weaken h hsub hP ih => exact ih

end Scripted

theorem Diagram.mem_childrenOf {d : Diagram n} {i j : Fin n} {p : Place} (h : (d.block i).at? p = some j) :
    j ∈ d.childrenOf i := by
  unfold Diagram.childrenOf Block.children
  cases p with
  | next => simp [show (d.block i).next = some j from h]
  | slot name =>
    obtain ⟨slot, hslot, hchild⟩ := Option.bind_eq_some_iff.mp h
    have hmem := List.mem_of_find?_eq_some hslot
    simp only [List.map_append, List.mem_append, List.mem_map, List.mem_filterMap]
    exact Or.inl ⟨_, ⟨slot, hmem, by rw [hchild]; rfl⟩, rfl⟩

namespace Scene

variable {s : Scene n}

/-- The kind of a block decides its rule where no rules are given from outside. -/
theorem ruleOutput_eq (hr : s.job.rules = {}) : s.ruleOutput = match s.block.kind? with
    | some kind => s.standard kind
    | none => do
      Run.record (.warning ("No code generator for block type '" ++ s.block.type ++ "', emitting nothing"))
      return if s.block.hasOutput then .blankValue else .blankLine := by
  unfold ruleOutput
  rw [hr]
  have hrule : RuleBook.rule? {} s.block.type = s.block.kind?.map .standard := rfl
  rw [hrule]
  cases s.block.kind? <;> rfl

theorem placed_within (hR : Run.Joins R) (hask : ∀ p, (s.emit (s.block.at? p)).Within R) (code : String) :
    (s.placed code).Within R := by
  refine hR.bind (hR.bind (hask .next) fun output => ?_) fun _ => hR.pure _
  split
  · exact hR.throw _
  · exact hR.pure _

end Scene

namespace Job

variable {job : Job n} {Q : Fin n → Prop}

/-- What every enabled block keeps, if the blocks that it asks for keep it, all blocks keep. -/
theorem emitWithin_outputs (hR : Run.Joins R) (hQ : ∀ i, Q i → ∀ j ∈ job.diagram.childrenOf i, Q j)
    (houtput : ∀ depth i, Q i → (job.diagram.block i).disabled = false →
      (∀ p, (job.emitWithin depth ((job.diagram.block i).at? p)).Within R) →
      (Scene.output ⟨job, i, job.emitWithin depth⟩).Within R)
    (depth : Nat) {o : Option (Fin n)} (ho : ∀ i ∈ o, Q i) : (job.emitWithin depth o).Within R := by
  induction depth generalizing o with
  | zero =>
    cases o with
    | none => exact hR.bind hR.checkOpen fun _ => hR.pure _
    | some i => exact hR.throw _
  | succ depth ih =>
    cases o with
    | none => exact hR.bind hR.checkOpen fun _ => hR.pure _
    | some i =>
      have hi := ho i rfl
      have hplaces : ∀ p, (job.emitWithin depth ((job.diagram.block i).at? p)).Within R :=
        fun p => ih fun j hj => hQ i hi j (Diagram.mem_childrenOf hj)
      refine hR.bind hR.checkOpen fun _ => ?_
      dsimp only
      split
      · exact hplaces .next
      · rename_i hon
        exact houtput depth i hi (Bool.eq_false_iff.mpr hon) hplaces

/-- Writing a block out makes changes that the rule of a block below it may make, and no others. -/
theorem emitWithin_allowed (hR : Run.Joins R) (hQ : ∀ i, Q i → ∀ j ∈ job.diagram.childrenOf i, Q j)
    (hdeed : ∀ i, Q i → ∀ {β : Type} (d : Deed β), d.Allowed job i → d.run.Within R) (depth : Nat)
    {o : Option (Fin n)} (ho : ∀ i ∈ o, Q i) : (job.emitWithin depth o).Within R := by
  refine emitWithin_outputs hR hQ (fun depth i hi _ hplaces => ?_) depth ho
  obtain ⟨ps, -, hscript⟩ := Scene.output_scripted ⟨job, i, job.emitWithin depth⟩ (job.emitWithin depth)
  exact hscript.within hR (hdeed i hi) hplaces

/-- What the rules of all kinds of blocks keep, writing blocks out keeps. -/
theorem emitWithin_rules (hrules : job.rules = {}) (hR : Run.Joins R) (hrecord : ∀ r, (Run.record r).Within R)
    (hQ : ∀ i, Q i → ∀ j ∈ job.diagram.childrenOf i, Q j)
    (hrule : ∀ depth i kind, Q i → (job.diagram.block i).kind? = some kind → (job.diagram.block i).disabled = false →
      (∀ p, (job.emitWithin depth ((job.diagram.block i).at? p)).Within R) →
      (Scene.standard ⟨job, i, job.emitWithin depth⟩ kind).Within R)
    (depth : Nat) {o : Option (Fin n)} (ho : ∀ i ∈ o, Q i) : (job.emitWithin depth o).Within R := by
  refine emitWithin_outputs hR hQ (fun depth i hi hon hplaces => ?_) depth ho
  have hruled : (Scene.ruleOutput ⟨job, i, job.emitWithin depth⟩).Within R := by
    rw [Scene.ruleOutput_eq hrules]
    split
    · rename_i kind hk
      exact hrule depth i kind hi hk hon hplaces
    · exact hR.bind (hrecord _) fun _ => hR.pure _
  have hplaced : ∀ code, (Scene.placed ⟨job, i, job.emitWithin depth⟩ code).Within R := Scene.placed_within hR hplaces
  refine hR.bind hruled fun output => ?_
  cases output with
  | nothing => exact hR.pure _
  | expression code rank => exact hR.bind (hplaced _) fun _ => hR.pure _
  | statement code => exact hR.bind (hplaced _) fun _ => hR.pure _

theorem emitWithin_within (h : Run.Steps R) (job : Job n) (depth : Nat) (o : Option (Fin n)) :
    (job.emitWithin depth o).Within R :=
  emitWithin_allowed (Q := fun _ => True) h.toJoins (fun _ _ _ _ => trivial) (fun _ _ _ d _ => d.within h) depth
    fun _ _ => trivial

/-- Whatever the drawing and its rules, writing a block out changes a session by single changes only. -/
theorem emit_within (h : Run.Steps R) (job : Job n) (o : Option (Fin n)) : (job.emit o).Within R :=
  job.emitWithin_within h n o

theorem body_within (hR : Run.Joins R) {tops : List (Fin n)} (hemit : ∀ i ∈ tops, (job.emit (some i)).Within R) :
    (job.body tops).Within R :=
  hR.bind (hR.mapM tops fun i hi => hR.bind (hemit i hi) fun _ => hR.pure _) fun _ => hR.pure _

theorem body_allowed (hR : Run.Joins R) (hQ : ∀ i, Q i → ∀ j ∈ job.diagram.childrenOf i, Q j)
    (hdeed : ∀ i, Q i → ∀ {β : Type} (d : Deed β), d.Allowed job i → d.run.Within R) {tops : List (Fin n)}
    (htops : ∀ i ∈ tops, Q i) : (job.body tops).Within R := by
  refine body_within hR fun i hi => emitWithin_allowed hR hQ hdeed n ?_
  rintro j ⟨⟩
  exact htops i hi

end Job

end BlockScript
