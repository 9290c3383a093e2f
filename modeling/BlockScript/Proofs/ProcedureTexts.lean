import BlockScript.Proofs.Definitions
import BlockScript.Proofs.Spelling

namespace BlockScript

variable {n : Nat}

namespace Names

variable {names names' : Names}

/-- Logical names that are not the same are kept under different identifiers, and all of these are in use. -/
structure Apart (names : Names) : Prop where
  used : ∀ l x, names.find? l = some x → x ∈ names.used
  apart : ∀ l l' x, names.find? l = some x → names.find? l' = some x → (l == l') = true

theorem allocate_fresh (names : Names) (l : Label) : (names.allocate l).1 ∉ names.used :=
  fun hmem => (names.freeIdentifier_firstFree l.name.identifier).not_taken (Or.inl hmem)

theorem Apart.allocate (h : names.Apart) (l : Label) : (names.allocate l).2.Apart where
  used l' x hx := List.mem_cons_of_mem _ (h.used l' x hx)
  apart := h.apart

theorem Apart.allocateFor (h : names.Apart) (l : Label) : (names.allocateFor l).2.Apart := by
  have hfresh := names.allocate_fresh l
  constructor
  · intro l' x hx
    rw [names.find?_allocateFor] at hx
    split at hx
    · obtain rfl := Option.some.inj hx
      exact List.mem_cons_self
    · exact List.mem_cons_of_mem _ (h.used l' x hx)
  · intro l' l'' x hl' hl''
    rw [names.find?_allocateFor] at hl' hl''
    split at hl'
    · rename_i hnew
      obtain rfl := Option.some.inj hl'
      split at hl''
      · rename_i hnew'
        exact BEq.trans (BEq.symm hnew) hnew'
      · exact absurd (h.used l'' _ hl'') hfresh
    · split at hl''
      · obtain rfl := Option.some.inj hl''
        exact absurd (h.used l' _ hl') hfresh
      · exact h.apart l' l'' x hl' hl''

end Names

theorem Functions.provide_procedures (f : Functions) (names : Names) (preferred text : String) :
    (f.provide names preferred text).2.1.procedures = f.procedures := by
  unfold provide identify
  cases f.identifier? preferred with
  | some x =>
    dsimp only
    split <;> rfl
  | none =>
    dsimp only
    split <;> rfl

namespace Session

variable {l : Label} {x : String} {s t : Session}

/-- A step after which different logical names still have different identifiers. -/
def StaysApart (s t : Session) : Prop :=
  s.names.Apart → t.names.Apart

theorem StaysApart.of_same (h : t.names = s.names) : s.StaysApart t := by
  intro hs
  rw [h]
  exact hs

theorem staysApart_steps : Run.Steps StaysApart where
  refl _ := id
  trans hst htu hs := htu (hst hs)
  record r s := .of_same rfl
  fragment part tag code overwrite s := by
    rw [Run.run_addFragment]
    split
    · exact .of_same (by simp [setFragments_names])
    · exact .of_same rfl
  identifier realm name s := by
    obtain hrun | ⟨y, -, hrun⟩ | ⟨-, -, r, hrun⟩ := Run.run_identifier_cases realm name s
    · rw [hrun]
      exact .of_same rfl
    · rw [hrun]
      exact .of_same rfl
    · rw [hrun]
      exact fun hs => hs.allocateFor _
  distinct realm name s := by
    rw [Run.run_distinctIdentifier]
    exact fun hs => hs.allocate _
  provide preferred text s := by
    rw [Run.run_provide]
    split
    · obtain ⟨hn, -⟩ | ⟨-, hn, -⟩ := s.functions.provide_cases s.names preferred text
      · exact .of_same (by simp [hn])
      · intro hs
        simp only [recordIf_names, hn]
        exact hs.allocate _
    · exact .of_same rfl
  procedure name code s := by
    rw [Run.run_addProcedure]
    split <;> exact .of_same rfl
  warn id tag text s := .of_same rfl
  pin id pin task tag s := by
    rw [Run.run_claimPin]
    split <;> exact .of_same rfl

/-- A step that leaves the procedures alone. -/
def SameProcedures (s t : Session) : Prop :=
  t.functions.procedures = s.functions.procedures

theorem sameProcedures_joins : Run.Joins SameProcedures where
  refl _ := rfl
  trans hst htu := htu.trans hst

theorem identifier_sameProcedures (realm : Realm) (name : Value) :
    (Run.identifier realm name).Within SameProcedures := by
  intro s
  obtain hrun | ⟨y, -, hrun⟩ | ⟨-, -, r, hrun⟩ := Run.run_identifier_cases realm name s <;>
    (rw [hrun]; rfl)

theorem addFragment_sameProcedures (part : Section) (tag : Value) (code : String) (overwrite : Bool) :
    (Run.addFragment part tag code overwrite).Within SameProcedures := by
  intro s
  rw [Run.run_addFragment]
  split
  · simp [SameProcedures, setFragments_functions]
  · rfl

theorem claimPin_sameProcedures (id : String) (pin : Value) (task : PinTask) (tag : String) :
    (Run.claimPin id pin task tag).Within SameProcedures := by
  intro s
  rw [Run.run_claimPin]
  split <;> rfl

/-- A step that leaves the text of the procedure alone that is known under this identifier. -/
structure KeepsText (l : Label) (x : String) (s t : Session) : Prop where
  grows : s.Grows t
  apart : s.StaysApart t
  text : s.names.Apart → s.names.find? l = some x →
    t.functions.procedures.get? x = s.functions.procedures.get? x

theorem keepsText_joins (l : Label) (x : String) : Run.Joins (KeepsText l x) where
  refl s := ⟨grows_joins.refl s, id, fun _ _ => rfl⟩
  trans hst htu := by
    refine ⟨grows_joins.trans hst.grows htu.grows, fun hs => htu.apart (hst.apart hs), fun hs hx => ?_⟩
    exact (htu.text (hst.apart hs) (hst.grows.1.names l x hx)).trans (hst.text hs hx)

theorem KeepsText.of_same (hgrows : s.Grows t) (hapart : s.StaysApart t) (hsame : s.SameProcedures t) :
    KeepsText l x s t :=
  ⟨hgrows, hapart, fun _ _ => by rw [hsame]⟩

theorem identifier_keepsText (realm : Realm) (name : Value) : (Run.identifier realm name).Within (KeepsText l x) :=
  fun s => .of_same (identifier_within realm name s) (staysApart_steps.identifier realm name s)
    (identifier_sameProcedures realm name s)

/-- The text of another procedure. -/
theorem addProcedure_keepsText {l' : Label} {name : String} (hname : s.names.find? l' = some name)
    (hl : (l' == l) = false) (code : String) : KeepsText l x s ((Run.addProcedure name code).run s).2 := by
  refine ⟨grows_steps.procedure name code s, staysApart_steps.procedure name code s, fun hs hx => ?_⟩
  rw [Run.run_addProcedure]
  split
  · refine (Ledger.get?_put _ _ _ _).trans (if_neg fun hsame => ?_)
    rw [← beq_iff_eq.mp hsame] at hx
    rw [hs.apart _ _ _ hname hx] at hl
    cases hl
  · rfl

end Session

/-- The rules of all blocks but definitions leave the procedures alone. -/
theorem Deed.sameProcedures {job : Job n} {i : Fin n} (hi : Workspace.isProcedure (job.diagram.block i) = false) {α : Type}
    (deed : Deed α) (h : deed.Allowed job i) : deed.run.Within Session.SameProcedures := by
  cases deed with
  | record r => exact fun s => rfl
  | fragment part tag code overwrite => exact Session.addFragment_sameProcedures part tag code overwrite
  | identifier realm name => exact Session.identifier_sameProcedures realm name
  | distinct realm name => exact fun s => rfl
  | object label tag declaration overwrite =>
    have hjoins := Session.sameProcedures_joins
    exact hjoins.bind (Session.identifier_sameProcedures _ _) fun _ =>
      hjoins.bind (Session.addFragment_sameProcedures _ _ _ _) fun _ => hjoins.pure _
  | provide preferred text =>
    intro s
    simp only [Deed.run, Run.run_provide]
    split
    · simp [Session.SameProcedures, s.functions.provide_procedures]
    · rfl
  | procedure name code =>
    rw [Deed.Allowed, hi] at h
    cases h
  | warn id tag text => exact fun s => rfl
  | claim id pin task tag => exact Session.claimPin_sameProcedures id pin task tag
  | claims id pins task tag =>
    have hjoins := Session.sameProcedures_joins
    exact hjoins.forM pins fun pin _ => hjoins.bind (Session.claimPin_sameProcedures id pin task tag) fun _ => hjoins.pure _

namespace Scene

variable {s : Scene n} {R : Session → Session → Prop} {t u : Session} {l : Label} {x : String}

section Parts

variable (hR : Run.Joins R) (hask : ∀ p, (s.emit (s.block.at? p)).Within R)

include hR hask

theorem suite_within (name : String) : (s.suite name).Within R := by
  refine hR.bind (hR.bind (hask (.slot name)) fun output => ?_) fun _ => hR.pure _
  split
  · exact hR.throw _
  · exact hR.pure _

theorem value_within (name : String) (outer : OperatorClass) (default : String) :
    (s.value name outer default).Within R := by
  unfold value valueAt
  cases hchild : s.block.child? name with
  | none => exact hR.pure _
  | some child =>
    have hemit : (s.emit (some child)).Within R := by
      rw [← hchild]
      exact hask (.slot name)
    refine hR.bind hemit fun output => ?_
    cases output with
    | statement code => exact hR.throw _
    | expression code rank => exact hR.pure _
    | nothing => exact hR.pure _

omit hask in
theorem arguments_within : s.arguments.Within R := by
  unfold arguments
  split
  · exact hR.pure _
  · exact hR.throw _

variable (hname : ∀ name, (Run.variableName name).Within R)

include hname

omit hask in
theorem addAssigned_within (arguments : List Value) (found : List String) (name : Value) :
    (addAssigned arguments found name).Within R := by
  unfold addAssigned
  by_cases hkey : name.isKey
  · simp only [hkey]
    by_cases hmem : arguments.contains name
    · rw [if_pos hmem]
      exact hR.pure _
    · rw [if_neg hmem]
      exact hR.bind (hname name) fun _ => hR.pure _
  · simp only [hkey]
    exact hR.bind_result (hR.throw _) fun _ _ _ hrun => (Run.not_ok_of_run_throw hrun).elim

omit hask in
theorem assignedGlobals_within : s.assignedGlobals.Within R := by
  unfold assignedGlobals
  split
  · exact hR.pure _
  · have hkeys : s.argumentKeys.Within R := by
      refine hR.bind (arguments_within hR) fun names => ?_
      split
      · exact hR.pure _
      · exact hR.throw _
    refine hR.bind hkeys fun arguments => ?_
    generalize List.filterMap _ _ = names
    generalize ([] : List String) = found
    induction names generalizing found with
    | nil => exact hR.pure _
    | cons name names ih =>
      rw [List.foldlM_cons]
      exact hR.bind (addAssigned_within hR hname arguments found name) ih

/-- Writing a definition out does what its parts do and what naming variables does. -/
theorem definitionUnder_within (name : String) : (s.definitionUnder name).Within R := by
  refine hR.bind (suite_within hR hask "STACK") fun _ => hR.bind (value_within hR hask _ _ _) fun _ => ?_
  refine hR.bind (assignedGlobals_within hR hname) fun _ => hR.bind (arguments_within hR) fun names => ?_
  exact hR.bind (hR.mapM names fun v _ => hname v) fun _ => placed_within hR hask _

end Parts

theorem procedureOf_found {name : String} (hrun : s.procedureOf.run t = (.ok name, u)) :
    u.names.find? s.procedureLabel = some name :=
  Run.find_of_identifier hrun

/-- The procedure of a definition is known under the identifier of its text. -/
theorem definition_found (hask : ∀ p, (s.emit (s.block.at? p)).Within Session.Grows) {name code : String}
    (hrun : s.definition.run t = (.ok (name, code), u)) : u.names.find? s.procedureLabel = some name := by
  obtain ⟨name, t, hname, hrun⟩ := Run.ok_of_run_bind hrun
  obtain ⟨code, u, hcode, hrun⟩ := Run.ok_of_run_bind hrun
  obtain ⟨⟨⟩, rfl⟩ := Run.ok_of_run_pure hrun
  have hgrows := definitionUnder_within Session.grows_joins hask (fun v => Session.identifier_within .variable v) name
  exact (hgrows.of_run hcode).1.names _ _ (procedureOf_found hname)

theorem definition_keepsText (hask : ∀ p, (s.emit (s.block.at? p)).Within (Session.KeepsText l x)) :
    s.definition.Within (Session.KeepsText l x) := by
  have hjoins := Session.keepsText_joins l x
  refine hjoins.bind (Session.identifier_keepsText _ _) fun name => hjoins.bind ?_ fun _ => hjoins.pure _
  exact definitionUnder_within hjoins hask (fun v => Session.identifier_keepsText .variable v) name

/-- The definition of another procedure has another identifier. -/
theorem procedure_keepsText (hask : ∀ p, (s.emit (s.block.at? p)).Within (Session.KeepsText l x))
    (hl : (s.procedureLabel == l) = false) : s.procedure.Within (Session.KeepsText l x) := by
  intro t
  rw [procedure_eq, Run.run_bind]
  have hdefinition := definition_keepsText hask t
  cases hrun : s.definition.run t with
  | mk result u =>
    rw [hrun] at hdefinition
    cases result with
    | error f => exact hdefinition
    | ok d =>
      have hfound := definition_found (fun p t => (hask p t).grows) hrun
      have hadd := Session.addProcedure_keepsText (x := x) hfound hl d.2
      dsimp only
      rw [Run.run_bind]
      cases hrun' : (Run.addProcedure d.1 d.2).run u with
      | mk result' v =>
        rw [hrun'] at hadd
        cases result' <;> exact (Session.keepsText_joins l x).trans hdefinition hadd

end Scene

namespace Job

variable {job : Job n} {l : Label} {x : String} {Q : Fin n → Prop}

/-- What is written out holds no other enabled definition of that name. -/
theorem emitWithin_keepsText (hrules : job.rules = {}) (hQ : ∀ i, Q i → ∀ j ∈ job.diagram.childrenOf i, Q j)
    (hother : ∀ i, Q i → Workspace.isProcedure (job.diagram.block i) = true → (job.diagram.block i).disabled = false →
      ((job.scene i).procedureLabel == l) = false) (depth : Nat) {o : Option (Fin n)} (ho : ∀ i ∈ o, Q i) :
    (job.emitWithin depth o).Within (Session.KeepsText l x) := by
  have hjoins := Session.keepsText_joins l x
  refine emitWithin_rules hrules hjoins (fun r s => ?_) hQ (fun depth i kind hi hk hon hplaces => ?_) depth ho
  · exact .of_same (Session.grows_steps.record r s) (Session.staysApart_steps.record r s) rfl
  · cases hproc : Workspace.isProcedure (job.diagram.block i) with
    | false =>
      have hasks : Scene.Asks ⟨job, i, job.emitWithin depth⟩ (job.emitWithin depth) _ _ := Scene.standard_asks hk
      obtain ⟨ps, -, hscript⟩ := hasks
      refine hscript.within hjoins (fun d hd s => ?_) hplaces
      exact .of_same (d.within Session.grows_steps s) (d.within Session.staysApart_steps s) (d.sameProcedures hproc hd s)
    | true =>
      have hl := hother i hi hproc hon
      unfold Workspace.isProcedure at hproc
      rw [hk] at hproc
      cases kind with
      | procedure returns => exact Scene.procedure_keepsText hplaces hl
      | _ => cases hproc

theorem emit_definition (hrules : job.rules = {}) {j : Fin n} (hj : Workspace.isProcedure (job.diagram.block j) = true)
    (hon : (job.diagram.block j).disabled = false) {o : Output} {s t : Session}
    (hrun : (job.emit (some j)).run s = (.ok o, t)) :
    ∃ name code u, (job.sceneWithin (n - 1) j).definition.run s = (.ok (name, code), u) ∧
      t.names.find? (job.scene j).procedureLabel = some name ∧ t.functions.procedures.get? name = some code := by
  have hemit : job.emit (some j) = Run.checkOpen >>= fun _ => (job.sceneWithin (n - 1) j).output := by
    rw [emit, show job.emitWithin n (some j) = job.emitWithin (n - 1 + 1) (some j) by rw [Nat.sub_add_cancel j.pos]]
    refine congrArg (Run.checkOpen >>= ·) (funext fun _ => if_neg ?_)
    simp [Scene.block, hon]
  rw [hemit] at hrun
  obtain ⟨_, s', hopen, hrun⟩ := Run.ok_of_run_bind hrun
  rw [Run.run_checkOpen] at hopen
  obtain rfl := (Prod.mk.inj hopen).2
  obtain ⟨o', t', hrule, hrun⟩ := Run.ok_of_run_bind hrun
  unfold Workspace.isProcedure at hj
  split at hj
  · rename_i returns hkind
    rw [Scene.ruleOutput_eq hrules, show (job.sceneWithin (n - 1) j).block.kind? = some (.procedure returns) from hkind] at hrule
    replace hrule : (job.sceneWithin (n - 1) j).procedure.run s = (.ok o', t') := hrule
    rw [Scene.procedure_eq] at hrule
    obtain ⟨⟨name, code⟩, u, hdefinition, hrule⟩ := Run.ok_of_run_bind hrule
    obtain ⟨_, t'', hadd, hrule⟩ := Run.ok_of_run_bind hrule
    obtain ⟨rfl, rfl⟩ := Run.ok_of_run_pure hrule
    obtain ⟨-, rfl⟩ := Run.ok_of_run_pure hrun
    refine ⟨name, code, u, hdefinition, ?_, Scene.procedure_kept hadd⟩
    have hask : ∀ p, ((job.sceneWithin (n - 1) j).emit ((job.sceneWithin (n - 1) j).block.at? p)).Within Session.Grows :=
      fun p => job.emitWithin_within Session.grows_steps (n - 1) _
    have hgrows := (Session.grows_steps.procedure name code).of_run hadd
    rw [show (job.scene j).procedureLabel = (job.sceneWithin (n - 1) j).procedureLabel from rfl]
    exact hgrows.1.names _ _ (Scene.definition_found hask hdefinition)
  · cases hj

/-- Top blocks with no other enabled definition of that name at or below them. -/
theorem topLines_keepsText (hrules : job.rules = {}) {tops : List (Fin n)}
    (hother : ∀ top ∈ tops, ∀ k, Relation.ReflTransGen job.diagram.IsParent top k →
      Workspace.isProcedure (job.diagram.block k) = true → (job.diagram.block k).disabled = false →
      ((job.scene k).procedureLabel == l) = false) :
    (tops.mapM job.topLines).Within (Session.KeepsText l x) := by
  have hjoins := Session.keepsText_joins l x
  refine hjoins.mapM tops fun top htop => hjoins.bind ?_ fun _ => hjoins.pure _
  refine emitWithin_keepsText (Q := Relation.ReflTransGen job.diagram.IsParent top) hrules (fun i hi k hk => hi.tail hk)
    (hother top htop) n fun i hi => ?_
  obtain rfl := Option.some.inj hi
  exact .refl

theorem topLines_within {R : Session → Session → Prop} (h : Run.Steps R) (job : Job n) (i : Fin n) :
    (job.topLines i).Within R :=
  h.bind (job.emit_within h (some i)) fun _ => h.pure _

end Job

namespace Generator

variable {g : Generator} {w : Workspace n} {σ : Session}

theorem start_apart (h : g.start w = .ok σ) : σ.names.Apart := by
  obtain ⟨typed, -, hrun⟩ := declared_of_start h
  have hsteps := Session.staysApart_steps
  have hopened : (g.opened w typed).names.Apart := ⟨nofun, nofun⟩
  refine (hsteps.forM typed.found.kinds.entries fun e _ => ?_).of_run hrun hopened
  exact hsteps.bind (hsteps.identifier .variable e.1) fun _ => hsteps.bind (hsteps.fragment _ _ _ _) fun _ => hsteps.pure _

theorem start_procedures (h : g.start w = .ok σ) : ∃ p, w.procedures = .ok p := by
  obtain ⟨typed, hinfer, -⟩ := declared_of_start h
  obtain ⟨p, hp, -⟩ := ok_of_bind hinfer
  exact ⟨p, hp⟩

end Generator

/-- Inference takes the first definition of a name. -/
theorem Workspace.procedures_first {w : Workspace n} {p : Procedures n} (hp : w.procedures = .ok p)
    {before after : List (Fin n)} {j : Fin n} (htops : w.orderedTops = before ++ j :: after)
    (hj : isProcedure (w.block j) = true) {v : Value} (hv : (w.definedName j == v) = true) :
    p.definitions.get? v =
      some ((before.find? fun i => isProcedure (w.block i) && w.definedName i == v).getD j) := by
  rw [procedures_get? hp, definitions, htops, List.filter_append, List.find?_append, List.find?_filter,
    List.filter_cons_of_pos (by simpa using hj), List.find?_cons, hv]
  simp only [Bool.decide_and, Bool.decide_eq_true]
  cases before.find? fun i => isProcedure (w.block i) && w.definedName i == v <;> rfl

/-- A program has of each procedure the text of the definition that is written last, that of a disabled one apart. Inference
takes the first one, also if it is disabled: both mean the same block if no other definition of the name stands before. -/
theorem Generator.last_definition_written {g : Generator} {w : Workspace n} (hg : g.rules = {}) {out : Generated}
    (hgen : g.generate w = .ok out) {before after : List (Fin n)} {j : Fin n}
    (htops : w.orderedTops = before ++ j :: after) (hj : Workspace.isProcedure (w.block j) = true)
    (hon : (w.block j).disabled = false) {v : Value} (hv : (w.block j).field? "NAME" = some v)
    (hlast : ∀ top ∈ after, ∀ k, Relation.ReflTransGen w.diagram.IsParent top k →
      Workspace.isProcedure (w.block k) = true → (w.block k).disabled = false →
      ((w.block k).fieldD "NAME" (.text "procedure") == v) = false) :
    (∃ p, w.procedures = .ok p ∧ p.definitions.get? v =
      some ((before.find? fun i => Workspace.isProcedure (w.block i) && w.definedName i == v).getD j)) ∧
    ∃ σ τ body lines s u name code, g.start w = .ok σ ∧ (g.body w).run σ = (.ok body, τ) ∧
      out.code = τ.program g.settings body ∧ (before.mapM (g.job w).topLines).run σ = (.ok lines, s) ∧
      ((g.job w).sceneWithin (n - 1) j).definition.run s = (.ok (name, code), u) ∧
      τ.names.find? ⟨.procedure, v⟩ = some name ∧ τ.functions.procedures.get? name = some code := by
  obtain ⟨σ, τ, body, hσ, hbody, hcode⟩ := code_of_generate hgen
  constructor
  · obtain ⟨p, hp⟩ := start_procedures hσ
    refine ⟨p, hp, Workspace.procedures_first hp htops hj ?_⟩
    rw [Workspace.definedName, Block.fieldD, hv]
    exact BEq.rfl
  · have hlines := hbody
    rw [Generator.body, Job.body, htops, List.mapM_append, List.mapM_cons] at hlines
    simp only [bind_assoc, pure_bind] at hlines
    obtain ⟨lines, s, hbefore, hlines⟩ := Run.ok_of_run_bind hlines
    obtain ⟨line, t, hline, hlines⟩ := Run.ok_of_run_bind hlines
    obtain ⟨rest, t', hafter, hlines⟩ := Run.ok_of_run_bind hlines
    obtain ⟨-, rfl⟩ := Run.ok_of_run_pure hlines
    obtain ⟨o, t', hemit, hline⟩ := Run.ok_of_run_bind hline
    obtain ⟨-, rfl⟩ := Run.ok_of_run_pure hline
    have hproc : Workspace.isProcedure ((g.job w).diagram.block j) = true := hj
    obtain ⟨name, code, u, hdefinition, hfound, htext⟩ := Job.emit_definition hg hproc hon hemit
    have hlabel : ((g.job w).scene j).procedureLabel = ⟨.procedure, v⟩ := by
      rw [Scene.procedureLabel, Block.fieldD, show ((g.job w).scene j).block.field? "NAME" = some v from hv]
      rfl
    rw [hlabel] at hfound
    have hapart : t'.names.Apart := by
      have hsteps := Session.staysApart_steps
      apply ((g.job w).emit_within hsteps (some j)).of_run hemit
      apply (hsteps.mapM before fun i _ => (g.job w).topLines_within hsteps i).of_run hbefore
      exact start_apart hσ
    have hkeeps : (after.mapM (g.job w).topLines).Within (Session.KeepsText ⟨.procedure, v⟩ name) :=
      Job.topLines_keepsText hg fun top htop k hk hproc honk =>
        Bool.and_eq_false_imp.mpr fun _ => hlast top htop k hk hproc honk
    replace hkeeps := hkeeps.of_run hafter
    refine ⟨σ, _, body, lines, s, u, name, code, hσ, hbody, hcode, hbefore, hdefinition, ?_, ?_⟩
    · exact hkeeps.grows.1.names _ _ hfound
    · exact (hkeeps.text hapart hfound).trans htext

/-- Two definitions of one name, and a call. -/
def definedTwice (disabled : Bool) : Workspace 6 where
  diagram := { blocks := #v[
    { type := "procedures_defreturn", id := "f1", fields := [("NAME", .text "f")], slots := [⟨"RETURN", .value, some 1⟩] },
    { type := "math_number", id := "one", fields := [("NUM", .int 1)], hasOutput := true },
    { type := "procedures_defreturn", id := "f2", fields := [("NAME", .text "f")], slots := [⟨"RETURN", .value, some 3⟩],
      disabled, y := .whole 1 },
    { type := "text", id := "a", fields := [("TEXT", .text "a")], hasOutput := true },
    { type := "variables_set", id := "x", fields := [("VAR", .text "x")], slots := [⟨"VALUE", .value, some 5⟩],
      y := .whole 2 },
    { type := "procedures_callreturn", id := "call", fields := [("NAME", .text "f")], hasOutput := true }] : Diagram 6 }
  tops := [0, 2, 4]

/-- The second definition is disabled. -/
theorem definedTwice_agrees : ∃ out p, Generator.generate {} (definedTwice true) = .ok out ∧
    (definedTwice true).procedures = .ok p ∧ p.definitions.get? (.text "f") = some 0 ∧
    ∃ (σ τ : Session) (body : String) (u : Session) (name code : String), Generator.start {} (definedTwice true) = .ok σ ∧
      ((Generator.job {} (definedTwice true)).sceneWithin 5 0).definition.run σ = (.ok (name, code), u) ∧
      out.code = τ.program {} body ∧ τ.names.find? ⟨.procedure, .text "f"⟩ = some name ∧
      τ.functions.procedures.get? name = some code := by
  have hok : (Generator.generate {} (definedTwice true)).toOption.isSome = true := by decide +kernel
  have htops : (definedTwice true).orderedTops = [] ++ 0 :: [2, 4] := by decide +kernel
  have horphan : ∀ i, (0 : Fin 6) ∉ (definedTwice true).diagram.childrenOf i := by decide +kernel
  have honly : ∀ k, Workspace.isProcedure ((definedTwice true).block k) = true →
      ((definedTwice true).block k).disabled = false → k = 0 := by decide +kernel
  cases hgen : Generator.generate {} (definedTwice true) with
  | error f =>
    rw [hgen] at hok
    cases hok
  | ok out =>
    have hlast : ∀ top ∈ ([2, 4] : List (Fin 6)), ∀ k, Relation.ReflTransGen (definedTwice true).diagram.IsParent top k →
        Workspace.isProcedure ((definedTwice true).block k) = true → ((definedTwice true).block k).disabled = false →
        (((definedTwice true).block k).fieldD "NAME" (.text "procedure") == .text "f") = false := by
      intro top htop k hpath hproc hon
      obtain rfl := honly k hproc hon
      obtain rfl | ⟨i, -, hi⟩ := hpath.cases_tail
      · simp at htop
      · exact absurd hi (horphan i)
    obtain ⟨⟨p, hp, hfirst⟩, σ, τ, body, lines, s, u, name, code, hσ, -, hcode, hbefore, hdefinition, hfound, htext⟩ :=
      Generator.last_definition_written rfl hgen htops (by decide +kernel) rfl rfl hlast
    obtain ⟨-, rfl⟩ := Run.ok_of_run_pure hbefore
    exact ⟨out, p, rfl, hp, hfirst, σ, τ, body, u, name, code, hσ, hdefinition, hcode, hfound, htext⟩

/-- Inference takes the first definition, which returns a number, and the program has the second one. -/
theorem definedTwice_disagrees :
    ((definedTwice false).procedures.toOption.map fun p => p.definitions.get? (.text "f")) = some (some 0) ∧
    ((definedTwice false).infer.toOption.map fun typed => typed.found.kinds.get? (.text "x")) = some (some .number) ∧
    ((Generator.start {} (definedTwice false)).toOption.bind fun σ =>
      (((Generator.job {} (definedTwice false)).sceneWithin 5 0).definition.run σ).1.toOption) =
      some ("f", "def f():\n    return 1\n") ∧
    (Generator.generate {} (definedTwice false)).toOption.map (·.code) =
      some "x = 0\n\ndef f():\n    return 'a'\n\n# ---- main ----\nx = f()\n" := by
  decide +kernel

end BlockScript
