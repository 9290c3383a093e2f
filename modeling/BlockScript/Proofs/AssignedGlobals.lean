import BlockScript.Proofs.ProcedureTexts
import BlockScript.Proofs.Tracing

namespace BlockScript

variable {n : Nat}

/-- The code with which a block of that kind gives a variable its value. A counting loop also keeps bounds, by names that
are not among the declared ones. -/
inductive AssignsTo (declared : List String) (x : String) : BlockKind → String → Prop where
  | set (value : String) : AssignsTo declared x .variableSet (x ++ " = " ++ value ++ "\n")
  | change (delta : String) : AssignsTo declared x .change (x ++ " += " ++ delta ++ "\n")
  | each (sequence body : String) : AssignsTo declared x .forEach ("for " ++ x ++ " in " ++ sequence ++ ":\n" ++ body)
  | count (first last step : Option (String × String)) (sequence body : String) :
      (∀ kept ∈ [first, last, step], ∀ line ∈ kept, line.1 ∉ declared) →
      AssignsTo declared x .counting (Scene.keptLine first ++ Scene.keptLine last ++ Scene.keptLine step ++
        ("for " ++ x ++ " in " ++ sequence ++ ":\n" ++ body))

namespace Session

variable {σ s t : Session}

/-- A step that loses no identifier and hands none out twice. -/
def Continues (s t : Session) : Prop :=
  s.Grows t ∧ s.StaysApart t

theorem continues_steps : Run.Steps Continues where
  refl s := ⟨grows_joins.refl s, staysApart_steps.refl s⟩
  trans hst htu := ⟨grows_joins.trans hst.1 htu.1, staysApart_steps.trans hst.2 htu.2⟩
  record r s := ⟨grows_steps.record r s, staysApart_steps.record r s⟩
  fragment part tag code overwrite s :=
    ⟨grows_steps.fragment part tag code overwrite s, staysApart_steps.fragment part tag code overwrite s⟩
  identifier realm name s := ⟨grows_steps.identifier realm name s, staysApart_steps.identifier realm name s⟩
  distinct realm name s := ⟨grows_steps.distinct realm name s, staysApart_steps.distinct realm name s⟩
  provide preferred text s := ⟨grows_steps.provide preferred text s, staysApart_steps.provide preferred text s⟩
  procedure name code s := ⟨grows_steps.procedure name code s, staysApart_steps.procedure name code s⟩
  warn id tag text s := ⟨grows_steps.warn id tag text s, staysApart_steps.warn id tag text s⟩
  pin id pin task tag s := ⟨grows_steps.pin id pin task tag s, staysApart_steps.pin id pin task tag s⟩

/-- A variable with an identifier is spelled by it from then on. -/
theorem Continues.spelling (h : σ.Continues s) {v : Value} (hv : σ.Knows v) {x : String}
    (hrun : (Run.variableName v).run s = (.ok x, t)) : x = σ.spelling v := by
  have hkept : t.names.find? ⟨.variable, v⟩ = some (σ.spelling v) :=
    ((grows_steps.identifier .variable v).of_run hrun).1.names _ _ (h.1.1.names _ _ hv.2)
  exact Option.some.inj ((Run.find_of_identifier hrun).symm.trans hkept)

/-- What is declared stays in use, so that no new name is one of them. -/
theorem Continues.distinct_undeclared (h : σ.Continues s) (hapart : σ.names.Apart)
    {entries : List (Value × ValueKind)} (hσ : σ.Declares entries) {name x : String}
    (hrun : (Run.distinctName name).run s = (.ok x, t)) : x ∉ σ.names.used := by
  intro hx
  rw [hσ.used, List.mem_reverse] at hx
  obtain ⟨e, he, rfl⟩ := List.mem_map.mp hx
  have hfound := h.1.1.names _ _ (hσ.named e he).2
  have hused := (h.2 hapart).used _ _ hfound
  rw [Run.distinctName, Run.run_distinctIdentifier] at hrun
  rw [← Except.ok.inj (Prod.mk.inj hrun).1] at hused
  exact s.names.allocate_fresh _ hused

end Session

namespace Scene

variable {σ t u : Session} {s : Scene n} {o : Output}

/-- A scene that is entered after a session in which the variables were declared. -/
structure Entered (s : Scene n) (σ : Session) : Prop where
  apart : σ.names.Apart
  declares : σ.Declares σ.kinds.entries
  asks : ∀ p, (s.emit (s.block.at? p)).Within Session.Continues

theorem Entered.within (h : s.Entered σ) {α : Type} {ps : List Place} {P : α → Prop} {r r' : Run α}
    (hr : Scripted s s.emit ps P r r') : r.Within Session.Continues :=
  hr.within Session.continues_steps.toJoins (fun d _ => d.within Session.continues_steps) h.asks

theorem Entered.value (h : s.Entered σ) (name : String) (outer : OperatorClass) (default : String) :
    (s.value name outer default).Within Session.Continues :=
  h.within (value_scripted name outer default)

section Assignments

variable (h : s.Entered σ) (ht : σ.Continues t) {v : Value} (hv : s.block.namedVariable? = some v) (hknown : σ.Knows v)

include ht hv hknown

theorem variableOf_spelled {default x : String} (hrun : (s.variableOf default).run t = (.ok x, u)) : x = σ.spelling v := by
  have hfield : s.block.field? Block.variableField = some v := (Option.filter_eq_some_iff.mp hv).1
  rw [variableOf, Block.fieldD, hfield] at hrun
  exact ht.spelling hknown hrun

include h

theorem assignment_spelled {slot operator : String}
    (hrun : (do
      let value ← s.value slot .none "0"
      return .statement ((← s.variableOf "x") ++ operator ++ value ++ "\n") : Run Output).run t = (.ok o, u)) :
    ∃ value, o = .statement (σ.spelling v ++ operator ++ value ++ "\n") := by
  have htrans := @Session.continues_steps.trans
  obtain ⟨value, t', hvalue, hrun⟩ := Run.ok_of_run_bind hrun
  obtain ⟨x, u, hx, hrun⟩ := Run.ok_of_run_bind hrun
  obtain ⟨rfl, -⟩ := Run.ok_of_run_pure hrun
  rw [variableOf_spelled (htrans ht ((h.value _ _ _).of_run hvalue)) hv hknown hx]
  exact ⟨value, rfl⟩

omit hv hknown in
theorem keepBound_undeclared {name suffix code : String} {kept : Bound × String}
    (hrun : (keepBound name suffix code).run t = (.ok kept, u)) :
    ∃ line, kept.2 = keptLine line ∧ ∀ e ∈ line, e.1 ∉ σ.names.used := by
  obtain ⟨line, hline, htemporary⟩ := keepBound_kept hrun
  refine ⟨line, hline, fun e he => ?_⟩
  obtain ⟨u', hx⟩ := htemporary e he
  exact ht.distinct_undeclared h.apart h.declares hx

theorem counting_spelled (hrun : s.counting.run t = (.ok o, u)) :
    AssignsTo σ.names.used (σ.spelling v) .counting o.code := by
  have htrans := @Session.continues_steps.trans
  obtain ⟨x, t', hx, hrun⟩ := Run.ok_of_run_bind hrun
  obtain rfl := variableOf_spelled ht hv hknown hx
  replace ht := htrans ht ((Session.continues_steps.identifier _ _).of_run hx)
  obtain ⟨first, t', hfirst, hrun⟩ := Run.ok_of_run_bind hrun
  replace ht := htrans ht ((h.value _ _ _).of_run hfirst)
  obtain ⟨last, t', hlast, hrun⟩ := Run.ok_of_run_bind hrun
  replace ht := htrans ht ((h.value _ _ _).of_run hlast)
  obtain ⟨step, t', hstep, hrun⟩ := Run.ok_of_run_bind hrun
  replace ht := htrans ht ((h.value _ _ _).of_run hstep)
  obtain ⟨body, t', hbody, hrun⟩ := Run.ok_of_run_bind hrun
  replace ht := htrans ht ((h.within loopBody_scripted).of_run hbody)
  have hkeep : ∀ name suffix code, (keepBound name suffix code).Within Session.Continues :=
    fun name suffix code => h.within (keepBound_scripted name suffix code)
  dsimp only at hrun
  split at hrun
  · exact (Run.not_ok_of_run_throw hrun).elim
  · obtain ⟨sequence, t', -, hrun⟩ := Run.ok_of_run_bind hrun
    obtain ⟨rfl, -⟩ := Run.ok_of_run_pure hrun
    have hcode : AssignsTo σ.names.used (σ.spelling v) .counting (keptLine none ++ keptLine none ++ keptLine none ++
        ("for " ++ σ.spelling v ++ " in " ++ sequence ++ ":\n" ++ body)) := .count none none none sequence body (by simp)
    simpa [keptLine, Output.code] using hcode
  · obtain ⟨⟨a, keptA⟩, t', ha, hrun⟩ := Run.ok_of_run_bind hrun
    obtain ⟨lineA, rfl, hlineA⟩ := keepBound_undeclared h ht ha
    replace ht := htrans ht ((hkeep _ _ _).of_run ha)
    obtain ⟨⟨b, keptB⟩, t', hb, hrun⟩ := Run.ok_of_run_bind hrun
    obtain ⟨lineB, rfl, hlineB⟩ := keepBound_undeclared h ht hb
    replace ht := htrans ht ((hkeep _ _ _).of_run hb)
    obtain ⟨⟨c, keptC⟩, t', hc, hrun⟩ := Run.ok_of_run_bind hrun
    obtain ⟨lineC, rfl, hlineC⟩ := keepBound_undeclared h ht hc
    obtain ⟨sequence, t', -, hrun⟩ := Run.ok_of_run_bind hrun
    obtain ⟨rfl, -⟩ := Run.ok_of_run_pure hrun
    refine .count lineA lineB lineC sequence body ?_
    simp only [List.forall_mem_cons, List.not_mem_nil, false_implies, implies_true, and_true]
    exact ⟨hlineA, hlineB, hlineC⟩

/-- A block that assigns writes the identifier under which its variable is declared. -/
theorem standard_assigns {kind : BlockKind} (hk : kind.assigns = true) (hrun : (s.standard kind).run t = (.ok o, u)) :
    AssignsTo σ.names.used (σ.spelling v) kind o.code := by
  cases kind with
  | variableSet =>
    obtain ⟨value, rfl⟩ := assignment_spelled h ht hv hknown hrun
    exact .set value
  | change =>
    obtain ⟨delta, rfl⟩ := assignment_spelled h ht hv hknown hrun
    exact .change delta
  | forEach =>
    obtain ⟨x, t', hx, hrun⟩ := Run.ok_of_run_bind hrun
    obtain rfl := variableOf_spelled ht hv hknown hx
    obtain ⟨sequence, t', -, hrun⟩ := Run.ok_of_run_bind hrun
    obtain ⟨body, t', -, hrun⟩ := Run.ok_of_run_bind hrun
    obtain ⟨rfl, -⟩ := Run.ok_of_run_pure hrun
    exact .each sequence body
  | counting => exact counting_spelled h ht hv hknown hrun
  | _ => cases hk

end Assignments

section Globals

variable {arguments names : List Value} {found globals : List String}

/-- A variable is added unless it is an argument or there already. -/
theorem addAssigned_collects (ht : σ.Continues t) {v : Value} (hknown : σ.Knows v) (hfound : found.Nodup)
    (hrun : (addAssigned arguments found v).run t = (.ok globals, u)) :
    globals.Nodup ∧ ∀ x, x ∈ globals ↔ x ∈ found ∨ arguments.contains v = false ∧ x = σ.spelling v := by
  unfold addAssigned at hrun
  by_cases hmem : arguments.contains v = true
  · simp only [hknown.1, hmem] at hrun
    obtain ⟨rfl, -⟩ := Run.ok_of_run_pure hrun
    exact ⟨hfound, by simp [hmem]⟩
  · rw [Bool.not_eq_true] at hmem
    simp only [hknown.1, hmem] at hrun
    obtain ⟨x, t', hx, hrun⟩ := Run.ok_of_run_bind hrun
    obtain rfl := ht.spelling hknown hx
    obtain ⟨rfl, -⟩ := Run.ok_of_run_pure hrun
    by_cases hin : found.contains (σ.spelling v) = true
    · rw [if_pos hin]
      have hin' : σ.spelling v ∈ found := by simpa using hin
      refine ⟨hfound, fun x => ⟨Or.inl, ?_⟩⟩
      rintro (hx | ⟨-, rfl⟩)
      · exact hx
      · exact hin'
    · rw [if_neg hin]
      have hnew : σ.spelling v ∉ found := by simpa using hin
      refine ⟨?_, by simp [hmem]⟩
      rw [← List.concat_eq_append]
      exact hfound.concat hnew

theorem foldlM_addAssigned_collects (ht : σ.Continues t) (hknown : ∀ v ∈ names, σ.Knows v) (hfound : found.Nodup)
    (hrun : (names.foldlM (addAssigned arguments) found).run t = (.ok globals, u)) :
    globals.Nodup ∧ ∀ x, x ∈ globals ↔ x ∈ found ∨ ∃ v ∈ names, arguments.contains v = false ∧ x = σ.spelling v := by
  induction names generalizing found t with
  | nil =>
    obtain ⟨rfl, -⟩ := Run.ok_of_run_pure hrun
    exact ⟨hfound, by simp⟩
  | cons v names ih =>
    have hsteps := Session.continues_steps
    rw [List.foldlM_cons] at hrun
    obtain ⟨next, t', hnext, hrun⟩ := Run.ok_of_run_bind hrun
    obtain ⟨hnodup, hmem⟩ := addAssigned_collects ht (hknown v (by simp)) hfound hnext
    have ht' := hsteps.trans ht ((addAssigned_within hsteps.toJoins (hsteps.identifier _) arguments found v).of_run hnext)
    obtain ⟨hnodup', hmem'⟩ := ih ht' (fun v hv => hknown v (by simp [hv])) hnodup hrun
    refine ⟨hnodup', fun x => ?_⟩
    rw [hmem', hmem, List.exists_mem_cons_iff, or_assoc]

/-- The variables that the blocks below the body of a definition assign. -/
def assignedBelow (s : Scene n) : List Value :=
  s.block.child? "STACK" |>.toList.flatMap fun stack => (s.job.diagram.descendants stack).filterMap s.assigned?

theorem assignedGlobals_collects (ht : σ.Continues t) (hargs : s.block.arguments = .ok arguments)
    (hknown : ∀ v ∈ s.assignedBelow, σ.Knows v) (hrun : s.assignedGlobals.run t = (.ok globals, u)) :
    globals.Nodup ∧ ∀ x, x ∈ globals ↔ ∃ v ∈ s.assignedBelow, arguments.contains v = false ∧ x = σ.spelling v := by
  unfold assignedGlobals at hrun
  unfold assignedBelow at hknown ⊢
  cases hstack : s.block.child? "STACK" with
  | none =>
    rw [hstack] at hrun
    obtain ⟨rfl, -⟩ := Run.ok_of_run_pure hrun
    exact ⟨.nil, by simp⟩
  | some stack =>
    rw [hstack] at hrun hknown
    rw [Option.toList_some, List.flatMap_cons, List.flatMap_nil, List.append_nil] at hknown ⊢
    obtain ⟨keys, t', hkeys, hrun⟩ := Run.ok_of_run_bind hrun
    obtain ⟨names, t'', hnames, hkeys⟩ := Run.ok_of_run_bind hkeys
    unfold Scene.arguments at hnames
    rw [hargs] at hnames
    obtain ⟨rfl, rfl⟩ := Run.ok_of_run_pure hnames
    split at hkeys
    · obtain ⟨rfl, rfl⟩ := Run.ok_of_run_pure hkeys
      obtain ⟨hnodup, hmem⟩ := foldlM_addAssigned_collects ht hknown .nil hrun
      exact ⟨hnodup, by simpa using hmem⟩
    · exact (Run.not_ok_of_run_throw hkeys).elim

theorem variableNames_spelled (ht : σ.Continues t) (hknown : ∀ v ∈ names, σ.Knows v) {parameters : List String}
    (hrun : (names.mapM Run.variableName).run t = (.ok parameters, u)) : parameters = names.map σ.spelling := by
  induction names generalizing t u parameters with
  | nil =>
    obtain ⟨rfl, -⟩ := Run.ok_of_run_pure hrun
    rfl
  | cons v names ih =>
    rw [List.mapM_cons] at hrun
    obtain ⟨x, t', hx, hrun⟩ := Run.ok_of_run_bind hrun
    obtain ⟨xs, t'', hxs, hrun⟩ := Run.ok_of_run_bind hrun
    obtain ⟨rfl, -⟩ := Run.ok_of_run_pure hrun
    have ht' := Session.continues_steps.trans ht ((Session.continues_steps.identifier _ _).of_run hx)
    rw [ht.spelling (hknown v (by simp)) hx, ih ht' (fun v hv => hknown v (by simp [hv])) hxs, List.map_cons]

end Globals

/-- The line that says which variables of the program a body gives values. -/
def globalLine (settings : Settings) (globals : List String) : String :=
  if globals.isEmpty then "" else settings.indent ++ "global " ++ Text.joined ", " globals ++ "\n"

/-- The text that is kept for a definition. -/
theorem procedure_text (h : s.Entered σ) (ht : σ.Continues t) {returns : Bool}
    (hk : s.block.kind? = some (.procedure returns)) (hbelow : ∀ v ∈ s.assignedBelow, σ.Knows v)
    (harguments : ∀ arguments, s.block.arguments = .ok arguments → ∀ v ∈ arguments, σ.Knows v)
    (hrun : s.procedure.run t = (.ok o, u)) :
    ∃ name arguments globals rest, s.block.arguments = .ok arguments ∧
      u.procedureText? s.block = some (s.comments ++ ("def " ++ name ++ "(" ++
        Text.joined ", " (arguments.map σ.spelling) ++ "):\n" ++ globalLine s.settings globals ++ rest)) ∧
      globals.Nodup ∧ ∀ x, x ∈ globals ↔ ∃ v ∈ s.assignedBelow, arguments.contains v = false ∧ x = σ.spelling v := by
  have hsteps := Session.continues_steps
  have hproc : Workspace.isProcedure s.block = true := by rw [Workspace.isProcedure, hk]
  obtain ⟨name, t', hname, hrun⟩ := Run.ok_of_run_bind hrun
  have hnamed := Run.find_of_identifier hname
  replace ht := hsteps.trans ht ((hsteps.identifier _ _).of_run hname)
  obtain ⟨body, t₂, hbody, hrun⟩ := Run.ok_of_run_bind hrun
  have h₂ := (h.within (suite_scripted "STACK")).of_run hbody
  obtain ⟨result, t₃, hresult, hrun⟩ := Run.ok_of_run_bind hrun
  have h₃ := hsteps.trans h₂ ((h.value _ _ _).of_run hresult)
  obtain ⟨globals, t₄, hglobals, hrun⟩ := Run.ok_of_run_bind hrun
  have h₄ := hsteps.trans h₃ ((h.within assignedGlobals_scripted).of_run hglobals)
  obtain ⟨arguments, t₅, hargs, hrun⟩ := Run.ok_of_run_bind hrun
  have hscript : Scripted s s.emit [] (fun names => s.block.arguments = .ok names) s.arguments s.arguments :=
    arguments_scripted
  have hnames := hscript.result hargs
  have h₅ := hsteps.trans h₄ ((h.within hscript).of_run hargs)
  obtain ⟨parameters, t₆, hparameters, hrun⟩ := Run.ok_of_run_bind hrun
  have h₆ := hsteps.trans h₅ ((hsteps.mapM arguments fun v _ => hsteps.identifier .variable v).of_run hparameters)
  obtain ⟨code, t₇, hcode, hrun⟩ := Run.ok_of_run_bind hrun
  have h₇ := hsteps.trans h₆ ((h.within (placed_scripted _)).of_run hcode)
  obtain ⟨_, t₈, hadd, hrun⟩ := Run.ok_of_run_bind hrun
  have h₈ := hsteps.trans h₇ ((hsteps.procedure _ _).of_run hadd)
  obtain ⟨-, rfl⟩ := Run.ok_of_run_pure hrun
  obtain ⟨hnodup, hmem⟩ := assignedGlobals_collects (hsteps.trans ht h₃) hnames hbelow hglobals
  obtain rfl := variableNames_spelled (hsteps.trans ht h₅) (harguments arguments hnames) hparameters
  obtain ⟨rest, rfl⟩ := placed_begins hcode
  refine ⟨name, arguments, globals, rest, hnames, ?_, hnodup, hmem⟩
  rw [Session.procedureText?, if_pos hproc, h₈.1.1.names _ _ hnamed, Option.bind_some]
  exact procedure_kept hadd

end Scene

namespace Generator

variable {g : Generator} {w : Workspace n} {σ : Session}

/-- What the rule of an enabled block gives where the block assigns a variable or defines a procedure. -/
structure Accounts (g : Generator) (w : Workspace n) (σ : Session) (a : Applied n) : Prop where
  enabled : (w.block a.index).disabled = false
  assigns : ∀ kind ∈ (w.block a.index).kind?, kind.assigns = true → ∀ v ∈ (w.block a.index).namedVariable?,
    AssignsTo σ.names.used (σ.spelling v) kind a.output.code
  reachable : w.Reachable a.index
  defines : Workspace.isProcedure (w.block a.index) = true →
    ∃ name arguments globals rest, (w.block a.index).arguments = .ok arguments ∧
      a.text? = some (((g.job w).scene a.index).comments ++ ("def " ++ name ++ "(" ++
        Text.joined ", " (arguments.map σ.spelling) ++ "):\n" ++ Scene.globalLine g.settings globals ++ rest)) ∧
      globals.Nodup ∧ ∀ x, x ∈ globals ↔ ∃ v ∈ ((g.job w).scene a.index).assignedBelow,
        arguments.contains v = false ∧ x = σ.spelling v

/-- A variable in use is declared before anything is written out. -/
theorem exists_declared (hstart : g.start w = .ok σ) {v : Value} (h : ∃ u ∈ σ.kinds.keys, (u == v) = true) :
    σ.Knows v ∧ ∃ e ∈ σ.kinds.entries, σ.spelling e.1 = σ.spelling v := by
  obtain ⟨u, hu, huv⟩ := h
  obtain ⟨e, he, rfl⟩ := List.mem_map.mp hu
  refine ⟨(start_declares hstart).2.knows he huv, e, he, ?_⟩
  rw [Session.spelling, Session.spelling, σ.identifier?_congr huv]

theorem named_covered (hstart : g.start w = .ok σ) {i : Fin n} (hi : w.Reachable i) {v : Value}
    (hv : (w.block i).namedVariable? = some v) : ∃ u ∈ σ.kinds.keys, (u == v) = true :=
  Workspace.allVariables_covers (start_declares hstart).1 (Workspace.mem_allBlocks_iff.mpr hi) hv

/-- What is assigned below a body is the variable of an enabled block there. -/
theorem mem_assignedBelow {i : Fin n} {v : Value} : v ∈ ((g.job w).scene i).assignedBelow ↔
    ∃ stack, (w.block i).child? "STACK" = some stack ∧ ∃ j ∈ w.diagram.descendants stack,
      (∃ kind ∈ (w.block j).kind?, kind.assigns = true) ∧ (w.block j).disabled = false ∧
      (w.block j).namedVariable? = some v := by
  have hassigned : ∀ j, ((g.job w).scene i).assigned? j = some v ↔ (∃ kind ∈ (w.block j).kind?, kind.assigns = true) ∧
      (w.block j).disabled = false ∧ (w.block j).namedVariable? = some v := by
    intro j
    have hblock : ((g.job w).scene i).job.diagram.block j = w.block j := rfl
    simp only [Scene.assigned?, hblock]
    cases (w.block j).kind? <;> simp [and_assoc]
  have hstack : ((g.job w).scene i).block.child? "STACK" = (w.block i).child? "STACK" := rfl
  simp only [Scene.assignedBelow, hstack, List.mem_flatMap, Option.mem_toList, Option.mem_def, List.mem_filterMap, hassigned]
  rfl

theorem assignedBelow_covered (hstart : g.start w = .ok σ) {i : Fin n} (hi : w.Reachable i) {v : Value}
    (hv : v ∈ ((g.job w).scene i).assignedBelow) : ∃ u ∈ σ.kinds.keys, (u == v) = true := by
  obtain ⟨stack, hstack, j, hj, -, -, hname⟩ := mem_assignedBelow.mp hv
  have hreach := (hi.child (Diagram.mem_childrenOf (p := .slot "STACK") hstack)).below (Diagram.mem_descendants_iff.mp hj)
  exact named_covered hstart hreach hname

theorem body_accounts (hrules : g.rules = {}) (hstart : g.start w = .ok σ) :
    Run.Traced Session.Continues σ (fun _ => g.Accounts w σ) (g.body w) ((g.job w).tracedBody w.orderedTops) := by
  have hsteps := Session.continues_steps
  have hclosed : ∀ i, w.Reachable i → ∀ j ∈ (g.job w).diagram.childrenOf i, w.Reachable j := fun i hi j hj => hi.child hj
  refine Job.body_traced hsteps.toJoins (fun _ _ _ _ ha => ha) hclosed (fun _ _ _ d _ => d.within hsteps) ?_
    fun i hi => ⟨i, (mem_runSort _ _ i).mp hi, .refl⟩
  intro depth i hi hon s o t hs hrun
  have hentered : ((g.job w).sceneWithin depth i).Entered σ :=
    ⟨start_apart hstart, (start_declares hstart).2, fun p => (g.job w).emitWithin_within hsteps depth _⟩
  have hstandard : ∀ kind, (w.block i).kind? = some kind →
      (((g.job w).sceneWithin depth i).standard kind).run s = (.ok o, t) := by
    intro kind hk
    rw [Scene.ruleOutput_eq (show (g.job w).rules = {} from hrules),
      show (Scene.block ⟨g.job w, i, (g.job w).emitWithin depth⟩).kind? = some kind from hk] at hrun
    exact hrun
  refine ⟨hon, fun kind hk hassigns v hv => ?_, hi, fun hproc => ?_⟩
  · have hknown := (exists_declared hstart (named_covered hstart hi hv)).1
    exact Scene.standard_assigns hentered hs hv hknown hassigns (hstandard kind hk)
  · have hkind : ∃ returns, (w.block i).kind? = some (.procedure returns) := by
      have hproc' : Workspace.isProcedure (w.block i) = true := hproc
      unfold Workspace.isProcedure at hproc'
      split at hproc'
      · rename_i returns hk
        exact ⟨returns, hk⟩
      · cases hproc'
    obtain ⟨returns, hk⟩ := hkind
    refine Scene.procedure_text hentered hs hk (fun v hv => ?_) (fun arguments hargs v hv => ?_) (hstandard _ hk)
    · exact (exists_declared hstart (assignedBelow_covered hstart hi hv)).1
    · exact (exists_declared hstart (Workspace.argument_covered (start_declares hstart).1 hi hproc hargs hv)).1

/-- Where assigning blocks say which variable they mean, the text of every definition that is written out begins its body
with one line of globals. All that the blocks below its body assign, at any depth, are parameters or stand in that line. It
names no parameter and nothing twice, and only variables that were declared when the session was opened. -/
theorem globals_cover_assignments (hrules : g.rules = {})
    (hvars : ∀ i, w.Reachable i → (∃ kind ∈ (w.block i).kind?, kind.assigns = true) → (w.block i).namedVariable?.isSome)
    (hstart : g.start w = .ok σ) : ∃ applied : List (Applied n), g.Traces w σ applied ∧
      ∀ a ∈ applied, Workspace.isProcedure (w.block a.index) = true →
        ∃ name arguments globals rest, (w.block a.index).arguments = .ok arguments ∧
          a.text? = some (((g.job w).scene a.index).comments ++ ("def " ++ name ++ "(" ++
            Text.joined ", " (arguments.map σ.spelling) ++ "):\n" ++ Scene.globalLine g.settings globals ++ rest)) ∧
          globals.Nodup ∧
          (∀ x ∈ globals, x ∉ arguments.map σ.spelling ∧
            ∃ e ∈ σ.kinds.entries, x = σ.spelling e.1 ∧ x ++ " = " ++ e.2.initializer ∈ σ.globals.values) ∧
          ∀ stack, (w.block a.index).child? "STACK" = some stack → ∀ b ∈ applied, b.index ∈ w.diagram.descendants stack →
            ∀ kind ∈ (w.block b.index).kind?, kind.assigns = true →
              ∃ x, AssignsTo σ.names.used x kind b.output.code ∧ (x ∈ arguments.map σ.spelling ∨ x ∈ globals) := by
  obtain ⟨hresult, hsession, -, applied, happlied, hnotes⟩ :=
    body_accounts hrules hstart σ σ rfl (Session.continues_steps.refl σ)
  refine ⟨applied, ⟨hresult, hsession, hnotes⟩, fun a ha hproc => ?_⟩
  have haccounts := happlied a ha
  obtain ⟨name, arguments, globals, rest, hargs, htext, hnodup, hmem⟩ := haccounts.defines hproc
  refine ⟨name, arguments, globals, rest, hargs, htext, hnodup, fun x hx => ?_, fun stack hstack b hb hbelow kind hk hassigns => ?_⟩
  · obtain ⟨v, hv, hother, rfl⟩ := (hmem x).mp hx
    obtain ⟨hknown, e, he, hspelled⟩ := exists_declared hstart (assignedBelow_covered hstart haccounts.reachable hv)
    refine ⟨fun hparameter => ?_, e, he, hspelled.symm, ?_⟩
    · obtain ⟨u, hu, hsame⟩ := List.mem_map.mp hparameter
      have hu' := (exists_declared hstart
        (Workspace.argument_covered (start_declares hstart).1 haccounts.reachable hproc hargs hu)).1
      have hfound : σ.names.find? ⟨.variable, u⟩ = some (σ.spelling v) := hsame ▸ hu'.2
      have huv := (Label.beq_iff _ _).mp ((start_apart hstart).apart _ _ _ hknown.2 hfound)
      rw [List.contains_iff_exists_mem_beq.mpr ⟨u, hu, huv.2⟩] at hother
      cases hother
    · rw [← hspelled, Ledger.values, (start_declares hstart).2.lines, List.map_map]
      exact List.mem_map.mpr ⟨e, he, rfl⟩
  · obtain ⟨v, hv⟩ := Option.isSome_iff_exists.mp (hvars b.index (happlied b hb).reachable ⟨kind, hk, hassigns⟩)
    refine ⟨σ.spelling v, (happlied b hb).assigns kind hk hassigns v hv, ?_⟩
    by_cases hargument : arguments.contains v = true
    · obtain ⟨u, hu, huv⟩ := List.contains_iff_exists_mem_beq.mp hargument
      refine Or.inl (List.mem_map.mpr ⟨u, hu, ?_⟩)
      rw [Session.spelling, Session.spelling, σ.identifier?_congr huv]
    · refine Or.inr ((hmem _).mpr ⟨v, mem_assignedBelow.mpr ?_, Bool.eq_false_iff.mpr hargument, rfl⟩)
      exact ⟨stack, hstack, b.index, hbelow, ⟨kind, hk, hassigns⟩, (happlied b hb).enabled, hv⟩

end Generator

/-- A procedure that counts, changes its argument, sets a variable that is spelled like it, and skips a disabled block. -/
def nestedAssignments : Workspace 7 where
  diagram := { blocks := #v[
    { type := "procedures_defnoreturn", id := "p", fields := [("NAME", .text "f")],
      slots := [⟨"STACK", .statement, some 1⟩], shape := [("arguments", .list [.text "a b"])] },
    { type := "controls_for", id := "c", fields := [("VAR", .text "count")],
      slots := [⟨"FROM", .value, some 2⟩, ⟨"DO", .statement, some 3⟩], next := some 6 },
    { type := "io_digitalread", id := "d", fields := [("PIN", .text "1")], hasOutput := true },
    { type := "math_change", id := "m", fields := [("VAR", .text "a b")], next := some 4 },
    { type := "variables_set", id := "s", fields := [("VAR", .text "a_b")], next := some 5 },
    { type := "variables_set", id := "o", fields := [("VAR", .text "off")], disabled := true },
    { type := "variables_set", id := "t", fields := [("VAR", .text "count")] }] : Diagram 7 }
  tops := [0]

theorem nestedAssignments_covered :
    (∀ i, nestedAssignments.Reachable i → (∃ kind ∈ (nestedAssignments.block i).kind?, kind.assigns = true) →
      (nestedAssignments.block i).namedVariable?.isSome) ∧
    ∃ σ, Generator.start {} nestedAssignments = .ok σ ∧
      ((Generator.body {} nestedAssignments).run σ).2.functions.procedures.values =
        ["def f(a_b):\n    global count, a_b_2\n    count_start = float(pin1.value())\n" ++
          "    for count in (upRange if count_start <= 0 else downRange)(count_start, 0, 1):\n" ++
          "        a_b += 0\n        a_b_2 = 0\n    count = 0\n"] ∧
      ∃ applied, Generator.Traces {} nestedAssignments σ applied ∧ ∀ a ∈ applied, a.index = 0 →
        ∃ (arguments : List Value) (globals : List String), globals.Nodup ∧
          (∀ x ∈ globals, x ∉ arguments.map σ.spelling) ∧ ∀ b ∈ applied, b.index = 4 →
            ∃ x, AssignsTo σ.names.used x .variableSet b.output.code ∧ (x ∈ arguments.map σ.spelling ∨ x ∈ globals) := by
  have hvars : ∀ i, nestedAssignments.Reachable i →
      (∃ kind ∈ (nestedAssignments.block i).kind?, kind.assigns = true) →
      (nestedAssignments.block i).namedVariable?.isSome := by
    have hall : ∀ i, (nestedAssignments.block i).kind?.any (·.assigns) = true →
        (nestedAssignments.block i).namedVariable?.isSome := by decide +kernel
    rintro i - ⟨kind, hk, hassigns⟩
    exact hall i (by rw [hk]; exact hassigns)
  have htext : ((Generator.start {} nestedAssignments).toOption.map fun σ =>
      ((Generator.body {} nestedAssignments).run σ).2.functions.procedures.values) =
      some ["def f(a_b):\n    global count, a_b_2\n    count_start = float(pin1.value())\n" ++
        "    for count in (upRange if count_start <= 0 else downRange)(count_start, 0, 1):\n" ++
        "        a_b += 0\n        a_b_2 = 0\n    count = 0\n"] := by decide +kernel
  cases hstart : Generator.start {} nestedAssignments with
  | error f =>
    rw [hstart] at htext
    cases htext
  | ok σ =>
    rw [hstart] at htext
    obtain ⟨applied, htraces, hall⟩ := Generator.globals_cover_assignments rfl hvars hstart
    refine ⟨hvars, σ, rfl, Option.some.inj htext, applied, htraces, fun a ha hindex => ?_⟩
    obtain ⟨-, arguments, globals, -, -, -, hnodup, hother, hcover⟩ := hall a ha (by rw [hindex]; decide +kernel)
    refine ⟨arguments, globals, hnodup, fun x hx => (hother x hx).1, fun b hb hindex' => ?_⟩
    refine hcover 1 (by rw [hindex]; rfl) b hb (by rw [hindex']; decide +kernel) .variableSet ?_ rfl
    rw [hindex']
    decide +kernel

end BlockScript
