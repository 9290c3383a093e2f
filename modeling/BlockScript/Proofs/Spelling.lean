import BlockScript.Proofs.Declarations

namespace BlockScript

variable {n : Nat}

namespace Session

/-- The variables and their lines are those of the first session. What is named besides has identifiers of its own. -/
structure Extends (s σ : Session) : Prop where
  globals : s.globals = σ.globals
  spelled : ∀ v, s.identifier? v = σ.identifier? v
  added : ∃ more, s.names.used = more ++ σ.names.used ∧
    ∀ x ∈ more, x ∉ σ.names.used ∧ ∃ l, s.names.labels.get? x = some l ∧ l.realm ≠ .variable
  labelled : ∀ l x, s.names.find? l = some x → l.realm ≠ .variable → x ∉ σ.names.used
  functions : ∀ p x, s.functions.identifier? p = some x → x ∉ σ.names.used

/-- A variable that has an identifier. -/
def Knows (σ : Session) (v : Value) : Prop :=
  v.isKey = true ∧ σ.identifier? v = some (σ.spelling v)

variable {s t σ : Session}

theorem Declares.extends_self {entries : List (Value × ValueKind)} (h : σ.Declares entries) : σ.Extends σ where
  globals := rfl
  spelled _ := rfl
  added := ⟨[], rfl, by simp⟩
  labelled l x hx hl := absurd (h.only l x hx).1 hl
  functions p x hx := by
    rw [h.functions p] at hx
    cases hx

theorem Declares.knows {entries : List (Value × ValueKind)} (h : σ.Declares entries) {e : Value × ValueKind} {v : Value}
    (he : e ∈ entries) (hev : (e.1 == v) = true) : σ.Knows v := by
  obtain ⟨hkey, hname⟩ := h.named e he
  rw [Knows, spelling, ← σ.identifier?_congr hev, hname, ← Value.isKey_congr hev]
  exact ⟨hkey, rfl⟩

namespace Extends

theorem of_same (h : s.Extends σ) (hg : t.globals = s.globals) (hn : t.names = s.names)
    (hf : t.functions.identifiers = s.functions.identifiers) : t.Extends σ where
  globals := hg.trans h.globals
  spelled v := by
    rw [identifier?, hn]
    exact h.spelled v
  added := by
    rw [hn]
    exact h.added
  labelled := by
    rw [hn]
    exact h.labelled
  functions p x hx := by
    rw [Functions.identifier?, hf] at hx
    exact h.functions p x hx

theorem fresh (h : s.Extends σ) (l : Label) : (s.names.allocate l).1 ∉ σ.names.used := by
  obtain ⟨more, hused, -⟩ := h.added
  intro hmem
  apply (s.names.freeIdentifier_firstFree l.name.identifier).not_taken
  rw [hused]
  exact Or.inl (List.mem_append_right more hmem)

/-- A new identifier that stands for no variable. -/
theorem allocate (h : s.Extends σ) {l : Label} (hl : l.realm ≠ .variable) (hg : t.globals = s.globals)
    (hu : t.names.used = (s.names.allocate l).2.used) (hlabels : t.names.labels = (s.names.allocate l).2.labels)
    (hv : ∀ v, t.identifier? v = s.identifier? v)
    (hn : ∀ l' x, t.names.find? l' = some x → s.names.find? l' = some x ∨ x = (s.names.allocate l).1)
    (hf : ∀ p x, t.functions.identifier? p = some x →
      s.functions.identifier? p = some x ∨ x = (s.names.allocate l).1) : t.Extends σ := by
  have hfresh := h.fresh l
  obtain ⟨more, hused, hmore⟩ := h.added
  refine ⟨hg.trans h.globals, fun v => (hv v).trans (h.spelled v), ?_, fun l' x hx hl' => ?_, fun p x hx => ?_⟩
  · refine ⟨(s.names.allocate l).1 :: more, ?_, fun x hx => ?_⟩
    · rw [hu, List.cons_append, ← hused]
      rfl
    · have hput : t.names.labels.get? x = if ((s.names.allocate l).1 == x) = true then some l else s.names.labels.get? x := by
        rw [hlabels]
        exact Ledger.get?_put _ _ _ _
      by_cases heq : (s.names.allocate l).1 = x
      · rw [hput, if_pos (beq_iff_eq.mpr heq)]
        exact ⟨heq ▸ hfresh, l, rfl, hl⟩
      · rw [hput, if_neg (by simpa using heq)]
        exact hmore x ((List.mem_cons.mp hx).resolve_left fun hxe => heq hxe.symm)
  · obtain hx | rfl := hn l' x hx
    · exact h.labelled l' x hx hl'
    · exact hfresh
  · obtain hx | rfl := hf p x hx
    · exact h.functions p x hx
    · exact hfresh

/-- A variable that is known costs nothing. -/
theorem run_variableName (h : s.Extends σ) {v : Value} (hv : σ.Knows v) :
    (Run.variableName v).run s = (.ok (σ.spelling v), s) := by
  have hname : s.names.find? ⟨.variable, v⟩ = some (σ.spelling v) := (h.spelled v).trans hv.2
  rw [Run.variableName, Run.run_identifier, Names.get, if_pos hv.1, hname]
  rfl

theorem identifier_foreign (h : s.Extends σ) {realm : Realm} (hrealm : realm ≠ .variable) {name : Value} {x : String}
    (hrun : (Run.identifier realm name).run s = (.ok x, t)) : x ∉ σ.names.used := by
  obtain hcase | ⟨y, hy, hcase⟩ | ⟨-, -, r, hcase⟩ := Run.run_identifier_cases realm name s
  · rw [hcase] at hrun
    cases hrun
  · rw [hcase] at hrun
    cases hrun
    exact h.labelled _ _ hy hrealm
  · rw [hcase] at hrun
    obtain rfl := Except.ok.inj (Prod.mk.inj hrun).1
    exact h.fresh ⟨realm, name⟩

theorem distinct_foreign (h : s.Extends σ) {realm : Realm} {name : Value} {x : String}
    (hrun : (Run.distinctIdentifier realm name).run s = (.ok x, t)) : x ∉ σ.names.used := by
  rw [Run.run_distinctIdentifier] at hrun
  obtain rfl := Except.ok.inj (Prod.mk.inj hrun).1
  exact h.fresh ⟨realm, name⟩

theorem run_variableNames (h : s.Extends σ) {names : List Value} (hnames : ∀ v ∈ names, σ.Knows v) :
    (names.mapM Run.variableName).run s = (.ok (names.map σ.spelling), s) := by
  induction names with
  | nil => rfl
  | cons v names ih =>
    rw [List.mapM_cons, Run.run_bind, h.run_variableName (hnames v (by simp))]
    dsimp only
    rw [Run.run_bind, ih fun u hu => hnames u (by simp [hu])]
    rfl

end Extends

@[simp] theorem recordIf_globals (p : Bool) (r : LogRecord) (s : Session) :
    (Run.recordIf p r s).globals = s.globals := by
  cases p <;> rfl

theorem setFragments_globals {part : Section} (h : part ≠ .globals) (s : Session) (r : Fragments Value) :
    (s.setFragments r part).globals = s.globals := by
  cases part with
  | globals => exact absurd rfl h
  | imports | declarations | setups => rfl

/-- A step after which the variables are still the same. -/
def Stays (σ s t : Session) : Prop :=
  s.Extends σ → t.Extends σ

theorem stays_joins (σ : Session) : Run.Joins (Stays σ) where
  refl _ := id
  trans hst htu hs := htu (hst hs)

theorem identifier_stays {realm : Realm} {name : Value} (h : realm = .variable → σ.Knows name) :
    (Run.identifier realm name).Within (Stays σ) := by
  intro s hs
  obtain hrun | ⟨x, -, hrun⟩ | ⟨-, hfound, r, hrun⟩ := Run.run_identifier_cases realm name s
  · rw [hrun]
    exact hs
  · rw [hrun]
    exact hs
  · rw [hrun]
    have hrealm : realm ≠ .variable := by
      rintro rfl
      have hname := (hs.spelled name).trans (h rfl).2
      rw [identifier?, hfound] at hname
      cases hname
    refine hs.allocate (l := ⟨realm, name⟩) hrealm rfl rfl rfl (fun v => ?_) (fun l x hx => ?_) fun p x hx => Or.inl hx
    · refine (s.names.find?_allocateFor _ ⟨.variable, v⟩).trans (if_neg fun hl => hrealm ?_)
      exact beq_iff_eq.mp (Bool.and_eq_true_iff.mp hl).1
    · replace hx := (s.names.find?_allocateFor _ l).symm.trans hx
      split at hx
      · cases hx
        exact Or.inr rfl
      · exact Or.inl hx

theorem distinct_stays {realm : Realm} (h : realm ≠ .variable) (name : Value) :
    (Run.distinctIdentifier realm name).Within (Stays σ) := by
  intro s hs
  rw [Run.run_distinctIdentifier]
  exact hs.allocate (l := ⟨realm, name⟩) h rfl rfl rfl (fun v => rfl) (fun l x hx => Or.inl hx) fun p x hx => Or.inl hx

theorem provide_stays (preferred text : String) : (Run.provide preferred text).Within (Stays σ) := by
  intro s hs
  rw [Run.run_provide]
  split
  · obtain ⟨hn, hf⟩ | ⟨-, hn, hf⟩ := s.functions.provide_cases s.names preferred text
    · exact hs.of_same (by simp) (by simp [hn]) (by simp [hf])
    · refine hs.allocate (l := Functions.label preferred) (by simp [Functions.label]) (by simp) (by simp [hn])
        (by simp [hn]) (fun v => ?_) (fun l x hx => ?_) fun p x hx => ?_
      · simp only [identifier?, recordIf_names, hn]
        rfl
      · simp only [recordIf_names, hn] at hx
        exact Or.inl hx
      · simp only [recordIf_functions, Functions.identifier?, hf, Ledger.get?_put] at hx
        split at hx
        · cases hx
          exact Or.inr rfl
        · exact Or.inl hx
  · exact hs

theorem fragment_stays {part : Section} (h : part ≠ .globals) (tag : Value) (code : String) (overwrite : Bool) :
    (Run.addFragment part tag code overwrite).Within (Stays σ) := by
  intro s hs
  rw [Run.run_addFragment]
  split
  · exact hs.of_same (by simp [setFragments_globals h]) (by simp [setFragments_names]) (by simp [setFragments_functions])
  · exact hs

theorem claimPin_stays (id : String) (pin : Value) (task : PinTask) (tag : String) :
    (Run.claimPin id pin task tag).Within (Stays σ) := by
  intro s hs
  rw [Run.run_claimPin]
  split <;> exact hs.of_same rfl rfl rfl

end Session

/-- The rule of a block that speaks of known variables leaves the variables as they are. -/
theorem Deed.stays {σ : Session} {job : Job n} {i : Fin n} (hknown : ∀ v, job.diagram.Mentions i v → σ.Knows v)
    {α : Type} (deed : Deed α) (h : deed.Allowed job i) : deed.run.Within (Session.Stays σ) := by
  cases deed with
  | record r => exact fun s hs => hs.of_same rfl rfl rfl
  | fragment part tag code overwrite => exact Session.fragment_stays h.1 tag code overwrite
  | identifier realm name => exact Session.identifier_stays fun hrealm => hknown name (h.1 hrealm)
  | distinct realm name => exact Session.distinct_stays (by rw [show realm = .generated from h]; decide) name
  | object label tag declaration overwrite =>
    have hjoins := Session.stays_joins σ
    refine hjoins.bind (Session.identifier_stays nofun) fun _ => hjoins.bind ?_ fun _ => hjoins.pure _
    exact Session.fragment_stays (by decide) _ _ _
  | provide preferred text => exact Session.provide_stays preferred text
  | procedure name code =>
    intro s hs
    simp only [Deed.run, Run.run_addProcedure]
    split
    · exact hs.of_same rfl rfl rfl
    · exact hs
  | warn id tag text => exact fun s hs => hs.of_same rfl rfl rfl
  | claim id pin task tag => exact Session.claimPin_stays id pin task tag
  | claims id pins task tag =>
    have hjoins := Session.stays_joins σ
    exact hjoins.forM pins fun pin _ => hjoins.bind (Session.claimPin_stays id pin task tag) fun _ => hjoins.pure _

/-- What the rule of a block sees when so many blocks may lie inside each other. -/
def Job.sceneWithin (job : Job n) (depth : Nat) (i : Fin n) : Scene n :=
  ⟨job, i, job.emitWithin depth⟩

namespace Scene

variable {σ t u : Session} {s : Scene n} {o : Output}

/-- What a scene speaks of is known, and what it asks for leaves the variables as they are. -/
structure Settled (s : Scene n) (σ : Session) : Prop where
  named : s.block.usesVariable → s.block.namedVariable?.isSome
  known : ∀ v, s.job.diagram.Mentions s.index v → σ.Knows v
  asks : ∀ p, (s.emit (s.block.at? p)).Within (Session.Stays σ)

theorem Settled.within (h : s.Settled σ) {α : Type} {ps : List Place} {P : α → Prop} {r r' : Run α}
    (hr : Scripted s s.emit ps P r r') : r.Within (Session.Stays σ) :=
  hr.within (Session.stays_joins σ) (fun d hd => d.stays h.known hd) h.asks

theorem Settled.value (h : s.Settled σ) (name : String) (outer : OperatorClass) (default : String) :
    (s.value name outer default).Within (Session.Stays σ) :=
  h.within (value_scripted name outer default)

theorem Settled.loopBody (h : s.Settled σ) : s.loopBody.Within (Session.Stays σ) :=
  h.within loopBody_scripted

/-- The line that keeps the value of an expression under a name. -/
def keptLine : Option (String × String) → String
  | none => ""
  | some (name, code) => name ++ " = float(" ++ code ++ ")\n"

/-- What is written where something is named: a variable as it is declared, and all else by identifiers that no variable
has. -/
def Spells (s : Scene n) (σ t : Session) (o : Output) : BlockKind → Prop
  | .variableGet => ∃ v ∈ s.block.namedVariable?, o = Output.atom (σ.spelling v)
  | .variableSet => ∃ v ∈ s.block.namedVariable?, ∃ value,
      o = .statement (σ.spelling v ++ " = " ++ value ++ "\n")
  | .change => ∃ v ∈ s.block.namedVariable?, ∃ delta,
      o = .statement (σ.spelling v ++ " += " ++ delta ++ "\n")
  | .forEach => ∃ v ∈ s.block.namedVariable?, ∃ sequence body,
      o = .statement ("for " ++ σ.spelling v ++ " in " ++ sequence ++ ":\n" ++ body)
  | .counting => ∃ v ∈ s.block.namedVariable?, ∃ first last step sequence body,
      (∀ kept ∈ [first, last, step], ∀ name code, kept = some (name, code) → name ∉ σ.names.used) ∧
      o = .statement (keptLine first ++ keptLine last ++ keptLine step ++
        ("for " ++ σ.spelling v ++ " in " ++ sequence ++ ":\n" ++ body))
  | .repetition => ∃ counter count body, counter ∉ σ.names.used ∧
      o = .statement ("for " ++ counter ++ " in range(" ++ count ++ "):\n" ++ body)
  | .procedure _ => ∃ name arguments globals rest, s.block.arguments = .ok arguments ∧ name ∉ σ.names.used ∧
      (∀ x ∈ globals, ∃ v, s.job.diagram.Mentions s.index v ∧ x = σ.spelling v) ∧
      t.functions.procedures.get? name = some (s.comments ++ ("def " ++ name ++ "(" ++
        Text.joined ", " (arguments.map σ.spelling) ++ "):\n" ++
        (if globals.isEmpty then "" else s.settings.indent ++ "global " ++ Text.joined ", " globals ++ "\n") ++ rest))
  | _ => True

theorem placed_begins {front body last code : String}
    (hrun : (s.placed (front ++ body ++ last)).run t = (.ok code, u)) :
    ∃ rest, code = s.comments ++ (front ++ rest) := by
  obtain ⟨next, _, -, hrun⟩ := Run.ok_of_run_bind hrun
  obtain ⟨rfl, -⟩ := Run.ok_of_run_pure hrun
  exact ⟨body ++ last ++ next, by simp only [String.append_assoc]⟩

theorem procedure_kept {name code : String} (hrun : (Run.addProcedure name code).run t = (.ok ⟨⟩, u)) :
    u.functions.procedures.get? name = some code := by
  rw [Run.run_addProcedure] at hrun
  split at hrun
  · obtain ⟨-, rfl⟩ := Prod.mk.inj hrun
    exact (Ledger.get?_put _ _ _ _).trans (if_pos BEq.rfl)
  · cases hrun

section Rules

variable (h : s.Settled σ) (ht : t.Extends σ)

include h ht

theorem Settled.variableOf (huse : s.block.usesVariable) {default x : String}
    (hrun : (s.variableOf default).run t = (.ok x, u)) : u = t ∧ ∃ v ∈ s.block.namedVariable?, x = σ.spelling v := by
  obtain ⟨v, hv⟩ := Option.isSome_iff_exists.mp (h.named huse)
  have hfield : s.block.field? Block.variableField = some v := (Option.filter_eq_some_iff.mp hv).1
  have hvalue : s.block.fieldD Block.variableField (.text default) = v := by
    rw [Block.fieldD, hfield]
    rfl
  have hknown : σ.Knows (s.block.fieldD Block.variableField (.text default)) := h.known _ (.own default huse)
  rw [Scene.variableOf, ht.run_variableName hknown, hvalue] at hrun
  obtain ⟨hx, hu⟩ := Prod.mk.inj hrun
  exact ⟨hu.symm, v, hv, (Except.ok.inj hx).symm⟩

theorem variableGet_spells (huse : s.block.usesVariable) (hrun : s.variableGet.run t = (.ok o, u)) :
    s.Spells σ u o .variableGet := by
  obtain ⟨x, u, hx, hrun⟩ := Run.ok_of_run_bind hrun
  obtain ⟨rfl, -⟩ := Run.ok_of_run_pure hrun
  obtain ⟨-, v, hv, rfl⟩ := h.variableOf ht huse hx
  exact ⟨v, hv, rfl⟩

theorem assignment_spells (huse : s.block.usesVariable) {slot operator : String}
    (hrun : (do
      let value ← s.value slot .none "0"
      return .statement ((← s.variableOf "x") ++ operator ++ value ++ "\n") : Run Output).run t = (.ok o, u)) :
    ∃ v ∈ s.block.namedVariable?, ∃ value, o = .statement (σ.spelling v ++ operator ++ value ++ "\n") := by
  obtain ⟨value, t, hvalue, hrun⟩ := Run.ok_of_run_bind hrun
  replace ht := (h.value _ _ _).of_run hvalue ht
  obtain ⟨x, u, hx, hrun⟩ := Run.ok_of_run_bind hrun
  obtain ⟨rfl, -⟩ := Run.ok_of_run_pure hrun
  obtain ⟨-, v, hv, rfl⟩ := h.variableOf ht huse hx
  exact ⟨v, hv, value, rfl⟩

theorem variableSet_spells (huse : s.block.usesVariable) (hrun : s.variableSet.run t = (.ok o, u)) :
    s.Spells σ u o .variableSet :=
  assignment_spells h ht huse hrun

theorem change_spells (huse : s.block.usesVariable) (hrun : s.change.run t = (.ok o, u)) :
    s.Spells σ u o .change :=
  assignment_spells h ht huse hrun

theorem forEach_spells (huse : s.block.usesVariable) (hrun : s.forEach.run t = (.ok o, u)) :
    s.Spells σ u o .forEach := by
  obtain ⟨x, t, hx, hrun⟩ := Run.ok_of_run_bind hrun
  obtain ⟨rfl, v, hv, rfl⟩ := h.variableOf ht huse hx
  obtain ⟨sequence, t, -, hrun⟩ := Run.ok_of_run_bind hrun
  obtain ⟨body, t, -, hrun⟩ := Run.ok_of_run_bind hrun
  obtain ⟨rfl, -⟩ := Run.ok_of_run_pure hrun
  exact ⟨v, hv, sequence, body, rfl⟩

omit h in
theorem repeated_spells {times : String} (hrun : (s.repeated times).run t = (.ok o, u)) :
    s.Spells σ u o .repetition := by
  unfold repeated at hrun
  split at hrun
  · exact (Run.not_ok_of_run_throw hrun).elim
  · rename_i count _
    obtain ⟨counter, t, hcounter, hrun⟩ := Run.ok_of_run_bind hrun
    obtain ⟨body, t, -, hrun⟩ := Run.ok_of_run_bind hrun
    obtain ⟨rfl, -⟩ := Run.ok_of_run_pure hrun
    exact ⟨counter, count, body, ht.distinct_foreign hcounter, rfl⟩

theorem repetition_spells (hrun : s.repetition.run t = (.ok o, u)) : s.Spells σ u o .repetition := by
  unfold repetition at hrun
  split at hrun
  · exact repeated_spells ht hrun
  · obtain ⟨times, t, htimes, hrun⟩ := Run.ok_of_run_bind hrun
    exact repeated_spells ((h.value _ _ _).of_run htimes ht) hrun

omit h ht in
theorem keepBound_kept {name suffix code : String} {kept : Bound × String}
    (hrun : (keepBound name suffix code).run t = (.ok kept, u)) :
    ∃ line, kept.2 = keptLine line ∧ ∀ e ∈ line, ∃ u', (Run.distinctName (name ++ suffix)).run t = (.ok e.1, u') := by
  unfold keepBound at hrun
  split at hrun
  · exact (Run.not_ok_of_run_throw hrun).elim
  · split at hrun
    · exact (Run.not_ok_of_run_throw hrun).elim
    · obtain ⟨rfl, -⟩ := Run.ok_of_run_pure hrun
      exact ⟨none, rfl, by simp⟩
  · split at hrun
    · obtain ⟨rfl, -⟩ := Run.ok_of_run_pure hrun
      exact ⟨none, rfl, by simp⟩
    · obtain ⟨temporary, u', htemporary, hrun⟩ := Run.ok_of_run_bind hrun
      obtain ⟨rfl, -⟩ := Run.ok_of_run_pure hrun
      refine ⟨some (temporary, code), rfl, ?_⟩
      rintro _ ⟨⟩
      exact ⟨u', htemporary⟩

omit h in
theorem keepBound_spells {name suffix code : String} {kept : Bound × String}
    (hrun : (keepBound name suffix code).run t = (.ok kept, u)) :
    ∃ line, kept.2 = keptLine line ∧ ∀ name code, line = some (name, code) → name ∉ σ.names.used := by
  obtain ⟨line, hline, htemporary⟩ := keepBound_kept hrun
  refine ⟨line, hline, fun x code he => ?_⟩
  obtain ⟨u', hx⟩ := htemporary (x, code) he
  exact ht.distinct_foreign hx

theorem counting_spells (huse : s.block.usesVariable) (hrun : s.counting.run t = (.ok o, u)) :
    s.Spells σ u o .counting := by
  have hkeep : ∀ name suffix code, (keepBound name suffix code).Within (Session.Stays σ) :=
    fun name suffix code => h.within (keepBound_scripted name suffix code)
  obtain ⟨x, t, hx, hrun⟩ := Run.ok_of_run_bind hrun
  obtain ⟨rfl, v, hv, rfl⟩ := h.variableOf ht huse hx
  obtain ⟨first, t, hfirst, hrun⟩ := Run.ok_of_run_bind hrun
  replace ht := (h.value _ _ _).of_run hfirst ht
  obtain ⟨last, t, hlast, hrun⟩ := Run.ok_of_run_bind hrun
  replace ht := (h.value _ _ _).of_run hlast ht
  obtain ⟨step, t, hstep, hrun⟩ := Run.ok_of_run_bind hrun
  replace ht := (h.value _ _ _).of_run hstep ht
  obtain ⟨body, t, hbody, hrun⟩ := Run.ok_of_run_bind hrun
  replace ht := h.loopBody.of_run hbody ht
  dsimp only at hrun
  split at hrun
  · exact (Run.not_ok_of_run_throw hrun).elim
  · obtain ⟨sequence, t, -, hrun⟩ := Run.ok_of_run_bind hrun
    obtain ⟨rfl, -⟩ := Run.ok_of_run_pure hrun
    exact ⟨v, hv, none, none, none, sequence, body, by simp, by simp [keptLine]⟩
  · obtain ⟨⟨a, keptA⟩, t, ha, hrun⟩ := Run.ok_of_run_bind hrun
    obtain ⟨lineA, rfl, hlineA⟩ := keepBound_spells ht ha
    replace ht := (hkeep _ _ _).of_run ha ht
    obtain ⟨⟨b, keptB⟩, t, hb, hrun⟩ := Run.ok_of_run_bind hrun
    obtain ⟨lineB, rfl, hlineB⟩ := keepBound_spells ht hb
    replace ht := (hkeep _ _ _).of_run hb ht
    obtain ⟨⟨c, keptC⟩, t, hc, hrun⟩ := Run.ok_of_run_bind hrun
    obtain ⟨lineC, rfl, hlineC⟩ := keepBound_spells ht hc
    obtain ⟨sequence, t, -, hrun⟩ := Run.ok_of_run_bind hrun
    obtain ⟨rfl, -⟩ := Run.ok_of_run_pure hrun
    refine ⟨v, hv, lineA, lineB, lineC, sequence, body, ?_, rfl⟩
    simp only [List.forall_mem_cons, List.not_mem_nil, false_implies, implies_true, and_true]
    exact ⟨hlineA, hlineB, hlineC⟩

theorem addAssigned_spells {arguments : List Value} {found next : List String} {name : Value}
    (hname : s.job.diagram.Mentions s.index name) (hrun : (addAssigned arguments found name).run t = (.ok next, u)) :
    ∀ x ∈ next, x ∈ found ∨ x = σ.spelling name := by
  have hknown := h.known name hname
  unfold addAssigned at hrun
  by_cases hmem : arguments.contains name
  · simp only [hknown.1, hmem] at hrun
    obtain ⟨rfl, -⟩ := Run.ok_of_run_pure hrun
    exact fun x hx => Or.inl hx
  · simp only [hknown.1, hmem] at hrun
    obtain ⟨y, t, hy, hrun⟩ := Run.ok_of_run_bind hrun
    rw [ht.run_variableName hknown] at hy
    obtain rfl := Except.ok.inj (Prod.mk.inj hy).1
    obtain ⟨rfl, -⟩ := Run.ok_of_run_pure hrun
    split
    · exact fun x hx => Or.inl hx
    · simp

theorem foldlM_addAssigned_spells {arguments names : List Value} {found globals : List String}
    (hnames : ∀ v ∈ names, s.job.diagram.Mentions s.index v)
    (hfound : ∀ x ∈ found, ∃ v, s.job.diagram.Mentions s.index v ∧ x = σ.spelling v)
    (hrun : (names.foldlM (addAssigned arguments) found).run t = (.ok globals, u)) :
    ∀ x ∈ globals, ∃ v, s.job.diagram.Mentions s.index v ∧ x = σ.spelling v := by
  induction names generalizing found t with
  | nil =>
    obtain ⟨rfl, -⟩ := Run.ok_of_run_pure hrun
    exact hfound
  | cons v names ih =>
    rw [List.foldlM_cons] at hrun
    obtain ⟨next, t, hnext, hrun⟩ := Run.ok_of_run_bind hrun
    have hv := hnames v (by simp)
    have ht' := (h.within (addAssigned_scripted hv arguments found)).of_run hnext ht
    refine ih ht' (fun u hu => hnames u (by simp [hu])) (fun x hx => ?_) hrun
    obtain hx | rfl := addAssigned_spells h ht hv hnext x hx
    · exact hfound x hx
    · exact ⟨v, hv, rfl⟩

/-- The variables that a body assigns stand in its line as they are declared. -/
theorem assignedGlobals_spells {globals : List String} (hrun : s.assignedGlobals.run t = (.ok globals, u)) :
    ∀ x ∈ globals, ∃ v, s.job.diagram.Mentions s.index v ∧ x = σ.spelling v := by
  unfold assignedGlobals at hrun
  split at hrun
  · obtain ⟨rfl, -⟩ := Run.ok_of_run_pure hrun
    simp
  · rename_i body hstack
    obtain ⟨arguments, t, harguments, hrun⟩ := Run.ok_of_run_bind hrun
    replace ht := (h.within argumentKeys_scripted).of_run harguments ht
    exact foldlM_addAssigned_spells h ht (fun v hv => mentions_assigned hstack hv) (by simp) hrun

theorem procedure_spells {returns : Bool} (hk : s.block.kind? = some (.procedure returns))
    (hrun : s.procedure.run t = (.ok o, u)) : s.Spells σ u o (.procedure returns) := by
  obtain ⟨name, t, hname, hrun⟩ := Run.ok_of_run_bind hrun
  have hforeign := ht.identifier_foreign (by decide) hname
  replace ht := (Session.identifier_stays fun hrealm => by cases hrealm).of_run hname ht
  obtain ⟨body, t, hbody, hrun⟩ := Run.ok_of_run_bind hrun
  replace ht := (h.within (suite_scripted "STACK")).of_run hbody ht
  obtain ⟨result, t, hresult, hrun⟩ := Run.ok_of_run_bind hrun
  replace ht := (h.value _ _ _).of_run hresult ht
  obtain ⟨globals, t, hglobals, hrun⟩ := Run.ok_of_run_bind hrun
  have hspelled := assignedGlobals_spells h ht hglobals
  replace ht := (h.within assignedGlobals_scripted).of_run hglobals ht
  obtain ⟨arguments, t, harguments, hrun⟩ := Run.ok_of_run_bind hrun
  have hscript : Scripted s s.emit [] (fun names => s.block.arguments = .ok names) s.arguments s.arguments :=
    arguments_scripted
  have hnames := hscript.result harguments
  replace ht := (h.within hscript).of_run harguments ht
  obtain ⟨parameters, t, hparameters, hrun⟩ := Run.ok_of_run_bind hrun
  have hproc : Workspace.isProcedure s.block = true := by rw [Workspace.isProcedure, hk]
  rw [ht.run_variableNames fun v hv => h.known v (.argument hproc hnames hv)] at hparameters
  obtain rfl := Except.ok.inj (Prod.mk.inj hparameters).1
  obtain ⟨code, t, hcode, hrun⟩ := Run.ok_of_run_bind hrun
  obtain ⟨_, t, hadd, hrun⟩ := Run.ok_of_run_bind hrun
  obtain ⟨-, rfl⟩ := Run.ok_of_run_pure hrun
  obtain ⟨rest, rfl⟩ := placed_begins hcode
  exact ⟨name, arguments, globals, rest, hnames, hforeign, hspelled, procedure_kept hadd⟩

/-- Whatever its kind, a block spells its variables as they are declared. -/
theorem standard_spells {kind : BlockKind} (hk : s.block.kind? = some kind)
    (hrun : (s.standard kind).run t = (.ok o, u)) : s.Spells σ u o kind := by
  cases kind with
  | variableGet => exact variableGet_spells h ht (Block.usesVariable_of_kind hk rfl) hrun
  | variableSet => exact variableSet_spells h ht (Block.usesVariable_of_kind hk rfl) hrun
  | change => exact change_spells h ht (Block.usesVariable_of_kind hk rfl) hrun
  | forEach => exact forEach_spells h ht (Block.usesVariable_of_kind hk rfl) hrun
  | counting => exact counting_spells h ht (Block.usesVariable_of_kind hk rfl) hrun
  | repetition => exact repetition_spells h ht hrun
  | procedure returns => exact procedure_spells h ht hk hrun
  | _ => trivial

end Rules

end Scene

namespace Generator

variable {g : Generator} {w : Workspace n} {σ τ : Session}

theorem emitWithin_stays (hknown : ∀ i, w.Reachable i → ∀ v, w.diagram.Mentions i v → σ.Knows v) (depth : Nat)
    {o : Option (Fin n)} (ho : ∀ i ∈ o, w.Reachable i) :
    ((g.job w).emitWithin depth o).Within (Session.Stays σ) := by
  refine Job.emitWithin_allowed (Q := w.Reachable) (Session.stays_joins σ) (fun i hi j hj => ?_)
    (fun i hi _ d hd => ?_) depth ho
  · exact hi.child hj
  · exact d.stays (hknown i hi) hd

theorem body_stays (hknown : ∀ i, w.Reachable i → ∀ v, w.diagram.Mentions i v → σ.Knows v) :
    (g.body w).Within (Session.Stays σ) := by
  refine Job.body_allowed (Q := w.Reachable) (Session.stays_joins σ) (fun i hi j hj => ?_) (fun i hi _ d hd => ?_)
    fun i hi => ?_
  · exact hi.child hj
  · exact d.stays (hknown i hi) hd
  · exact ⟨i, (mem_runSort _ _ i).mp hi, .refl⟩

theorem scene_settled (hvars : ∀ i, w.Reachable i → (w.block i).usesVariable → (w.block i).namedVariable?.isSome)
    (hknown : ∀ i, w.Reachable i → ∀ v, w.diagram.Mentions i v → σ.Knows v) {i : Fin n} (hi : w.Reachable i)
    (depth : Nat) : ((g.job w).sceneWithin depth i).Settled σ where
  named := hvars i hi
  known := hknown i hi
  asks _ := emitWithin_stays hknown depth fun _ hj => hi.child (Diagram.mem_childrenOf hj)

/-- Where the blocks say which variables they mean, opening a session declares all variables that the program speaks of,
once each and in the order of first use. Writing the blocks out adds no variable, spells each as it is declared, and names
nothing else like one. -/
theorem variables_declared_once
    (hvars : ∀ i, w.Reachable i → (w.block i).usesVariable → (w.block i).namedVariable?.isSome)
    (hstart : g.start w = .ok σ) {result : Except Fault String} (hbody : (g.body w).run σ = (result, τ)) :
    w.allVariables = .ok σ.kinds.keys ∧ σ.Declares σ.kinds.entries ∧ τ.Extends σ ∧
    (∀ i, w.Reachable i → ∀ v, w.diagram.Mentions i v → ∃ e ∈ σ.kinds.entries, (e.1 == v) = true ∧
      σ.identifier? v = some (σ.spelling e.1) ∧ τ.GivesOnce (σ.spelling e.1) e.2) ∧
    ∀ i kind depth s, w.Reachable i → (w.block i).kind? = some kind → s.Extends σ →
      ((((g.job w).sceneWithin depth i).standard kind).run s).2.Extends σ ∧
      ∀ o t, (((g.job w).sceneWithin depth i).standard kind).run s = (.ok o, t) →
        ((g.job w).sceneWithin depth i).Spells σ t o kind := by
  obtain ⟨hnames, hdeclares⟩ := start_declares hstart
  have hcovered : ∀ i, w.Reachable i → ∀ v, w.diagram.Mentions i v → ∃ e ∈ σ.kinds.entries, (e.1 == v) = true := by
    intro i hi v hv
    obtain ⟨u, hu, huv⟩ := Workspace.mentions_covered hnames hvars hi hv
    obtain ⟨e, he, rfl⟩ := List.mem_map.mp hu
    exact ⟨e, he, huv⟩
  have hknown : ∀ i, w.Reachable i → ∀ v, w.diagram.Mentions i v → σ.Knows v := by
    intro i hi v hv
    obtain ⟨e, he, hev⟩ := hcovered i hi v hv
    exact hdeclares.knows he hev
  have hτ : τ.Extends σ := (body_stays hknown).of_run hbody hdeclares.extends_self
  refine ⟨hnames, hdeclares, hτ, fun i hi v hv => ?_, fun i kind depth s hi hk hs => ?_⟩
  · obtain ⟨e, he, hev⟩ := hcovered i hi v hv
    refine ⟨e, he, hev, ?_, ?_⟩
    · rw [← σ.identifier?_congr hev]
      exact (hdeclares.named e he).2
    · rw [Session.GivesOnce, hτ.globals]
      exact hdeclares.givesOnce (start_plain hstart) he
  · have hscene := scene_settled (g := g) hvars hknown hi depth
    have hasks : ((g.job w).sceneWithin depth i).Asks ((g.job w).emitWithin depth) _ _ := Scene.standard_asks hk
    obtain ⟨ps, -, hscript⟩ := hasks
    exact ⟨hscene.within hscript s hs, fun o t hrun => Scene.standard_spells hscene hs hk hrun⟩

end Generator

/-- Variables with the names of a procedure, a counter and the object of a pin. -/
def clashingNames : Workspace 8 where
  diagram := { blocks := #v[
    { type := "procedures_defnoreturn", id := "p", fields := [("NAME", .text "x")],
      slots := [⟨"STACK", .statement, some 1⟩], shape := [("arguments", .list [.text "a"])] },
    { type := "variables_set", id := "s", fields := [("VAR", .text "x")], slots := [⟨"VALUE", .value, some 2⟩] },
    { type := "variables_get", id := "g", fields := [("VAR", .text "a")], hasOutput := true },
    { type := "controls_repeat", id := "r", fields := [("TIMES", .int 3)], slots := [⟨"DO", .statement, some 4⟩] },
    { type := "controls_for", id := "f", fields := [("VAR", .text "count")],
      slots := [⟨"FROM", .value, some 5⟩, ⟨"TO", .value, some 6⟩, ⟨"DO", .statement, some 7⟩] },
    { type := "io_digitalread", id := "d", fields := [("PIN", .text "1")], hasOutput := true },
    { type := "math_number", id := "n", fields := [("NUM", .int 9)], hasOutput := true },
    { type := "math_change", id := "c", fields := [("VAR", .text "pin1")] }] : Diagram 8 }
  tops := [0, 3]

theorem clashingNames_declared :
    (∀ i, clashingNames.Reachable i → (clashingNames.block i).usesVariable →
      (clashingNames.block i).namedVariable?.isSome) ∧
    ∃ σ τ result, Generator.start {} clashingNames = .ok σ ∧
      (Generator.body {} clashingNames).run σ = (result, τ) ∧ τ.Extends σ ∧
      τ.globals.values = ["a = None", "x = None", "count = 0", "pin1 = 0"] ∧
      τ.names.used = ["downRange", "upRange", "count_start", "pin1_2", "count_2", "x_2"] ++ σ.names.used := by
  have hvars : ∀ i, clashingNames.Reachable i → (clashingNames.block i).usesVariable →
      (clashingNames.block i).namedVariable?.isSome := by
    have hall : ∀ i, (clashingNames.block i).usesVariable → (clashingNames.block i).namedVariable?.isSome := by
      decide +kernel
    exact fun i _ => hall i
  refine ⟨hvars, ?_⟩
  have hnames : ((Generator.start {} clashingNames).toOption.map fun σ =>
      ((((Generator.body {} clashingNames).run σ).2.globals.values,
        ((Generator.body {} clashingNames).run σ).2.names.used), σ.names.used)) =
      some ((["a = None", "x = None", "count = 0", "pin1 = 0"],
        ["downRange", "upRange", "count_start", "pin1_2", "count_2", "x_2", "pin1", "count", "x", "a"]),
        ["pin1", "count", "x", "a"]) := by decide +kernel
  cases hstart : Generator.start {} clashingNames with
  | error f =>
    rw [hstart] at hnames
    cases hnames
  | ok σ =>
    rw [hstart] at hnames
    obtain ⟨hlater, hused⟩ := Prod.mk.inj (Option.some.inj hnames)
    cases hbody : (Generator.body {} clashingNames).run σ with
    | mk result τ =>
      rw [hbody] at hlater
      obtain ⟨hlines, hlater⟩ := Prod.mk.inj hlater
      obtain ⟨-, -, hextends, -⟩ := Generator.variables_declared_once hvars hstart hbody
      refine ⟨σ, τ, result, rfl, hbody, hextends, hlines, hlater.trans ?_⟩
      rw [hused]
      rfl

end BlockScript
