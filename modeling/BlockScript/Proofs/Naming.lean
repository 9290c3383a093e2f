import BlockScript.Program.Generation
import BlockScript.Proofs.Faults
import BlockScript.Proofs.Identifiers
import BlockScript.Proofs.Traversal

namespace BlockScript

/-- An identifier that is not reserved. -/
def IsName (s : String) : Prop :=
  IsIdentifier s ∧ s ∉ reservedWords

theorem IsName.not_keyword {s : String} (h : IsName s) : s ∉ keywords :=
  fun hk => h.2 (List.mem_append_left _ hk)

/-- A function that has an identifier keeps it; another one gets a new one. -/
theorem Functions.provide_cases (f : Functions) (names : Names) (preferred text : String) :
    (f.provide names preferred text).2.2 = names ∧ (f.provide names preferred text).2.1.identifiers = f.identifiers ∨
    f.identifier? preferred = none ∧
      (f.provide names preferred text).2.2 = (names.allocate (label preferred)).2 ∧
      (f.provide names preferred text).2.1.identifiers =
        f.identifiers.put preferred (names.allocate (label preferred)).1 := by
  unfold provide identify
  cases f.identifier? preferred with
  | some x =>
    apply Or.inl
    dsimp only
    split <;> exact ⟨rfl, rfl⟩
  | none =>
    apply Or.inr
    dsimp only
    split <;> exact ⟨rfl, rfl, rfl⟩

theorem Run.find_of_identifier {s t : Session} {realm : Realm} {name : Value} {x : String}
    (h : (identifier realm name).run s = (.ok x, t)) : t.names.find? ⟨realm, name⟩ = some x := by
  obtain hrun | ⟨y, hy, hrun⟩ | ⟨-, -, r, hrun⟩ := run_identifier_cases realm name s
  · rw [hrun] at h
    cases h
  · rw [hrun] at h
    cases h
    exact hy
  · rw [hrun] at h
    cases h
    exact (s.names.find?_allocateFor _ _).trans (if_pos BEq.rfl)

namespace Session

/-- All identifiers that a session keeps are names. -/
structure Plain (s : Session) : Prop where
  reserved : ∀ w ∈ reservedWords, w ∈ s.names.reserved
  names : ∀ l x, s.names.find? l = some x → IsName x
  functions : ∀ p x, s.functions.identifier? p = some x → IsName x

/-- What a session keeps an identifier for, the other one keeps it for too. -/
structure Keeps (s t : Session) : Prop where
  names : ∀ l x, s.names.find? l = some x → t.names.find? l = some x
  functions : ∀ p x, s.functions.identifier? p = some x → t.functions.identifier? p = some x

theorem Keeps.refl (s : Session) : s.Keeps s :=
  ⟨fun _ _ h => h, fun _ _ h => h⟩

theorem Keeps.trans {s t u : Session} (hst : s.Keeps t) (htu : t.Keeps u) : s.Keeps u :=
  ⟨fun l x h => htu.names l x (hst.names l x h), fun p x h => htu.functions p x (hst.functions p x h)⟩

/-- A step that loses no identifier and hands out names only. -/
def Grows (s t : Session) : Prop :=
  s.Keeps t ∧ (s.Plain → t.Plain)

theorem Grows.of_same {s t : Session} (hn : t.names = s.names)
    (hf : t.functions.identifiers = s.functions.identifiers) : s.Grows t := by
  have hi : ∀ p, t.functions.identifier? p = s.functions.identifier? p := by
    intro p
    rw [Functions.identifier?, Functions.identifier?, hf]
  refine ⟨⟨fun l x h => ?_, fun p x h => ?_⟩, fun hs => ⟨?_, ?_, ?_⟩⟩
  · rw [hn]
    exact h
  · rw [hi]
    exact h
  · rw [hn]
    exact hs.reserved
  · rw [hn]
    exact hs.names
  · intro p x h
    rw [hi] at h
    exact hs.functions p x h

theorem grows_joins : Run.Joins Grows where
  refl _ := Grows.of_same rfl rfl
  trans hst htu := ⟨hst.1.trans htu.1, fun hs => htu.2 (hst.2 hs)⟩

@[simp] theorem recordIf_isOpen (p : Bool) (r : LogRecord) (s : Session) : (Run.recordIf p r s).isOpen = s.isOpen := by
  cases p <;> rfl

@[simp] theorem recordIf_names (p : Bool) (r : LogRecord) (s : Session) : (Run.recordIf p r s).names = s.names := by
  cases p <;> rfl

@[simp] theorem recordIf_functions (p : Bool) (r : LogRecord) (s : Session) :
    (Run.recordIf p r s).functions = s.functions := by
  cases p <;> rfl

theorem setFragments_names (s : Session) (r : Fragments Value) (part : Section) :
    (s.setFragments r part).names = s.names := by
  cases part <;> rfl

theorem setFragments_functions (s : Session) (r : Fragments Value) (part : Section) :
    (s.setFragments r part).functions = s.functions := by
  cases part <;> rfl

theorem Plain.allocate {s : Session} (hs : s.Plain) (label : Label) : IsName (s.names.allocate label).1 := by
  have hfree := s.names.freeIdentifier_firstFree label.name.identifier
  refine ⟨hfree.isIdentifier (Names.identifier_isIdentifier label.name), fun hk => ?_⟩
  exact hfree.not_taken (Or.inr (hs.reserved _ hk))

theorem identifier_within (realm : Realm) (name : Value) : (Run.identifier realm name).Within Grows := by
  intro s
  obtain hrun | ⟨x, -, hrun⟩ | ⟨-, hfound, r, hrun⟩ := Run.run_identifier_cases realm name s
  · rw [hrun]
    exact grows_joins.refl s
  · rw [hrun]
    exact grows_joins.refl s
  · rw [hrun]
    refine ⟨⟨fun l x hx => ?_, fun p x hx => hx⟩, fun hs => ⟨hs.reserved, fun l x hx => ?_, hs.functions⟩⟩
    · refine (s.names.find?_allocateFor _ l).trans ?_
      rw [if_neg]
      · exact hx
      · -- a label that has an identifier already is not the new one
        intro hl
        rw [Names.find?, ← s.names.identifiers.get?_congr hl, ← Names.find?, hfound] at hx
        cases hx
    · replace hx := (s.names.find?_allocateFor _ l).symm.trans hx
      split at hx
      · cases hx
        exact hs.allocate _
      · exact hs.names l x hx

theorem provide_within (preferred text : String) : (Run.provide preferred text).Within Grows := by
  intro s
  rw [Run.run_provide]
  split
  · obtain ⟨hn, hf⟩ | ⟨hnone, hn, hf⟩ := s.functions.provide_cases s.names preferred text
    · exact Grows.of_same (by simp [hn]) (by simp [hf])
    · refine ⟨⟨fun l x hx => ?_, fun p x hx => ?_⟩, fun hs => ⟨?_, ?_, ?_⟩⟩
      · rw [recordIf_names, recordIf_names]
        dsimp only
        rw [hn]
        exact hx
      · rw [recordIf_functions, recordIf_functions, Functions.identifier?]
        dsimp only
        rw [hf, Ledger.get?_put, if_neg]
        · exact hx
        · intro hp
          rw [← beq_iff_eq.mp hp, hnone] at hx
          cases hx
      · rw [recordIf_names, recordIf_names]
        dsimp only
        rw [hn]
        exact hs.reserved
      · intro l x hx
        rw [recordIf_names, recordIf_names] at hx
        dsimp only at hx
        rw [hn] at hx
        exact hs.names l x hx
      · intro p x hx
        rw [recordIf_functions, recordIf_functions, Functions.identifier?] at hx
        dsimp only at hx
        rw [hf, Ledger.get?_put] at hx
        split at hx
        · cases hx
          exact hs.allocate _
        · exact hs.functions p x hx
  · exact grows_joins.refl s

theorem grows_steps : Run.Steps Grows where
  toJoins := grows_joins
  record r s := Grows.of_same rfl rfl
  fragment part tag code overwrite s := by
    rw [Run.run_addFragment]
    split
    · exact Grows.of_same (by simp [setFragments_names]) (by simp [setFragments_functions])
    · exact grows_joins.refl s
  identifier := identifier_within
  distinct realm name s := by
    rw [Run.run_distinctIdentifier]
    exact ⟨⟨fun l x h => h, fun p x h => h⟩, fun hs => ⟨hs.reserved, hs.names, hs.functions⟩⟩
  provide := provide_within
  procedure name code s := by
    rw [Run.run_addProcedure]
    split
    · exact Grows.of_same rfl rfl
    · exact grows_joins.refl s
  warn id tag text s := Grows.of_same rfl rfl
  pin id pin task tag s := by
    rw [Run.run_claimPin]
    split <;> exact Grows.of_same rfl rfl

end Session

namespace Generator

variable {n : Nat}

/-- The sessions of a drawing: the one that is opened for it, and what writing its blocks out makes of it. -/
inductive Reaches (g : Generator) (w : Workspace n) : Session → Prop where
  | start {s : Session} : g.start w = .ok s → Reaches g w s
  | emit {s : Session} (i : Option (Fin n)) : Reaches g w s → Reaches g w (((g.job w).emit i).run s).2

/-- The session before the variables are declared. -/
def opened (g : Generator) (w : Workspace n) (typed : Workspace.Typed n) : Session where
  names := { reserved := g.settings.reserved }
  events := typed.found.events
  kinds := typed.found.kinds
  log := openingLog w :: typed.found.log

theorem declared_of_start {g : Generator} {w : Workspace n} {s : Session} (h : g.start w = .ok s) :
    ∃ typed, w.infer = .ok typed ∧
      (typed.found.kinds.entries.forM fun e => declareVariable e.1 e.2).run (g.opened w typed) = (.ok ⟨⟩, s) := by
  obtain ⟨_, -, h⟩ := ok_of_bind h
  obtain ⟨typed, htyped, h⟩ := ok_of_bind h
  dsimp only at h
  split at h
  · rename_i hrun
    cases h
    exact ⟨typed, htyped, hrun⟩
  · cases h

/-- A session is opened by declaring variables in one that keeps nothing. -/
theorem run_of_start {g : Generator} {w : Workspace n} {s : Session} (h : g.start w = .ok s) :
    ∃ (kinds : VariableKinds) (new : Session), new.Plain ∧ (∀ part, new.fragments part = {}) ∧ new.functions = {} ∧
      (kinds.entries.forM fun (name, kind) => declareVariable name kind).run new = (.ok ⟨⟩, s) := by
  obtain ⟨typed, -, hrun⟩ := declared_of_start h
  refine ⟨_, _, ⟨fun w hw => ?_, fun l x hx => ?_, fun p x hx => ?_⟩, fun part => ?_, rfl, hrun⟩
  · exact List.mem_append_left _ hw
  · cases hx
  · cases hx
  · cases part <;> rfl

theorem start_plain {g : Generator} {w : Workspace n} {s : Session} (h : g.start w = .ok s) : s.Plain := by
  obtain ⟨kinds, new, hnew, -, -, hrun⟩ := run_of_start h
  have hgrows := Session.grows_joins.forM kinds.entries (f := fun (name, kind) =>
    declareVariable name kind) (fun e _ => Session.grows_joins.bind (Session.identifier_within _ _) fun _ =>
      Session.grows_joins.bind (Session.grows_steps.fragment _ _ _ _) fun _ => Session.grows_joins.pure _)
  exact (hgrows.of_run hrun).2 hnew

theorem Reaches.plain {g : Generator} {w : Workspace n} {s : Session} (h : g.Reaches w s) : s.Plain := by
  induction h with
  | start hs => exact start_plain hs
  | @emit s i _ ih => exact ((g.job w).emit_within Session.grows_steps i s).2 ih

theorem run_of_generate {g : Generator} {w : Workspace n} {out : Generated} (h : g.generate w = .ok out) :
    ∃ σ τ final body, g.start w = .ok σ ∧ (g.body w).run σ = (.ok body, τ) ∧
      (Run.assemble g.settings body).run τ = (.ok out.code, final) ∧ out.events = τ.events := by
  obtain ⟨σ, hσ, h⟩ := ok_of_bind h
  split at h
  · cases h
  · rename_i body τ hbody
    split at h
    · cases h
    · rename_i code final hcode
      cases h
      exact ⟨σ, τ, final, body, hσ, hbody, hcode, rfl⟩

theorem code_of_generate {g : Generator} {w : Workspace n} {out : Generated} (h : g.generate w = .ok out) :
    ∃ σ τ body, g.start w = .ok σ ∧ (g.body w).run σ = (.ok body, τ) ∧ out.code = τ.program g.settings body := by
  obtain ⟨σ, τ, final, body, hσ, hbody, hcode, -⟩ := run_of_generate h
  have hassemble : (Run.assemble g.settings body).run τ = (.ok (τ.program g.settings body),
    τ.close.record (.info ("Generated " ++ toString (Text.lineBreaks (τ.program g.settings body)) ++
      " lines of MicroPython"))) := rfl
  rw [hassemble] at hcode
  exact ⟨σ, τ, body, hσ, hbody, (Except.ok.inj (Prod.mk.inj hcode).1).symm⟩

end Generator

end BlockScript
