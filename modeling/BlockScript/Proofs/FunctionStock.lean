import BlockScript.Proofs.ProcedureTexts

namespace BlockScript

open Text Run

variable {n : Nat} {α : Type} {indent : String}

theorem FunctionText.eq_of_preferred {f g : FunctionText} (hf : f ∈ all) (hg : g ∈ all)
    (h : f.preferred = g.preferred) : f = g := by
  have hnodup : (all.map preferred).Nodup := by decide
  exact List.inj_on_of_nodup_map hnodup hf hg h

namespace Functions

variable (f : Functions) (names : Names) (preferred text : String)

theorem provide_texts : (f.provide names preferred text).2.1.texts = if f.texts.contains preferred then f.texts
    else f.texts.put preferred (named (f.provide names preferred text).1 text) := by
  unfold provide identify
  cases f.identifier? preferred with
  | some x =>
    dsimp only
    split <;> rfl
  | none =>
    have hcontains : (f.keepIdentifier preferred (names.allocate (label preferred)).1).texts = f.texts := rfl
    dsimp only
    rw [hcontains]
    split <;> rfl

theorem provide_identifier : (f.provide names preferred text).2.1.identifier? preferred =
    some (f.provide names preferred text).1 := by
  unfold provide identify
  cases hf : f.identifier? preferred with
  | some x =>
    dsimp only
    split <;> exact hf
  | none =>
    have hput := Ledger.get?_put f.identifiers preferred preferred (names.allocate (label preferred)).1
    rw [if_pos BEq.rfl] at hput
    dsimp only
    split <;> exact hput

end Functions

namespace Session

/-- The functions of a session have the texts of their kind, under identifiers in use. -/
structure Stocked (indent : String) (s : Session) : Prop where
  isOpen : s.isOpen = true
  plain : s.Plain
  texts : ∀ p text, s.functions.texts.get? p = some text → ∃ f ∈ FunctionText.all, f.preferred = p ∧
    ∃ x, s.functions.identifier? p = some x ∧ text = Functions.named x (f.text indent)
  used : ∀ p x, s.functions.identifier? p = some x → x ∈ s.names.used

/-- Nothing changes but that names are handed out. -/
structure Rests (s t : Session) : Prop where
  isOpen : t.isOpen = s.isOpen
  texts : t.functions.texts = s.functions.texts
  identifiers : t.functions.identifiers = s.functions.identifiers
  used : s.names.used ⊆ t.names.used

theorem rests_joins : Joins Rests where
  refl _ := ⟨rfl, rfl, rfl, List.Subset.refl _⟩
  trans hst htu := ⟨htu.isOpen.trans hst.isOpen, htu.texts.trans hst.texts, htu.identifiers.trans hst.identifiers,
    List.Subset.trans hst.used htu.used⟩

variable {s t u : Session}

theorem Rests.stocked (h : s.Rests t) (hplain : t.Plain) (hs : s.Stocked indent) : t.Stocked indent := by
  have hidentifier (p : String) : t.functions.identifier? p = s.functions.identifier? p := by
    rw [Functions.identifier?, Functions.identifier?, h.identifiers]
  refine ⟨h.isOpen.trans hs.isOpen, hplain, fun p text htext => ?_, fun p x hx => ?_⟩
  · rw [h.texts] at htext
    obtain ⟨f, hf, hp, x, hx, rfl⟩ := hs.texts p text htext
    exact ⟨f, hf, hp, x, (hidentifier p).trans hx, rfl⟩
  · rw [hidentifier] at hx
    exact h.used (hs.used p x hx)

theorem record_rests (r : LogRecord) : (Run.record r).Within Rests :=
  fun _ => ⟨rfl, rfl, rfl, List.Subset.refl _⟩

theorem fragment_rests (part : Section) (tag : Value) (code : String) (overwrite : Bool) :
    (addFragment part tag code overwrite).Within Rests := by
  intro s
  rw [run_addFragment]
  split
  · refine ⟨?_, ?_, ?_, ?_⟩
    · rw [recordIf_isOpen]
      cases part <;> rfl
    · rw [recordIf_functions, setFragments_functions]
    · rw [recordIf_functions, setFragments_functions]
    · rw [recordIf_names, setFragments_names]
      exact List.Subset.refl _
  · exact rests_joins.refl s

theorem identifier_rests (realm : Realm) (name : Value) : (identifier realm name).Within Rests := by
  intro s
  obtain hrun | ⟨x, -, hrun⟩ | ⟨-, -, r, hrun⟩ := run_identifier_cases realm name s
  · rw [hrun]
    exact rests_joins.refl s
  · rw [hrun]
    exact rests_joins.refl s
  · rw [hrun]
    exact ⟨rfl, rfl, rfl, List.subset_cons_self _ _⟩

theorem distinct_rests (realm : Realm) (name : Value) : (distinctIdentifier realm name).Within Rests := by
  intro s
  rw [run_distinctIdentifier]
  exact ⟨rfl, rfl, rfl, List.subset_cons_self _ _⟩

theorem pin_rests (id : String) (pin : Value) (task : PinTask) (tag : String) :
    (claimPin id pin task tag).Within Rests := by
  intro s
  rw [run_claimPin]
  split <;> exact ⟨rfl, rfl, rfl, List.Subset.refl _⟩

/-- The session has a function under an identifier. -/
structure Holds (s : Session) (indent : String) (f : FunctionText) (x : String) : Prop where
  identifier : s.functions.identifier? f.preferred = some x
  text : s.functions.texts.get? f.preferred = some (Functions.named x (f.text indent))

/-- The identifier is in use, but not for a function. -/
def Spare (s : Session) (y : String) : Prop :=
  y ∈ s.names.used ∧ ∀ p, s.functions.identifier? p ≠ some y

theorem Rests.spare (h : s.Rests t) {y : String} (hy : s.Spare y) : t.Spare y := by
  refine ⟨h.used hy.1, fun p => ?_⟩
  rw [Functions.identifier?, h.identifiers]
  exact hy.2 p

/-- What a function that is provided changes. -/
structure Provided (s u : Session) (preferred text x : String) : Prop where
  isOpen : u.isOpen = true
  grows : s.Grows u
  identifier : u.functions.identifier? preferred = some x
  texts : u.functions.texts = if s.functions.texts.contains preferred then s.functions.texts
    else s.functions.texts.put preferred (Functions.named x text)
  names : u.names = s.names ∧ u.functions.identifiers = s.functions.identifiers ∨
    u.names = (s.names.allocate (Functions.label preferred)).2 ∧
      u.functions.identifiers = s.functions.identifiers.put preferred (s.names.allocate (Functions.label preferred)).1

theorem run_provided (hs : s.isOpen = true) (preferred text : String) :
    ∃ x u, (Run.provide preferred text).run s = (.ok x, u) ∧ s.Provided u preferred text x := by
  have hgrows := provide_within preferred text s
  rw [run_provide, if_pos hs] at hgrows ⊢
  refine ⟨_, _, rfl, ?_, hgrows, ?_, ?_, ?_⟩
  · simpa using hs
  · simpa using s.functions.provide_identifier s.names preferred text
  · simpa using s.functions.provide_texts s.names preferred text
  · simpa using (s.functions.provide_cases s.names preferred text).imp id And.right

namespace Provided

variable {preferred text x : String}

theorem spare (h : s.Provided u preferred text x) {y : String} (hy : s.Spare y) : u.Spare y := by
  obtain ⟨hnames, hidentifiers⟩ | ⟨hnames, hidentifiers⟩ := h.names
  · refine ⟨hnames ▸ hy.1, fun p => ?_⟩
    rw [Functions.identifier?, hidentifiers]
    exact hy.2 p
  · refine ⟨hnames ▸ List.mem_cons_of_mem _ hy.1, fun p hp => ?_⟩
    rw [Functions.identifier?, hidentifiers, Ledger.get?_put] at hp
    split at hp
    · cases hp
      exact s.names.allocate_fresh _ hy.1
    · exact hy.2 p hp

/-- A text that is there stays. -/
theorem text_of_text (h : s.Provided u preferred text x) {p code : String} (hp : s.functions.texts.get? p = some code) :
    u.functions.texts.get? p = some code := by
  rw [h.texts]
  split
  · exact hp
  · rename_i hnew
    rw [Ledger.get?_put, if_neg]
    · exact hp
    · intro heq
      obtain rfl := beq_iff_eq.mp heq
      rw [Ledger.contains_eq, hp] at hnew
      exact hnew rfl

theorem holds (h : s.Provided u preferred text x) {g : FunctionText} {y : String} (hy : s.Holds indent g y) :
    u.Holds indent g y :=
  ⟨h.grows.1.functions _ _ hy.identifier, h.text_of_text hy.text⟩

theorem stocked {f : FunctionText} (h : s.Provided u f.preferred (f.text indent) x) (hf : f ∈ FunctionText.all)
    (hs : s.Stocked indent) : u.Stocked indent := by
  refine ⟨h.isOpen, h.grows.2 hs.plain, fun p code hcode => ?_, fun p y hy => ?_⟩
  · have hcases : s.functions.texts.get? p = some code ∨ p = f.preferred ∧ code = Functions.named x (f.text indent) := by
      rw [h.texts] at hcode
      split at hcode
      · exact Or.inl hcode
      · rw [Ledger.get?_put] at hcode
        split at hcode
        · rename_i heq
          exact Or.inr ⟨(beq_iff_eq.mp heq).symm, (Option.some.inj hcode).symm⟩
        · exact Or.inl hcode
    obtain hold | ⟨rfl, rfl⟩ := hcases
    · obtain ⟨g, hg, hp, y, hy, hnamed⟩ := hs.texts p code hold
      exact ⟨g, hg, hp, y, h.grows.1.functions _ _ hy, hnamed⟩
    · exact ⟨f, hf, rfl, x, h.identifier, rfl⟩
  · obtain ⟨hnames, hidentifiers⟩ | ⟨hnames, hidentifiers⟩ := h.names
    · rw [Functions.identifier?, hidentifiers] at hy
      rw [hnames]
      exact hs.used p y hy
    · rw [Functions.identifier?, hidentifiers, Ledger.get?_put] at hy
      rw [hnames]
      split at hy
      · cases hy
        exact List.mem_cons_self
      · exact List.mem_cons_of_mem _ (hs.used p y hy)

theorem holds_self {f : FunctionText} (h : s.Provided u f.preferred (f.text indent) x) (hf : f ∈ FunctionText.all)
    (hs : s.Stocked indent) : u.Holds indent f x := by
  refine ⟨h.identifier, ?_⟩
  cases hold : s.functions.texts.get? f.preferred with
  | none =>
    rw [h.texts, if_neg (by simp [Ledger.contains_eq, hold]), Ledger.get?_put, if_pos BEq.rfl]
  | some code =>
    obtain ⟨g, hg, hp, y, hy, rfl⟩ := hs.texts _ _ hold
    obtain rfl := FunctionText.eq_of_preferred hg hf hp
    have hsame := h.grows.1.functions _ _ hy
    rw [h.identifier] at hsame
    obtain rfl := Option.some.inj hsame
    exact h.text_of_text hold

end Provided

end Session

/-- A change that a rule may make keeps the stock. -/
theorem Deed.stocks {job : Job n} {i : Fin n} {d : Deed α} (hd : d.Allowed job i) :
    d.run.Within fun s t => s.Stocked job.settings.indent → t.Stocked job.settings.indent := by
  intro s hs
  have hgrows := d.within Session.grows_steps s
  have hrests : ∀ t, (d.run.run s).2 = t → s.Rests t → t.Stocked job.settings.indent :=
    fun t ht h => h.stocked (ht ▸ hgrows.2 hs.plain) hs
  have hjoins := Session.rests_joins
  cases d with
  | record r => exact hrests _ rfl (Session.record_rests r s)
  | fragment part tag code overwrite => exact hrests _ rfl (Session.fragment_rests part tag code overwrite s)
  | identifier realm name => exact hrests _ rfl (Session.identifier_rests realm name s)
  | distinct realm name => exact hrests _ rfl (Session.distinct_rests realm name s)
  | object label tag declaration overwrite =>
    exact hrests _ rfl (hjoins.bind (Session.identifier_rests _ _) (fun _ => hjoins.bind (Session.fragment_rests _ _ _ _)
      fun _ => hjoins.pure _) s)
  | provide preferred text =>
    obtain ⟨f, hf, rfl, rfl⟩ := hd
    obtain ⟨x, u, hrun, hprovided⟩ := Session.run_provided hs.isOpen f.preferred (f.text job.settings.indent)
    have hlast : ((Deed.provide f.preferred (f.text job.settings.indent)).run.run s).2 = u := congrArg Prod.snd hrun
    rw [hlast]
    exact hprovided.stocked hf hs
  | procedure name code =>
    refine hrests _ rfl ?_
    rw [run, run_addProcedure]
    split <;> exact ⟨rfl, rfl, rfl, List.Subset.refl _⟩
  | warn id tag text => exact hrests _ rfl ⟨rfl, rfl, rfl, List.Subset.refl _⟩
  | claim id pin task tag => exact hrests _ rfl (Session.pin_rests id pin task tag s)
  | claims id pins task tag =>
    exact hrests _ rfl (hjoins.forM pins (fun pin _ => hjoins.bind (Session.pin_rests id pin task tag)
      fun _ => hjoins.pure _) s)

/-- Changes that the rules of a drawing may make lead from one session to another. -/
def Job.Reaches (job : Job n) : Session → Session → Prop :=
  Relation.ReflTransGen fun s t => ∃ (i : Fin n) (β : Type) (d : Deed β), d.Allowed job i ∧ (d.run.run s).2 = t

theorem Generator.start_stocked {g : Generator} {w : Workspace n} {σ : Session} (h : g.start w = .ok σ) :
    σ.Stocked g.settings.indent := by
  obtain ⟨typed, -, hrun⟩ := declared_of_start h
  have hjoins := Session.rests_joins
  have hdeclare (name : Value) (kind : ValueKind) : (declareVariable name kind).Within Session.Rests :=
    hjoins.bind (Session.identifier_rests _ _) fun _ => hjoins.bind (Session.fragment_rests _ _ _ _) fun _ =>
      hjoins.pure _
  have hrests : (g.opened w typed).Rests σ := (hjoins.forM _ fun e _ => hdeclare e.1 e.2).of_run hrun
  refine ⟨hrests.isOpen, start_plain h, fun p text htext => ?_, fun p x hx => ?_⟩
  · rw [hrests.texts] at htext
    cases htext
  · rw [Functions.identifier?, hrests.identifiers] at hx
    cases hx

theorem Generator.body_stocks (g : Generator) (w : Workspace n) : (g.body w).Within
    fun s t => s.Stocked g.settings.indent → t.Stocked g.settings.indent := by
  have hjoins : Joins fun s t => s.Stocked g.settings.indent → t.Stocked g.settings.indent :=
    ⟨fun _ => id, fun hst htu hs => htu (hst hs)⟩
  exact Job.body_allowed (Q := fun _ => True) hjoins (fun _ _ _ _ => trivial) (fun _ _ _ _ hd => Deed.stocks hd)
    fun _ _ => trivial

theorem Job.Reaches.stocked {job : Job n} {s t : Session} (h : job.Reaches s t) (hs : s.Stocked job.settings.indent) :
    t.Stocked job.settings.indent := by
  induction h with
  | refl => exact hs
  | tail _ hstep ih =>
    obtain ⟨i, β, d, hd, rfl⟩ := hstep
    exact Deed.stocks hd _ ih

end BlockScript
