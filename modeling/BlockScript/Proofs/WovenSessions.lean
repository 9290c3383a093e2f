import BlockScript.Proofs.Resolution
import BlockScript.Proofs.Twins
import BlockScript.Proofs.Weaving

namespace BlockScript

namespace Ledger

variable {κ α β : Type} {R : κ → α → β → Prop}

/-- The same keys in the same order, with related values. -/
def Rel (R : κ → α → β → Prop) (l : Ledger κ α) (l' : Ledger κ β) : Prop :=
  List.Forall₂ (fun e e' => e.1 = e'.1 ∧ R e.1 e.2 e'.2) l.entries l'.entries

variable [BEq κ] {l : Ledger κ α} {l' : Ledger κ β} {k : κ}

theorem Rel.get? (h : Rel R l l') (hR : ∀ j a b, (j == k) = true → (R j a b ↔ R k a b)) :
    Option.Rel (R k) (l.get? k) (l'.get? k) := by
  obtain ⟨es⟩ := l
  obtain ⟨es'⟩ := l'
  unfold Rel at h
  unfold Ledger.get?
  dsimp only at h ⊢
  induction h with
  | nil => exact .none
  | cons he _ ih =>
    rw [List.find?_cons, List.find?_cons, ← he.1]
    split
    · rename_i hk
      exact .some ((hR _ _ _ hk).mp he.2)
    · exact ih

theorem Rel.put (h : Rel R l l') (hR : ∀ j a b, (j == k) = true → (R j a b ↔ R k a b)) {a : α} {b : β} (hab : R k a b) :
    Rel R (l.put k a) (l'.put k b) := by
  obtain ⟨es⟩ := l
  obtain ⟨es'⟩ := l'
  unfold Rel at h ⊢
  unfold Ledger.put
  dsimp only at h ⊢
  induction h with
  | nil => exact .cons ⟨rfl, hab⟩ .nil
  | cons he hes ih =>
    rw [putEntry, putEntry, ← he.1]
    split
    · rename_i hk
      exact .cons ⟨rfl, (hR _ _ _ hk).mpr hab⟩ hes
    · exact .cons he ih

end Ledger

open Text

variable {M F : List Char → Prop}

namespace Session

/-- The session with other setups and procedures. -/
def reworked (s : Session) (setups : Fragments Value) (procedures : Fragments String) : Session :=
  { s with setups, functions := { s.functions with procedures } }

theorem reworked_isOpen (s : Session) (setups : Fragments Value) (procedures : Fragments String) :
    (s.reworked setups procedures).isOpen = s.isOpen := rfl

theorem recordIf_reworked (s : Session) (setups : Fragments Value) (procedures : Fragments String) (p : Bool) (l : LogRecord) :
    Run.recordIf p l (s.reworked setups procedures) = (Run.recordIf p l s).reworked setups procedures := by
  cases p <;> rfl

/-- Functions are provided whatever the procedures are. -/
theorem reworked_provide (s : Session) (setups : Fragments Value) (procedures : Fragments String) (preferred text : String) :
    (s.reworked setups procedures).functions.provide (s.reworked setups procedures).names preferred text =
      ((s.functions.provide s.names preferred text).1,
        { (s.functions.provide s.names preferred text).2.1 with procedures },
        (s.functions.provide s.names preferred text).2.2) := by
  have hidentifier : (s.reworked setups procedures).functions.identifier? preferred = s.functions.identifier? preferred := rfl
  unfold Functions.provide Functions.identify
  rw [hidentifier]
  cases s.functions.identifier? preferred with
  | none =>
    dsimp only [reworked, Functions.keepIdentifier]
    split <;> rfl
  | some x =>
    dsimp only [reworked]
    split <;> rfl

/-- Setup fragments are the same, but those of the branch that runs once may have marks and fillers. -/
def SetupTwined (M F : List Char → Prop) (tag : Value) (code code' : String) : Prop :=
  code = code' ∨ tag = .text Scene.userSetupTag ∧ BlockScript.Twined M F code code'

/-- The same procedure with marks and fillers. -/
def ProcedureTwined (M F : List Char → Prop) (_name code code' : String) : Prop :=
  BlockScript.Twined M F code code' ∧ code ≠ ""

/-- Two sessions that differ by marks and fillers in what blocks with lines below them have left. -/
structure Twined (M F : List Char → Prop) (s s' : Session) : Prop where
  plain : s.Plain
  same : s' = s.reworked s'.setups s'.functions.procedures
  setups : Ledger.Rel (SetupTwined M F) s.setups s'.setups
  procedures : Ledger.Rel (ProcedureTwined M F) s.functions.procedures s'.functions.procedures

end Session

namespace Run

variable {α : Type} {r : Run α}

/-- A run that neither looks at setups and procedures nor changes them. -/
theorem Twins.of_reworked (hgrows : r.Within Session.Grows) (h : ∀ s setups procedures,
    r.run (s.reworked setups procedures) = ((r.run s).1, (r.run s).2.reworked setups procedures)) :
    Twins (Session.Twined M F) Eq r r := by
  intro s s' hs
  have hown := h s s.setups s.functions.procedures
  have hself : (r.run s).2 = (r.run s).2.reworked s.setups s.functions.procedures := congrArg Prod.snd hown
  have hother := h s s'.setups s'.functions.procedures
  rw [← hs.same] at hother
  rw [hother]
  refine ⟨⟨(hgrows s).2 hs.plain, rfl, ?_, ?_⟩, ?_⟩
  · rw [hself]
    exact hs.setups
  · rw [hself]
    exact hs.procedures
  · cases (r.run s).1 with
    | ok a => exact .ok rfl
    | error f => exact .error f

theorem checkOpen_woven : Twins (Session.Twined M F) Eq checkOpen checkOpen :=
  .of_reworked Session.grows_steps.checkOpen fun s setups procedures => by rw [run_checkOpen, run_checkOpen]; rfl

theorem record_woven (l : LogRecord) : Twins (Session.Twined M F) Eq (record l) (record l) :=
  .of_reworked (Session.grows_steps.record l) fun _ _ _ => rfl

theorem identifier_woven (realm : Realm) (name : Value) :
    Twins (Session.Twined M F) Eq (identifier realm name) (identifier realm name) := by
  refine .of_reworked (Session.grows_steps.identifier realm name) fun s setups procedures => ?_
  rw [run_identifier, run_identifier]
  dsimp only [Session.reworked]
  cases s.names.get ⟨realm, name⟩ with
  | error f => rfl
  | ok found => cases s.names.find? ⟨realm, name⟩ <;> rfl

theorem distinctIdentifier_woven (realm : Realm) (name : Value) :
    Twins (Session.Twined M F) Eq (distinctIdentifier realm name) (distinctIdentifier realm name) :=
  .of_reworked (Session.grows_steps.distinct realm name) fun _ _ _ => rfl

theorem provide_woven (preferred text : String) :
    Twins (Session.Twined M F) Eq (provide preferred text) (provide preferred text) := by
  refine .of_reworked (Session.grows_steps.provide preferred text) fun s setups procedures => ?_
  rw [run_provide, run_provide, Session.reworked_isOpen]
  by_cases ho : s.isOpen = true
  · rw [if_pos ho, if_pos ho]
    dsimp only
    rw [Session.reworked_provide, ← Session.recordIf_reworked, ← Session.recordIf_reworked]
    rfl
  · rw [if_neg ho, if_neg ho]

theorem claimPin_woven (id : String) (pin : Value) (task : PinTask) (tag : String) :
    Twins (Session.Twined M F) Eq (claimPin id pin task tag) (claimPin id pin task tag) := by
  refine .of_reworked (Session.grows_steps.pin id pin task tag) fun s setups procedures => ?_
  rw [run_claimPin, run_claimPin]
  dsimp only [Session.reworked]
  cases (s.pins.claim pin task).1 <;> rfl

theorem addFragment_woven (part : Section) (hpart : part ≠ .setups) (tag : Value) (code : String) (overwrite : Bool) :
    Twins (Session.Twined M F) Eq (addFragment part tag code overwrite) (addFragment part tag code overwrite) := by
  refine .of_reworked (Session.grows_steps.fragment part tag code overwrite) fun s setups procedures => ?_
  have hfragments : (s.reworked setups procedures).fragments part = s.fragments part := by
    cases part <;> first | rfl | exact absurd rfl hpart
  have hset : ∀ fragments, (s.reworked setups procedures).setFragments fragments part =
      (s.setFragments fragments part).reworked setups procedures := by
    cases part <;> first | exact fun _ => rfl | exact absurd rfl hpart
  rw [run_addFragment, run_addFragment, hfragments, Session.reworked_isOpen]
  by_cases ho : s.isOpen = true
  · rw [if_pos ho, if_pos ho]
    dsimp only
    rw [hset, Session.recordIf_reworked]
  · rw [if_neg ho, if_neg ho]

end Run

namespace Session

theorem setupTwined_congr {tag tag' : Value} (htag : (tag == tag') = true) (code code' : String) :
    SetupTwined M F tag code code' ↔ SetupTwined M F tag' code code' := by
  have huser : tag = .text Scene.userSetupTag ↔ tag' = .text Scene.userSetupTag := by
    have hiff := fun v => (Value.IsText.beq_iff ⟨Scene.userSetupTag, rfl⟩ v : (Value.text Scene.userSetupTag == v) = true ↔ _)
    rw [eq_comm, ← hiff, BEq.congr_right htag, hiff, eq_comm]
  rw [SetupTwined, SetupTwined, huser]

/-- The first fragment of the branch that runs once stays, and every other one is the same in both sessions. -/
theorem SetupTwined.add {l l' : Fragments Value} (hl : Ledger.Rel (SetupTwined M F) l l') {tag : Value} {code code' : String}
    (h : SetupTwined M F tag code code') {overwrite : Bool} (htag : tag = .text Scene.userSetupTag → overwrite = false) :
    (l.add tag code overwrite).1 = (l'.add tag code' overwrite).1 ∧
      Ledger.Rel (SetupTwined M F) (l.add tag code overwrite).2 (l'.add tag code' overwrite).2 := by
  have hcongr : ∀ j a b, (j == tag) = true → (SetupTwined M F j a b ↔ SetupTwined M F tag a b) :=
    fun _ a b hj => setupTwined_congr hj a b
  have hold := hl.get? hcongr
  unfold Fragments.add
  generalize l.get? tag = o at hold
  generalize l'.get? tag = o' at hold
  cases hold with
  | none => exact ⟨rfl, hl.put hcongr h⟩
  | @some old old' hold =>
    have hkept : (!overwrite || old == code) = (!overwrite || old' == code') := by
      by_cases huser : tag = .text Scene.userSetupTag
      · rw [htag huser]
        rfl
      · obtain rfl : old = old' := hold.resolve_right fun h => huser h.1
        obtain rfl : code = code' := h.resolve_right fun h => huser h.1
        rfl
    dsimp only
    rw [hkept]
    split
    · exact ⟨rfl, hl⟩
    · exact ⟨rfl, hl.put hcongr h⟩

end Session

namespace Run

theorem addSetup_woven {tag : Value} {code code' : String} (h : Session.SetupTwined M F tag code code') {overwrite : Bool}
    (htag : tag = .text Scene.userSetupTag → overwrite = false) :
    Twins (Session.Twined M F) Eq (addFragment .setups tag code overwrite) (addFragment .setups tag code' overwrite) := by
  intro s s' hs
  obtain ⟨setups, procedures, rfl⟩ : ∃ setups procedures, s' = s.reworked setups procedures := ⟨_, _, hs.same⟩
  obtain ⟨hchanged, hsetups⟩ := h.add hs.setups htag
  have hplain := (Session.grows_steps.fragment .setups tag code overwrite s).2 hs.plain
  rw [run_addFragment] at hplain ⊢
  rw [run_addFragment, Session.reworked_isOpen]
  by_cases ho : s.isOpen = true
  · rw [if_pos ho] at hplain ⊢
    rw [if_pos ho]
    dsimp only [Session.fragments] at hplain ⊢
    have hadded : (s.reworked setups procedures).setups.add tag code' overwrite = setups.add tag code' overwrite := rfl
    rw [hadded] at hchanged hsetups ⊢
    rw [← hchanged]
    generalize (s.setups.add tag code overwrite).1 = changed at hplain ⊢
    cases changed <;> exact ⟨⟨hplain, rfl, hsetups, hs.procedures⟩, .ok rfl⟩
  · rw [if_neg ho, if_neg ho]
    exact ⟨hs, .error _⟩

theorem addProcedure_woven {code code' : String} (h : Twined M F code code') (hne : code ≠ "") (name : String) :
    Twins (Session.Twined M F) Eq (addProcedure name code) (addProcedure name code') := by
  intro s s' hs
  obtain ⟨setups, procedures, rfl⟩ : ∃ setups procedures, s' = s.reworked setups procedures := ⟨_, _, hs.same⟩
  have hplain := (Session.grows_steps.procedure name code s).2 hs.plain
  rw [run_addProcedure] at hplain ⊢
  rw [run_addProcedure, Session.reworked_isOpen]
  by_cases ho : s.isOpen = true
  · rw [if_pos ho] at hplain ⊢
    rw [if_pos ho]
    exact ⟨⟨hplain, rfl, hs.setups, hs.procedures.put (fun _ _ _ _ => Iff.rfl) ⟨h, hne⟩⟩, .ok rfl⟩
  · rw [if_neg ho, if_neg ho]
    exact ⟨hs, .error _⟩

end Run

/-- Whatever a rule does that defines no procedure, it does alike. -/
theorem Deed.woven {n : Nat} {job : Job n} {i : Fin n} (hi : Workspace.isProcedure (job.diagram.block i) = false) {α : Type}
    (d : Deed α) (h : d.Allowed job i) : Run.Twins (Session.Twined M F) Eq d.run d.run := by
  cases d with
  | record l => exact Run.record_woven l
  | fragment part tag code overwrite =>
    by_cases hpart : part = .setups
    · subst hpart
      exact Run.addSetup_woven (Or.inl rfl) (h.2.2.1 rfl)
    · exact Run.addFragment_woven part hpart tag code overwrite
  | identifier realm name => exact Run.identifier_woven realm name
  | distinct realm name => exact Run.distinctIdentifier_woven realm name
  | object label tag declaration overwrite =>
    apply (Run.identifier_woven _ _).bind
    rintro name _ rfl
    exact (Run.addFragment_woven .declarations nofun _ _ _).bind fun _ _ _ => .pure rfl
  | provide preferred text => exact Run.provide_woven preferred text
  | procedure name code => exact absurd h (by rw [Deed.Allowed, hi]; decide)
  | warn id tag text => exact .of_reworked (Session.grows_steps.warn id tag text) fun _ _ _ => rfl
  | claim id pin task tag => exact Run.claimPin_woven id pin task tag
  | claims id pins task tag =>
    apply Run.Twins.forM (List.forall₂_same.mpr fun _ _ => rfl)
    rintro pin _ rfl
    exact (Run.claimPin_woven id pin task tag).bind fun _ _ _ => .pure rfl

namespace Session.Twined

variable {s s' : Session}

theorem events (h : s.Twined M F s') : s.events = s'.events := by
  rw [h.same]
  rfl

theorem kinds (h : s.Twined M F s') : s.kinds = s'.kinds := by
  rw [h.same]
  rfl

theorem functions_laid (h : s.Twined M F s') : Laid M F (joined "\n\n" (s.functions.values.map trimEnd))
    (joined "\n\n" (s'.functions.values.map trimEnd)) := by
  have htexts : s'.functions.texts = s.functions.texts := by
    rw [h.same]
    rfl
  have htrimmed : List.Forall₂ (Matched M F) (s.functions.procedures.values.map trimEnd)
      (s'.functions.procedures.values.map trimEnd) := by
    rw [List.forall₂_map_left_iff, List.forall₂_map_right_iff, Ledger.values, Ledger.values, List.forall₂_map_left_iff,
      List.forall₂_map_right_iff]
    refine h.procedures.imp fun e e' he => ?_
    obtain ⟨line, line', hline, hline', hmatched⟩ := he.2.1.matched he.2.2
    rwa [hline, hline', hmatched.first.trimEnd_line, hmatched.second.trimEnd_line]
  rw [Functions.values, Functions.values, htexts, List.map_append, List.map_append]
  by_cases hne : s.functions.procedures.values.map trimEnd = []
  · rw [hne, List.forall₂_nil_left_iff] at htrimmed
    rw [hne, htrimmed]
    exact .refl _
  · exact (Matched.joined "\n" (.whole []) _ htrimmed hne).laid

theorem setups_erase (h : s.Twined M F s') : (s.setups.erase (.text Scene.userSetupTag)).values =
    (s'.setups.erase (.text Scene.userSetupTag)).values := by
  have hsetups := h.setups
  unfold Ledger.Rel at hsetups
  unfold Ledger.values Ledger.erase
  generalize s.setups.entries = es at hsetups
  generalize s'.setups.entries = es' at hsetups
  dsimp only
  induction hsetups with
  | nil => rfl
  | @cons e e' _ _ he _ ih =>
    rw [List.filter_cons, List.filter_cons, ← he.1]
    split
    · rename_i hother
      have hcode : e.2 = e'.2 := he.2.resolve_right fun huser => by simp [huser.1] at hother
      rw [List.map_cons, List.map_cons, ih, hcode]
    · exact ih

/-- Only the last setup fragment may differ. -/
theorem setupLines_cases (h : s.Twined M F s') : s.setupLines = s'.setupLines ∨
    ∃ own line line', s.setupLines = own ++ [line] ∧ s'.setupLines = own ++ [line'] ∧ Matched M F line line' := by
  have hcode : Option.Rel (SetupTwined M F (.text Scene.userSetupTag)) (s.setups.get? (.text Scene.userSetupTag))
      (s'.setups.get? (.text Scene.userSetupTag)) := h.setups.get? fun _ a b hj => setupTwined_congr hj a b
  unfold setupLines
  dsimp only
  rw [← h.setups_erase]
  generalize (s.setups.erase (.text Scene.userSetupTag)).values = own
  generalize s.setups.get? (.text Scene.userSetupTag) = o at hcode
  generalize s'.setups.get? (.text Scene.userSetupTag) = o' at hcode
  cases hcode with
  | none => exact Or.inl rfl
  | @some code code' hcode =>
    obtain rfl | ⟨-, htwined⟩ := hcode
    · exact Or.inl rfl
    by_cases hne : code = ""
    · rw [hne, htwined.empty.mp hne]
      exact Or.inl rfl
    · obtain ⟨line, line', rfl, rfl, hmatched⟩ := htwined.matched hne
      refine Or.inr ⟨own, line, line', ?_, ?_, hmatched⟩
      · simp [hmatched.first.trimEnd_line]
      · simp [hmatched.second.trimEnd_line]

theorem setupSection_laid (h : s.Twined M F s') (settings : Settings) :
    List.Forall₂ (Laid M F) (s.setupSection settings) (s'.setupSection settings) := by
  unfold setupSection
  obtain hsame | ⟨own, line, line', hlines, hlines', hmatched⟩ := h.setupLines_cases
  · rw [hsame]
    exact List.forall₂_same.mpr fun _ _ => .refl _
  · have hsection := (Matched.joined "" .nil own (.cons hmatched .nil) (List.cons_ne_nil _ _)).behind settings.setupHeader
    rw [hlines, hlines']
    simpa using hsection.laid

theorem body_laid {body body' : String} (h : BlockScript.Twined M F body body') (header : String) :
    Laid M F (header ++ "\n" ++ body) (header ++ "\n" ++ body') := by
  by_cases hne : body = ""
  · rw [hne, h.empty.mp hne]
    exact .refl _
  · obtain ⟨line, line', rfl, rfl, hmatched⟩ := h.matched hne
    rw [← String.append_assoc, ← String.append_assoc]
    exact (hmatched.behind header).laid_lines

/-- Programs are the same but for marks and fillers. -/
theorem program_woven (h : s.Twined M F s') {body body' : String} (hbody : BlockScript.Twined M F body body')
    (settings : Settings) : Woven M F (s.program settings body).toList (s'.program settings body').toList := by
  have hrest : s'.imports = s.imports ∧ s'.globals = s.globals ∧ s'.declarations = s.declarations := by
    rw [h.same]
    exact ⟨rfl, rfl, rfl⟩
  apply Laid.layOut
  unfold sections
  rw [hrest.1, hrest.2.1, hrest.2.2]
  refine List.rel_append (List.rel_append ?_ (h.setupSection_laid settings)) (.cons (body_laid hbody _) .nil)
  exact .cons (.refl _) (.cons (.refl _) (.cons (.refl _) (.cons h.functions_laid .nil)))

end Session.Twined

end BlockScript
