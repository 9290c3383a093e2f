import BlockScript.Proofs.FunctionStock
import BlockScript.Proofs.NameRuns
import BlockScript.Proofs.Texts

namespace BlockScript

/-- What is asked of the functions of a program, and of the name table that they share. -/
inductive FunctionCall where
  /-- The identifier of a function, which gets its text if it has none. -/
  | provide (preferred text : String)
  /-- The identifier of a function. -/
  | identify (preferred : String)
  /-- The text of a procedure of the drawing. -/
  | procedure (name code : String)
  /-- The identifier that is kept for a logical name. -/
  | get (label : Label)
  /-- A new identifier for this time only. -/
  | distinct (label : Label)

/-- What an identifier is handed out for. -/
inductive Holder where
  | function (preferred : String)
  | kept (label : Label)
  | once (label : Label)

/-- Both are one function, or one logical name for which an identifier is kept. -/
def Holder.Same : Holder → Holder → Prop
  | function p, function q => p = q
  | kept l, kept m => (l == m) = true
  | _, _ => False

/-- Who a call hands an identifier to. A logical name that cannot be looked up gets none. -/
def FunctionCall.holder? : FunctionCall → Option Holder
  | provide preferred _ | identify preferred => some (.function preferred)
  | get label => if label.name.isKey then some (.kept label) else none
  | distinct label => some (.once label)
  | procedure _ _ => none

/-- The functions that calls give texts for, in order. -/
def FunctionCall.provided (calls : List FunctionCall) : List (String × String) :=
  calls.filterMap fun
    | provide preferred text => some (preferred, text)
    | _ => none

/-- The procedures that calls give texts for, in order. -/
def FunctionCall.procedures (calls : List FunctionCall) : List (String × String) :=
  calls.filterMap fun
    | procedure name code => some (name, code)
    | _ => none

/-- An identifier that was handed out. -/
structure Answer where
  holder : Holder
  identifier : String

def Answer.ofHandout (h : Handout) : Answer :=
  ⟨if h.kept then .kept h.label else .once h.label, h.identifier⟩

/-- The functions of a program with their name table, and all identifiers that it handed out, in order. -/
structure FunctionRun where
  names : Names
  functions : Functions
  answers : List Answer

namespace FunctionRun

def step (r : FunctionRun) : FunctionCall → FunctionRun
  | .provide preferred text =>
    let given := r.functions.provide r.names preferred text
    ⟨given.2.2, given.2.1, r.answers ++ [⟨.function preferred, given.1⟩]⟩
  | .identify preferred =>
    let given := r.functions.identify r.names preferred
    ⟨given.2.2, given.2.1, r.answers ++ [⟨.function preferred, given.1⟩]⟩
  | .procedure name code => { r with functions := r.functions.addProcedure name code }
  | .get label => match r.names.get label with
    | .ok given => { r with names := given.2, answers := r.answers ++ [⟨.kept label, given.1⟩] }
    | .error _ => r
  | .distinct label =>
    let given := r.names.allocate label
    { r with names := given.2, answers := r.answers ++ [⟨.once label, given.1⟩] }

/-- No functions yet, but a name table that may have been in use. -/
def start (reserved : List String) (earlier : List NameRequest) : FunctionRun :=
  let r := NameRun.after reserved earlier
  ⟨r.names, {}, r.given.map Answer.ofHandout⟩

def after (reserved : List String) (earlier : List NameRequest) (calls : List FunctionCall) : FunctionRun :=
  calls.foldl step (start reserved earlier)

end FunctionRun

namespace Holder

variable {a b c : Holder}

theorem Same.symm (h : a.Same b) : b.Same a := by
  cases a <;> cases b <;> simp only [Same] at h ⊢
  · exact h.symm
  · exact BEq.symm h

theorem Same.trans (h : a.Same b) (h' : b.Same c) : a.Same c := by
  cases a <;> cases b <;> simp only [Same] at h <;> cases c <;> simp only [Same] at h' ⊢
  · exact h.trans h'
  · exact BEq.trans h h'

end Holder

theorem NameRun.Sound.found_of_mem {reserved : List String} {r : NameRun} (hr : Sound reserved r) {g : Handout}
    (hg : g ∈ r.given) (hkept : g.kept = true) {l : Label} (hl : (g.label == l) = true) :
    r.names.find? l = some g.identifier := by
  have hsome : (r.names.find? l).isSome = true := by
    rw [hr.found, Option.isSome_map, List.find?_isSome]
    exact ⟨g, hg, by simp [hkept, hl]⟩
  obtain ⟨x, hx⟩ := Option.isSome_iff_exists.mp hsome
  obtain ⟨g', hg', hkept', hl', rfl⟩ := hr.mem_of_found hx
  rw [hx]
  by_cases he : g' = g
  · rw [he]
  · rw [(hr.agree_iff hg' hg he).mpr ⟨hkept', hkept, BEq.trans hl' (BEq.symm hl)⟩]

namespace FunctionRun

variable {reserved : List String} {r r' : FunctionRun} {h : Holder} {x : String}

/-- The identifier that is found for someone. -/
def found? (r : FunctionRun) : Holder → Option String
  | .function preferred => r.functions.identifier? preferred
  | .kept label => r.names.find? label
  | .once _ => none

/-- The tables say what was handed out, and to each his own. -/
structure Sound (reserved : List String) (r : FunctionRun) : Prop where
  words : r.names.reserved = reserved
  used : ∀ x, x ∈ r.names.used ↔ x ∈ r.answers.map (·.identifier)
  found : ∀ h x, r.found? h = some x ↔ ∃ a ∈ r.answers, a.holder.Same h ∧ a.identifier = x
  separate : r.answers.Pairwise fun a b => a.identifier = b.identifier ↔ a.holder.Same b.holder
  free : ∀ a ∈ r.answers, a.identifier ∉ reserved

/-- A new identifier goes to one who has none. -/
theorem Sound.extend (hr : Sound reserved r) (hnone : r.found? h = none) (hwords : r'.names.reserved = r.names.reserved)
    (hused : r'.names.used = x :: r.names.used) (hnew : ¬ (x ∈ r.names.used ∨ x ∈ r.names.reserved))
    (hfound : ∀ h', (h.Same h' → r'.found? h' = some x) ∧ (¬ h.Same h' → r'.found? h' = r.found? h'))
    (hanswers : r'.answers = r.answers ++ [⟨h, x⟩]) : Sound reserved r' := by
  obtain ⟨hfresh, hfree⟩ := not_or.mp hnew
  have hother : ∀ a ∈ r.answers, ¬ a.holder.Same h := by
    intro a ha hsame
    rw [(hr.found h a.identifier).mpr ⟨a, ha, hsame, rfl⟩] at hnone
    cases hnone
  constructor
  case words => exact hwords.trans hr.words
  case used =>
    intro y
    rw [hused, hanswers, List.mem_cons, hr.used, List.map_append, List.mem_append, List.map_singleton, List.mem_singleton,
      or_comm]
  case found =>
    intro h' y
    rw [hanswers]
    by_cases hsame : h.Same h'
    · rw [(hfound h').1 hsame]
      constructor
      · rintro ⟨⟩
        exact ⟨⟨h, x⟩, by simp, hsame, rfl⟩
      · rintro ⟨a, ha, hah, rfl⟩
        obtain ha | ha := List.mem_append.mp ha
        · exact absurd (hah.trans hsame.symm) (hother a ha)
        · rw [List.mem_singleton.mp ha]
    · rw [(hfound h').2 hsame, hr.found]
      constructor
      · rintro ⟨a, ha, hah⟩
        exact ⟨a, List.mem_append_left _ ha, hah⟩
      · rintro ⟨a, ha, hah, hax⟩
        obtain ha | ha := List.mem_append.mp ha
        · exact ⟨a, ha, hah, hax⟩
        · rw [List.mem_singleton.mp ha] at hah
          exact absurd hah hsame
  case separate =>
    rw [hanswers]
    refine List.pairwise_append.mpr ⟨hr.separate, List.pairwise_singleton _ _, fun a ha b hb => ?_⟩
    obtain rfl := List.mem_singleton.mp hb
    refine ⟨fun hax => ?_, fun hsame => absurd hsame (hother a ha)⟩
    exact absurd ((hr.used x).mpr (List.mem_map.mpr ⟨a, ha, hax⟩)) hfresh
  case free =>
    rw [hanswers]
    refine List.forall_mem_append.mpr ⟨hr.free, List.forall_mem_singleton.mpr ?_⟩
    rw [← hr.words]
    exact hfree

/-- One who has an identifier gets it again. -/
theorem Sound.again (hr : Sound reserved r) (hsome : r.found? h = some x) :
    Sound reserved { r with answers := r.answers ++ [⟨h, x⟩] } := by
  obtain ⟨g, hg, hsame, rfl⟩ := (hr.found h x).mp hsome
  constructor
  case words => exact hr.words
  case used =>
    intro y
    have hold : g.identifier ∈ r.answers.map (·.identifier) := List.mem_map.mpr ⟨g, hg, rfl⟩
    rw [List.map_append, List.mem_append, hr.used]
    refine ⟨Or.inl, fun hy => hy.elim id fun hy => ?_⟩
    rw [List.mem_singleton.mp hy]
    exact hold
  case found =>
    intro h' y
    refine (hr.found h' y).trans ⟨?_, ?_⟩
    · rintro ⟨a, ha, hah⟩
      exact ⟨a, List.mem_append_left _ ha, hah⟩
    · rintro ⟨a, ha, hah, hay⟩
      obtain ha | ha := List.mem_append.mp ha
      · exact ⟨a, ha, hah, hay⟩
      · obtain rfl := List.mem_singleton.mp ha
        exact ⟨g, hg, hsame.trans hah, hay⟩
  case separate =>
    refine List.pairwise_append.mpr ⟨hr.separate, List.pairwise_singleton _ _, fun a ha b hb => ?_⟩
    obtain rfl := List.mem_singleton.mp hb
    by_cases heq : a = g
    · subst heq
      exact iff_of_true rfl hsame
    · have hsymm : Std.Symm fun a b : Answer => a.identifier = b.identifier ↔ a.holder.Same b.holder :=
        ⟨fun a b hab => eq_comm.trans (hab.trans ⟨Holder.Same.symm, Holder.Same.symm⟩)⟩
      have hag := hr.separate.forall ha hg heq
      exact hag.trans ⟨fun h' => h'.trans hsame, fun h' => h'.trans hsame.symm⟩
  case free =>
    exact List.forall_mem_append.mpr ⟨hr.free, List.forall_mem_singleton.mpr (hr.free g hg)⟩

/-- Texts have no part in it. -/
theorem Sound.congr (hr : Sound reserved r) (hnames : r'.names = r.names) (hanswers : r'.answers = r.answers)
    (hfunctions : r'.functions.identifiers = r.functions.identifiers) : Sound reserved r' := by
  obtain ⟨names, functions, answers⟩ := r'
  obtain rfl : names = r.names := hnames
  obtain rfl : answers = r.answers := hanswers
  have hfound : ∀ h, (⟨r.names, functions, r.answers⟩ : FunctionRun).found? h = r.found? h := by
    intro h
    cases h with
    | function p => exact congrArg (Ledger.get? · p) hfunctions
    | kept l => rfl
    | once l => rfl
  exact ⟨hr.words, hr.used, fun h x => by rw [hfound, hr.found], hr.separate, hr.free⟩

theorem Sound.identify (hr : Sound reserved r) (preferred : String) : Sound reserved (r.step (.identify preferred)) := by
  cases hf : r.functions.identifier? preferred with
  | some x => simpa only [FunctionRun.step, Functions.identify, hf] using hr.again (h := .function preferred) hf
  | none =>
    have hnew := (r.names.freeIdentifier_firstFree (Functions.label preferred).name.identifier).not_taken
    simp only [FunctionRun.step, Functions.identify, hf]
    refine hr.extend (h := .function preferred) hf rfl rfl hnew (fun h' => ?_) rfl
    cases h' with
    | function q =>
      have hput := Ledger.get?_put r.functions.identifiers preferred q (r.names.allocate (Functions.label preferred)).1
      refine ⟨fun hq => hput.trans (if_pos (beq_iff_eq.mpr hq)), fun hq => hput.trans (if_neg fun he => ?_)⟩
      exact hq (beq_iff_eq.mp he)
    | kept l => exact ⟨False.elim, fun _ => rfl⟩
    | once l => exact ⟨False.elim, fun _ => rfl⟩

/-- A function is named in the same way, whether it gets a text or not. -/
theorem provide_eq (f : Functions) (names : Names) (preferred text : String) :
    (f.provide names preferred text).1 = (f.identify names preferred).1 ∧
    (f.provide names preferred text).2.2 = (f.identify names preferred).2.2 ∧
    (f.provide names preferred text).2.1.identifiers = (f.identify names preferred).2.1.identifiers := by
  unfold Functions.provide
  dsimp only
  split <;> exact ⟨rfl, rfl, rfl⟩

theorem Sound.get (hr : Sound reserved r) (l : Label) : Sound reserved (r.step (.get l)) := by
  by_cases hk : l.name.isKey = true
  · cases hf : r.names.find? l with
    | some x => simpa [FunctionRun.step, Names.get, hk, hf] using hr.again (h := .kept l) hf
    | none =>
      have hnew := (r.names.freeIdentifier_firstFree l.name.identifier).not_taken
      simp only [FunctionRun.step, Names.get, hk, hf]
      refine hr.extend (h := .kept l) hf rfl rfl hnew (fun h' => ?_) rfl
      cases h' with
      | function q => exact ⟨False.elim, fun _ => rfl⟩
      | kept m =>
        have hput := r.names.find?_allocateFor l m
        exact ⟨fun hm => hput.trans (if_pos hm), fun hm => hput.trans (if_neg hm)⟩
      | once m => exact ⟨False.elim, fun _ => rfl⟩
  · simpa [FunctionRun.step, Names.get, hk] using hr

theorem Sound.step (hr : Sound reserved r) (call : FunctionCall) : Sound reserved (r.step call) := by
  cases call with
  | provide preferred text =>
    obtain ⟨hgiven, hnames, hidentifiers⟩ := provide_eq r.functions r.names preferred text
    refine (hr.identify preferred).congr hnames ?_ hidentifiers
    simp only [FunctionRun.step, hgiven]
  | identify preferred => exact hr.identify preferred
  | procedure name code => exact hr.congr rfl rfl rfl
  | get l => exact hr.get l
  | distinct l =>
    have hnew := (r.names.freeIdentifier_firstFree l.name.identifier).not_taken
    refine hr.extend (h := .once l) rfl rfl rfl hnew (fun h' => ?_) rfl
    cases h' <;> exact ⟨False.elim, fun _ => rfl⟩

theorem same_ofHandout (a b : Handout) :
    (Answer.ofHandout a).holder.Same (Answer.ofHandout b).holder ↔ a.Agree b := by
  unfold Answer.ofHandout Handout.Agree
  cases a.kept <;> cases b.kept <;> simp [Holder.Same]

theorem sound_start (reserved : List String) (earlier : List NameRequest) : Sound reserved (start reserved earlier) := by
  have hr := NameRun.sound_after reserved earlier
  unfold start
  generalize NameRun.after reserved earlier = r at hr
  constructor
  case words => exact hr.words
  case used =>
    intro x
    rw [hr.used, List.map_map]
    rfl
  case found =>
    have hfound : ∀ h x, found? ⟨r.names, {}, r.given.map Answer.ofHandout⟩ h = some x ↔
        ∃ l, h = .kept l ∧ r.names.find? l = some x := by
      intro h x
      cases h <;> simp [found?, Functions.identifier?, Ledger.get?]
    intro h x
    rw [hfound]
    constructor
    · rintro ⟨l, rfl, hl⟩
      obtain ⟨g, hg, hkept, hlabel, hx⟩ := hr.mem_of_found hl
      refine ⟨Answer.ofHandout g, List.mem_map.mpr ⟨g, hg, rfl⟩, ?_, hx⟩
      simp only [Answer.ofHandout, hkept]
      exact hlabel
    · rintro ⟨a, ha, hsame, hx⟩
      obtain ⟨g, hg, rfl⟩ := List.mem_map.mp ha
      cases hkept : g.kept with
      | false =>
        simp only [Answer.ofHandout, hkept] at hsame
        cases h <;> exact hsame.elim
      | true =>
        cases h with
        | function p =>
          simp only [Answer.ofHandout, hkept] at hsame
          exact hsame.elim
        | once l =>
          simp only [Answer.ofHandout, hkept] at hsame
          exact hsame.elim
        | kept l =>
          simp only [Answer.ofHandout, hkept] at hsame
          exact ⟨l, rfl, hx ▸ hr.found_of_mem hg hkept hsame⟩
  case separate =>
    rw [List.pairwise_map]
    exact hr.separate.imp fun hab => hab.trans (same_ofHandout _ _).symm
  case free =>
    intro a ha
    obtain ⟨g, hg, rfl⟩ := List.mem_map.mp ha
    exact (hr.plain hg).1

theorem sound_after (reserved : List String) (earlier : List NameRequest) (calls : List FunctionCall) :
    Sound reserved (after reserved earlier calls) := by
  unfold after
  have hstart := sound_start reserved earlier
  generalize start reserved earlier = r at hstart
  induction calls generalizing r with
  | nil => exact hstart
  | cons call calls ih => exact ih _ (hstart.step call)

/-! ### Texts -/

/-- The functions have the first texts given for them, the procedures the latest ones. -/
structure Stocked (calls : List FunctionCall) (f : Functions) : Prop where
  textKeys : f.texts.keys = ((FunctionCall.provided calls).map (·.1)).eraseDups
  texts : ∀ preferred text, (FunctionCall.provided calls).lookup preferred = some text →
    ∃ x, f.identifier? preferred = some x ∧ f.texts.get? preferred = some (Functions.named x text)
  procedureKeys : f.procedures.keys = ((FunctionCall.procedures calls).map (·.1)).eraseDups
  procedures : ∀ name, f.procedures.get? name = (FunctionCall.procedures calls).reverse.lookup name

variable {calls : List FunctionCall} {f f' : Functions}

/-- A call that gives no text changes none. -/
theorem Stocked.rest (h : Stocked calls f) {call : FunctionCall} (hprovided : FunctionCall.provided [call] = [])
    (hprocedures : FunctionCall.procedures [call] = []) (htexts : f'.texts = f.texts) (hsame : f'.procedures = f.procedures)
    (hkeeps : ∀ p x, f.identifier? p = some x → f'.identifier? p = some x) : Stocked (calls ++ [call]) f' := by
  have hp : FunctionCall.provided (calls ++ [call]) = FunctionCall.provided calls := by
    rw [FunctionCall.provided, List.filterMap_append, ← FunctionCall.provided, ← FunctionCall.provided, hprovided,
      List.append_nil]
  have hq : FunctionCall.procedures (calls ++ [call]) = FunctionCall.procedures calls := by
    rw [FunctionCall.procedures, List.filterMap_append, ← FunctionCall.procedures, ← FunctionCall.procedures, hprocedures,
      List.append_nil]
  refine ⟨?_, fun p text htext => ?_, ?_, fun name => ?_⟩
  · rw [hp, htexts, h.textKeys]
  · rw [hp] at htext
    obtain ⟨x, hx, hget⟩ := h.texts p text htext
    exact ⟨x, hkeeps p x hx, htexts ▸ hget⟩
  · rw [hq, hsame, h.procedureKeys]
  · rw [hq, hsame, h.procedures]

theorem identify_keeps (f : Functions) (names : Names) (preferred : String) {p x : String} (h : f.identifier? p = some x) :
    (f.identify names preferred).2.1.identifier? p = some x := by
  unfold Functions.identify
  cases hf : f.identifier? preferred with
  | some y => exact h
  | none =>
    have hne : ¬ (preferred == p) = true := by
      intro hp
      rw [beq_iff_eq.mp hp, h] at hf
      cases hf
    exact (Ledger.get?_put f.identifiers preferred p _).trans ((if_neg hne).trans h)

theorem identify_texts (f : Functions) (names : Names) (preferred : String) :
    (f.identify names preferred).2.1.texts = f.texts ∧ (f.identify names preferred).2.1.procedures = f.procedures := by
  unfold Functions.identify
  cases f.identifier? preferred <;> exact ⟨rfl, rfl⟩

theorem Stocked.provide (h : Stocked calls f) (names : Names) (preferred text : String) :
    Stocked (calls ++ [.provide preferred text]) (f.provide names preferred text).2.1 := by
  have hp : FunctionCall.provided (calls ++ [.provide preferred text]) =
      FunctionCall.provided calls ++ [(preferred, text)] := by
    rw [FunctionCall.provided, List.filterMap_append]
    rfl
  have hq : FunctionCall.procedures (calls ++ [.provide preferred text]) = FunctionCall.procedures calls := by
    rw [FunctionCall.procedures, List.filterMap_append]
    exact List.append_nil _
  have hkeeps : ∀ p x, f.identifier? p = some x → (f.provide names preferred text).2.1.identifier? p = some x := by
    intro p x hx
    have hput := identify_keeps f names preferred hx
    rwa [Functions.identifier?, ← (provide_eq f names preferred text).2.2, ← Functions.identifier?] at hput
  have hcontains : f.texts.contains preferred = ((FunctionCall.provided calls).map (·.1)).contains preferred := by
    rw [Bool.eq_iff_iff, Ledger.contains_iff, h.textKeys]
    simp
  have htexts := f.provide_texts names preferred text
  refine ⟨?_, fun p text' htext => ?_, ?_, fun name => ?_⟩
  · rw [hp, List.map_append, List.map_singleton, eraseDups_concat, ← h.textKeys, ← hcontains, htexts]
    by_cases hold : f.texts.contains preferred = true
    · rw [if_pos hold, if_pos hold]
    · rw [if_neg hold, if_neg hold, Ledger.keys_put, if_neg hold]
  · rw [hp, List.lookup_append] at htext
    cases hold : (FunctionCall.provided calls).lookup p with
    | some first =>
      rw [hold] at htext
      obtain rfl := Option.some.inj htext
      obtain ⟨x, hx, hget⟩ := h.texts p first hold
      refine ⟨x, hkeeps p x hx, ?_⟩
      rw [htexts]
      split
      · exact hget
      · rename_i hnew
        have hne : ¬ (preferred == p) = true := by
          intro he
          rw [beq_iff_eq.mp he, Ledger.contains_eq, hget] at hnew
          exact hnew rfl
        rw [Ledger.get?_put, if_neg hne, hget]
    | none =>
      rw [hold, Option.none_or] at htext
      have hp : p = preferred := by
        by_contra hne
        simp [hne] at htext
      subst hp
      obtain rfl : text = text' := by simpa using htext
      have hnew : ¬ f.texts.contains p = true := by
        rw [hcontains, List.contains_iff_mem, List.mem_map]
        rintro ⟨entry, hentry, rfl⟩
        simpa using List.lookup_eq_none_iff.mp hold entry hentry
      refine ⟨_, f.provide_identifier names p text, ?_⟩
      rw [htexts, if_neg hnew, Ledger.get?_put, if_pos BEq.rfl]
  · rw [hq, Functions.provide_procedures, h.procedureKeys]
  · rw [hq, Functions.provide_procedures, h.procedures]

theorem Stocked.procedure (h : Stocked calls f) (name code : String) :
    Stocked (calls ++ [.procedure name code]) (f.addProcedure name code) := by
  have hp : FunctionCall.provided (calls ++ [.procedure name code]) = FunctionCall.provided calls := by
    rw [FunctionCall.provided, List.filterMap_append]
    exact List.append_nil _
  have hq : FunctionCall.procedures (calls ++ [.procedure name code]) =
      FunctionCall.procedures calls ++ [(name, code)] := by
    rw [FunctionCall.procedures, List.filterMap_append]
    rfl
  have hcontains : f.procedures.contains name = ((FunctionCall.procedures calls).map (·.1)).contains name := by
    rw [Bool.eq_iff_iff, Ledger.contains_iff, h.procedureKeys]
    simp
  refine ⟨?_, fun p text htext => ?_, ?_, fun other => ?_⟩
  · rw [hp]
    exact h.textKeys
  · rw [hp] at htext
    exact h.texts p text htext
  · rw [hq, List.map_append, List.map_singleton, eraseDups_concat, ← h.procedureKeys, ← hcontains]
    exact Ledger.keys_put f.procedures name code
  · rw [hq, List.reverse_append, List.reverse_singleton, List.singleton_append, List.lookup_cons, ← h.procedures]
    refine (Ledger.get?_put f.procedures name other code).trans ?_
    rw [BEq.comm]
    cases other == name <;> rfl

theorem Stocked.step (h : Stocked calls r.functions) (call : FunctionCall) :
    Stocked (calls ++ [call]) (r.step call).functions := by
  cases call with
  | provide preferred text => exact h.provide r.names preferred text
  | identify preferred =>
    obtain ⟨htexts, hprocedures⟩ := identify_texts r.functions r.names preferred
    exact h.rest rfl rfl htexts hprocedures fun p x hx => identify_keeps r.functions r.names preferred hx
  | procedure name code => exact h.procedure name code
  | get l =>
    have hfunctions : (r.step (.get l)).functions = r.functions := by
      unfold FunctionRun.step
      dsimp only
      split <;> rfl
    rw [hfunctions]
    exact h.rest rfl rfl rfl rfl fun _ _ hx => hx
  | distinct l => exact h.rest rfl rfl rfl rfl fun _ _ hx => hx

theorem stocked_after (reserved : List String) (earlier : List NameRequest) (calls : List FunctionCall) :
    Stocked calls (after reserved earlier calls).functions := by
  induction calls using List.reverseRecOn with
  | nil =>
    refine ⟨rfl, fun p text htext => ?_, rfl, fun _ => rfl⟩
    cases htext
  | append_singleton calls call ih =>
    rw [after, List.foldl_append, ← after]
    exact ih.step call

theorem step_holder (r : FunctionRun) (call : FunctionCall) :
    (r.step call).answers.map (·.holder) = r.answers.map (·.holder) ++ call.holder?.toList := by
  cases call with
  | provide | identify | distinct => simp [FunctionRun.step, FunctionCall.holder?]
  | procedure => simp [FunctionRun.step, FunctionCall.holder?]
  | get l =>
    by_cases hk : l.name.isKey = true <;> simp [FunctionRun.step, Names.get, FunctionCall.holder?, hk]

theorem after_holders (reserved : List String) (earlier : List NameRequest) (calls : List FunctionCall) :
    (after reserved earlier calls).answers.map (·.holder) =
      (start reserved earlier).answers.map (·.holder) ++ calls.filterMap FunctionCall.holder? := by
  induction calls using List.reverseRecOn with
  | nil => exact (List.append_nil _).symm
  | append_singleton calls call ih =>
    rw [after, List.foldl_append, ← after, List.foldl_cons, List.foldl_nil, step_holder, ih, List.filterMap_append,
      List.append_assoc]
    cases hc : call.holder? <;> simp [hc]

end FunctionRun

theorem Ledger.values_eq {κ α : Type} [BEq κ] [LawfulBEq κ] {l : Ledger κ α} (h : l.keys.Nodup) :
    l.values.map some = l.keys.map l.get? := by
  obtain ⟨es⟩ := l
  have hfind : ∀ e ∈ es, es.find? (·.1 == e.1) = some e := by
    intro e he
    obtain ⟨before, after, rfl⟩ := List.append_of_mem he
    refine List.find?_eq_some_iff_append.mpr ⟨BEq.rfl, before, after, rfl, fun a ha => ?_⟩
    rw [keys, List.map_append, List.nodup_append] at h
    simpa using h.2.2 a.1 (List.mem_map.mpr ⟨a, ha, rfl⟩) e.1 (by simp)
  rw [values, keys, List.map_map, List.map_map]
  apply List.map_congr_left
  intro e he
  simp [get?, hfind e he]

namespace Text

theorem joined_cons_append (separator start piece : String) (pieces : List String) :
    joined separator ((start ++ piece) :: pieces) = start ++ joined separator (piece :: pieces) := by
  cases pieces <;> simp [joined, String.append_assoc]

/-- The text is pieces with the key between them, and replacing the key puts the value between the same pieces. -/
theorem exists_pieces {key : String} (hkey : key ≠ "") (value text : String) : ∃ pieces ≠ [],
    text = joined key pieces ∧ substitute key value text = joined value pieces ∧
      ∀ piece ∈ pieces, ¬ key.toList <:+: piece.toList := by
  obtain ⟨d, ds, hds⟩ : ∃ d ds, key.toList = d :: ds := List.exists_cons_of_ne_nil (by simpa using hkey)
  have hpieces : ∀ (length : Nat) (cs : List Char), cs.length ≤ length → ∃ piece pieces,
      cs = (joined key (piece :: pieces)).toList ∧
        substituteFrom key.toList value.toList 0 cs = (joined value (piece :: pieces)).toList ∧
        ∀ p ∈ piece :: pieces, ¬ key.toList <:+: p.toList := by
    intro length
    -- A key at the front ends an empty piece; any other character belongs to the first piece.
    induction length with
    | zero =>
      intro cs hcs
      obtain rfl := List.eq_nil_of_length_eq_zero (Nat.le_zero.mp hcs)
      exact ⟨"", [], rfl, rfl, by simp [hds]⟩
    | succ length ih =>
      intro cs hcs
      cases cs with
      | nil => exact ⟨"", [], rfl, rfl, by simp [hds]⟩
      | cons c cs =>
        by_cases hprefix : key.toList <+: c :: cs
        · obtain ⟨rest, hrest⟩ := hprefix
          have hlength : rest.length ≤ length := by
            have heq := congrArg List.length hrest
            simp only [hds, List.length_append, List.length_cons] at heq hcs
            omega
          obtain ⟨piece, pieces, htext, hresult, hfree⟩ := ih rest hlength
          refine ⟨"", piece :: pieces, ?_, ?_, ?_⟩
          · rw [← hrest, htext]
            simp [joined]
          · rw [← hrest, hds, substituteFrom_key, ← hds, hresult]
            simp [joined]
          · simpa [hds] using hfree
        · obtain ⟨piece, pieces, htext, hresult, hfree⟩ := ih cs (by simpa using hcs)
          rw [List.forall_mem_cons] at hfree
          refine ⟨String.ofList [c] ++ piece, pieces, ?_, ?_, List.forall_mem_cons.mpr ⟨?_, hfree.2⟩⟩
          · rw [joined_cons_append, htext]
            simp
          · have hnot : key.toList.isPrefixOf (c :: cs) = false := by
              rw [Bool.eq_false_iff, ne_eq, List.isPrefixOf_iff_prefix]
              exact hprefix
            rw [joined_cons_append, substituteFrom, hnot, hresult]
            simp
          · have hstart : piece.toList <+: cs := by
              have hwhole := joined_cons_append key piece "" pieces
              rw [String.append_empty] at hwhole
              exact ⟨(joined key ("" :: pieces)).toList, by rw [htext, hwhole, String.toList_append]⟩
            rw [String.toList_append, String.toList_ofList, List.singleton_append, List.infix_cons_iff, not_or]
            exact ⟨fun hkey => hprefix (hkey.trans (List.cons_prefix_cons.mpr ⟨rfl, hstart⟩)), hfree.1⟩
  obtain ⟨piece, pieces, htext, hresult, hfree⟩ := hpieces text.toList.length text.toList (Nat.le_refl _)
  refine ⟨piece :: pieces, List.cons_ne_nil _ _, String.toList_injective htext, ?_, hfree⟩
  rw [substitute, hresult, String.ofList_toList]

end Text

namespace FunctionRun

/-- Every function has one name of its own, and its first text under it: after any run, two identifiers are the same
exactly if both were handed out for one function or are kept for one logical name, none is reserved, and everyone who
asks gets one; the functions are those that have texts, in the order in which they got the first one, and behind them
stand the procedures with their latest texts. -/
theorem functions_named_once (reserved : List String) (earlier : List NameRequest) (calls : List FunctionCall) :
    let r := after reserved earlier calls
    let provided := FunctionCall.provided calls
    let procedures := FunctionCall.procedures calls
    r.answers.map (·.holder) =
      (start reserved earlier).answers.map (·.holder) ++ calls.filterMap FunctionCall.holder? ∧
    (r.answers.Pairwise fun a b => a.identifier = b.identifier ↔ a.holder.Same b.holder) ∧
    (∀ a ∈ r.answers, a.identifier ∉ reserved) ∧
    (∃ identifierOf : String → String,
      (∀ a ∈ r.answers, ∀ p, a.holder = .function p → a.identifier = identifierOf p) ∧
      r.functions.values.map some =
        ((provided.map (·.1)).eraseDups.map fun p => (provided.lookup p).map (Functions.named (identifierOf p))) ++
        (procedures.map (·.1)).eraseDups.map fun name => procedures.reverse.lookup name) ∧
    ∀ identifier text, ∃ pieces ≠ [], text = Text.joined functionMark pieces ∧
      Functions.named identifier text = Text.joined identifier pieces ∧
      ∀ piece ∈ pieces, ¬ functionMark.toList <:+: piece.toList := by
  intro r provided procedures
  have hsound : Sound reserved r := sound_after reserved earlier calls
  have hstocked : Stocked calls r.functions := stocked_after reserved earlier calls
  have htexts : r.functions.texts.keys.Nodup := hstocked.textKeys ▸ nodup_eraseDups _
  have hprocedures : r.functions.procedures.keys.Nodup := hstocked.procedureKeys ▸ nodup_eraseDups _
  refine ⟨after_holders reserved earlier calls, hsound.separate, hsound.free, ?_,
    Text.exists_pieces (by decide)⟩
  refine ⟨fun p => (r.functions.identifier? p).getD "", fun a ha p hp => ?_, ?_⟩
  · have hfound : r.functions.identifier? p = some a.identifier :=
      (hsound.found (.function p) a.identifier).mpr ⟨a, ha, by rw [hp]; rfl, rfl⟩
    simp [hfound]
  · rw [Functions.values, List.map_append, Ledger.values_eq htexts, Ledger.values_eq hprocedures, hstocked.textKeys,
      hstocked.procedureKeys]
    congr 1
    · apply List.map_congr_left
      intro p hp
      have hmem : p ∈ provided.map (·.1) := by simpa using hp
      cases hlookup : provided.lookup p with
      | some text =>
        obtain ⟨x, hx, hget⟩ := hstocked.texts p text hlookup
        simp [hget, hx]
      | none =>
        obtain ⟨entry, hentry, rfl⟩ := List.mem_map.mp hmem
        simpa using List.lookup_eq_none_iff.mp hlookup entry hentry
    · exact List.map_congr_left fun name _ => hstocked.procedures name

end FunctionRun

end BlockScript
