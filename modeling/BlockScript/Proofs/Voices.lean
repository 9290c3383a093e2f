import BlockScript.Proofs.Phrases

namespace BlockScript

/-- All identifiers that a session keeps or hands out are names with the property. -/
structure Session.Named (N : String → Prop) (s : Session) : Prop where
  plain : s.Plain
  free : ∀ w, w ∉ s.names.reserved → N w
  names : ∀ l x, s.names.find? l = some x → N x
  functions : ∀ p x, s.functions.identifier? p = some x → N x

namespace Session.Named

variable {N : String → Prop} {s t : Session}

theorem of_same (hs : s.Named N) (hn : t.names = s.names) (hf : t.functions.identifiers = s.functions.identifiers) :
    t.Named N := by
  refine ⟨(Grows.of_same hn hf).2 hs.plain, ?_, ?_, fun p x hx => hs.functions p x ?_⟩
  · rw [hn]
    exact hs.free
  · rw [hn]
    exact hs.names
  · rw [Functions.identifier?, hf] at hx
    exact hx

theorem allocate (hs : s.Named N) (label : Label) : N (s.names.allocate label).1 :=
  hs.free _ fun hk => (s.names.freeIdentifier_firstFree label.name.identifier).not_taken (Or.inr hk)

theorem identifier (hs : s.Named N) (realm : Realm) (name : Value) : ((Run.identifier realm name).run s).2.Named N := by
  have hplain := (identifier_within realm name s).2 hs.plain
  obtain hrun | ⟨x, -, hrun⟩ | ⟨-, -, r, hrun⟩ := Run.run_identifier_cases realm name s
  · rw [hrun]
    exact hs
  · rw [hrun]
    exact hs
  · rw [hrun] at hplain ⊢
    refine ⟨hplain, hs.free, fun l x hx => ?_, hs.functions⟩
    replace hx := (s.names.find?_allocateFor _ l).symm.trans hx
    split at hx
    · cases hx
      exact hs.allocate _
    · exact hs.names l x hx

theorem provide (hs : s.Named N) (preferred text : String) : ((Run.provide preferred text).run s).2.Named N := by
  have hplain := (provide_within preferred text s).2 hs.plain
  rw [Run.run_provide] at hplain ⊢
  split
  · rename_i hopen
    rw [if_pos hopen] at hplain
    obtain ⟨hn, hf⟩ | ⟨-, hn, hf⟩ := s.functions.provide_cases s.names preferred text
    · exact hs.of_same (by simp [hn]) (by simp [hf])
    · refine ⟨hplain, ?_, ?_, fun p x hx => ?_⟩
      · rw [recordIf_names, recordIf_names]
        dsimp only
        rw [hn]
        exact hs.free
      · rw [recordIf_names, recordIf_names]
        dsimp only
        rw [hn]
        exact hs.names
      · rw [recordIf_functions, recordIf_functions, Functions.identifier?] at hx
        dsimp only at hx
        rw [hf, Ledger.get?_put] at hx
        split at hx
        · cases hx
          exact hs.allocate _
        · exact hs.functions p x hx
  · exact hs

end Session.Named

/-- The lines that bring in what rules need. -/
def importLines : List String :=
  ["import math", "import random", "import time", "from machine import Pin", "from machine import PWM",
    "from machine import ADC", "from machine import UART", "from machine import time_pulse_us",
    "from micropython import const"]

/-- What a session keeps: names with the property, and if `H` holds, texts that speak of such names only. -/
structure Session.Voices (N : String → Prop) (H : Prop) (s : Session) : Prop where
  named : s.Named N
  imports : ∀ code ∈ (s.fragments .imports).values, code ∈ importLines
  fragments : H → ∀ part, part ≠ .imports → ∀ code ∈ (s.fragments part).values, Voiced N code
  functions : H → ∀ code ∈ s.functions.values, Voiced N code

/-- What a run gives where it succeeds, with the voices that a session has. -/
def Run.Tells {α : Type} (N : String → Prop) (H : Prop) (r : Run α) (P : α → Prop) : Prop :=
  ∀ ⦃s t : Session⦄ ⦃a : α⦄, r.run s = (.ok a, t) → s.Voices N H → P a ∧ t.Voices N H

namespace Run.Tells

variable {N : String → Prop} {H : Prop} {α β : Type} {P : α → Prop} {r : Run α}

theorem imp {Q : α → Prop} (h : Tells N H r P) (hi : ∀ a, P a → Q a) : Tells N H r Q :=
  fun _ _ _ hr hs => (h hr hs).imp_left (hi _)

theorem pure {a : α} (h : P a) : Tells N H (pure a : Run α) P := by
  intro s t b hr hs
  obtain ⟨rfl, rfl⟩ := ok_of_run_pure hr
  exact ⟨h, hs⟩

theorem throw (f : Fault) : Tells N H (throw f : Run α) P :=
  fun _ _ _ hr _ => (not_ok_of_run_throw hr).elim

theorem bind {f : α → Run β} {Q : β → Prop} (hr : Tells N H r P) (hf : ∀ a, P a → Tells N H (f a) Q) :
    Tells N H (r >>= f) Q := by
  intro s t b h hs
  obtain ⟨a, u, ha, hb⟩ := ok_of_run_bind h
  obtain ⟨hP, hu⟩ := hr ha hs
  exact hf a hP hb hu

theorem mapM {f : α → Run β} {Q : β → Prop} (l : List α) (hf : ∀ a ∈ l, Tells N H (f a) Q) :
    Tells N H (l.mapM f) fun bs => bs.length = l.length ∧ ∀ b ∈ bs, Q b := by
  induction l with
  | nil => exact pure ⟨rfl, List.forall_mem_nil _⟩
  | cons a l ih =>
    rw [List.forall_mem_cons] at hf
    rw [List.mapM_cons]
    refine hf.1.bind fun b hb => (ih hf.2).bind fun bs hbs => pure ?_
    exact ⟨congrArg Nat.succ hbs.1, List.forall_mem_cons.mpr ⟨hb, hbs.2⟩⟩

theorem forM {f : α → Run PUnit} (l : List α) (hf : ∀ a ∈ l, Tells N H (f a) fun _ => True) :
    Tells N H (l.forM f) fun _ => True := by
  induction l with
  | nil => exact pure trivial
  | cons a l ih =>
    rw [List.forall_mem_cons] at hf
    exact hf.1.bind fun _ _ => ih hf.2

/-- A run that changes neither names nor texts. -/
theorem of_same (hP : ∀ a, P a) (h : ∀ s, (r.run s).2.names = s.names ∧ (r.run s).2.functions = s.functions ∧
    (r.run s).2.fragments = s.fragments) : Tells N H r P := by
  intro s t a hr hs
  obtain ⟨hn, hf, hfragments⟩ := h s
  rw [hr] at hn hf hfragments
  refine ⟨hP a, hs.named.of_same hn (congrArg _ hf), ?_, ?_, ?_⟩
  · rw [hfragments]
    exact hs.imports
  · rw [hfragments]
    exact hs.fragments
  · rw [hf]
    exact hs.functions

end Run.Tells

open Run

section Steps

variable {N : String → Prop} {H E : Prop}

theorem record_tells (r : LogRecord) : Tells N H (record r) fun _ => True :=
  .of_same (fun _ => trivial) fun _ => ⟨rfl, rfl, rfl⟩

theorem checkOpen_tells : Tells N H checkOpen fun _ => True := by
  refine .of_same (fun _ => trivial) fun s => ?_
  rw [run_checkOpen]
  exact ⟨rfl, rfl, rfl⟩

theorem warn_tells (id tag : String) (text : Option String) : Tells N H (Run.warn id tag text) fun _ => True :=
  .of_same (fun _ => trivial) fun _ => ⟨rfl, rfl, rfl⟩

theorem claimPin_tells (id : String) (pin : Value) (task : PinTask) (tag : String) :
    Tells N H (Run.claimPin id pin task tag) fun _ => True := by
  refine .of_same (fun _ => trivial) fun s => ?_
  rw [run_claimPin]
  split <;> exact ⟨rfl, rfl, rfl⟩

theorem identifier_tells (realm : Realm) (name : Value) : Tells N H (identifier realm name) (Told N E) := by
  intro s t x h hs
  have hnamed := hs.named.identifier realm name
  obtain hrun | ⟨y, hy, hrun⟩ | ⟨-, -, r, hrun⟩ := run_identifier_cases realm name s
  · rw [hrun] at h
    cases h
  · rw [hrun] at h
    cases h
    exact ⟨.name (hs.named.plain.names _ x hy).1 (hs.named.names _ x hy), hs⟩
  · rw [hrun] at h hnamed
    cases h
    refine ⟨.name (hs.named.plain.allocate _).1 (hs.named.allocate _), hnamed, ?_, ?_, hs.functions⟩
    · exact hs.imports
    · exact hs.fragments

theorem distinctIdentifier_tells (realm : Realm) (name : Value) :
    Tells N H (distinctIdentifier realm name) (Told N E) := by
  intro s t x h hs
  have hplain := ((Session.grows_steps.distinct realm name).of_run h).2 hs.named.plain
  rw [run_distinctIdentifier] at h
  cases h
  refine ⟨.name (hs.named.plain.allocate _).1 (hs.named.allocate _), ⟨hplain, ?_, ?_, ?_⟩, ?_, ?_, hs.functions⟩
  · exact hs.named.free
  · exact hs.named.names
  · exact hs.named.functions
  · exact hs.imports
  · exact hs.fragments

theorem addFragment_tells {part : Section} {tag : Value} {code : String} {overwrite : Bool}
    (hi : part = .imports → code ∈ importLines) (hc : part ≠ .imports → H → Voiced N code) :
    Tells N H (addFragment part tag code overwrite) fun _ => True := by
  intro s t a h hs
  obtain ⟨hnames, hfunctions, hvalues⟩ := ok_of_run_addFragment h
  refine ⟨trivial, hs.named.of_same hnames (by rw [hfunctions]), fun b hb => ?_, fun hH other hother b hb => ?_, ?_⟩
  · obtain ⟨hpart, rfl⟩ | hb := hvalues _ b hb
    · exact hi hpart.symm
    · exact hs.imports b hb
  · obtain ⟨rfl, rfl⟩ | hb := hvalues _ b hb
    · exact hc hother hH
    · exact hs.fragments hH other hother b hb
  · rw [hfunctions]
    exact hs.functions

theorem importModule_tells {source : String} (h : "import " ++ source ∈ importLines) :
    Tells N H (importModule source) fun _ => True :=
  addFragment_tells (fun _ => h) fun hne => absurd rfl hne

theorem importFrom_tells {source name : String} (h : "from " ++ source ++ " import " ++ name ∈ importLines) :
    Tells N H (importFrom source name) fun _ => True :=
  addFragment_tells (fun _ => h) fun hne => absurd rfl hne

theorem declare_tells {tag code : String} {overwrite : Bool} (h : H → Voiced N code) :
    Tells N H (declare tag code overwrite) fun _ => True :=
  addFragment_tells (fun hne => by cases hne) fun _ => h

theorem addSetup_tells {tag code : String} {overwrite : Bool} (h : H → Voiced N code) :
    Tells N H (addSetup tag code overwrite) fun _ => True :=
  addFragment_tells (fun hne => by cases hne) fun _ => h

theorem addVariable_tells {name : Value} {code : String} {overwrite : Bool} (h : H → Voiced N code) :
    Tells N H (addVariable name code overwrite) fun _ => True :=
  addFragment_tells (fun hne => by cases hne) fun _ => h

theorem addProcedure_tells {name code : String} (h : H → Voiced N code) :
    Tells N H (addProcedure name code) fun _ => True := by
  intro s t a hr hs
  rw [run_addProcedure] at hr
  split at hr
  · cases hr
    refine ⟨trivial, hs.named.of_same rfl rfl, hs.imports, hs.fragments, fun hH b hb => ?_⟩
    obtain hb | hb := List.mem_append.mp hb
    · exact hs.functions hH b (List.mem_append_left _ hb)
    · obtain rfl | hb := Ledger.mem_values_put hb
      · exact h hH
      · exact hs.functions hH b (List.mem_append_right _ hb)
  · cases hr

theorem provide_tells {preferred text : String}
    (h : H → ∀ x, IsIdentifier x → N x → Voiced N (Functions.named x text)) :
    Tells N H (Run.provide preferred text) (Told N E) := by
  intro s t x hr hs
  have hnamed := hs.named.provide preferred text
  rw [hr] at hnamed
  have hname := (provide_gives preferred text).gives hr hs.named.plain (.refl t)
  have hN := hnamed.functions _ x hname.1
  refine ⟨.name hname.2.1 hN, ?_⟩
  rw [run_provide] at hr
  split at hr
  · cases hr
    refine ⟨hnamed, ?_, ?_, ?_⟩
    · rw [Session.recordIf_fragments, Session.recordIf_fragments]
      exact hs.imports
    · rw [Session.recordIf_fragments, Session.recordIf_fragments]
      exact hs.fragments
    · rw [Session.recordIf_functions, Session.recordIf_functions]
      intro hH b hb
      obtain rfl | hb := Functions.mem_values_provide hb
      · exact h hH _ hname.2.1 hN
      · exact hs.functions hH b hb
  · cases hr

end Steps

namespace FunctionText

/-- The words in the lines of a function. -/
def words (f : FunctionText) : List String :=
  f.lines.flatMap fun line => spokenNames line.2

variable {N : String → Prop}

theorem heard_repeated (depth : Nat) (r : NameReader) (hr : r = .idle) :
    r.heard (Text.repeated "    " depth).toList = [] ∧ r.behind (Text.repeated "    " depth).toList = .idle := by
  subst hr
  induction depth with
  | zero => exact ⟨rfl, rfl⟩
  | succ depth ih =>
    rw [Text.repeated, String.toList_append, NameReader.heard_append, NameReader.behind_append]
    exact ih

theorem spokenNames_repeated (depth : Nat) (line : String) :
    spokenNames (Text.repeated "    " depth ++ line) = spokenNames line := by
  obtain ⟨hheard, hbehind⟩ := heard_repeated depth .idle rfl
  rw [spokenNames_eq, spokenNames_eq, String.toList_append, NameReader.heard_append, NameReader.behind_append, hheard,
    hbehind, List.nil_append]

/-- The first line of a function, under its name. -/
theorem voiced_header {x args : String} (hx : IsIdentifier x) (hN : N x)
    (h : ∀ w ∈ spokenNames ("def " ++ functionMark ++ "(" ++ args ++ "):"), N w) :
    Voiced N ("def " ++ x ++ "(" ++ args ++ "):") := by
  have hassoc : ∀ y : String, "def " ++ y ++ "(" ++ args ++ "):" = "def " ++ (y ++ ("(" ++ args ++ "):")) := by
    intro y
    simp only [String.append_assoc]
  have hmark : NameReader.idle.behind ("def " ++ functionMark).toList = .idle :=
    NameReader.eq_idle (by decide)
  have hrest : Voiced N ("(" ++ args ++ "):") := by
    intro w hw
    refine Or.inr (h w ?_)
    rw [hassoc, ← String.append_assoc, spokenNames_eq, String.toList_append, NameReader.heard_append,
      NameReader.behind_append, hmark, List.append_assoc, ← spokenNames_eq]
    exact List.mem_append_right _ hw
  rw [hassoc]
  have hparted : Parted ("(" ++ args ++ "):") := (Parted.append (by decide) args).append "):"
  have hname : Told N True x := .name hx hN
  exact Opens.voiced_append (by decide) (hname.voiced_append hrest hparted)

theorem Proper.voiced {f : FunctionText} (hf : f.Proper) {x : String} (hx : IsIdentifier x) (hN : N x)
    (h : ∀ w ∈ f.words, N w) : Voiced N (Functions.named x (body f.lines)) := by
  obtain ⟨args, ls, -, hlines, -, -, -, -, hnamed⟩ := hf.named
  have h : ∀ line ∈ f.lines, ∀ w ∈ spokenNames line.2, N w := fun line hline w hw =>
    h w (List.mem_flatMap.mpr ⟨line, hline, hw⟩)
  rw [hlines, List.forall_mem_cons] at h
  rw [hnamed]
  refine (voiced_header hx hN h.1).append_line fun w hw => ?_
  rw [body, spokenNames, Text.readLines_joined lineNames_passesBlanks] at hw
  obtain ⟨names, hnames, hw⟩ := List.mem_flatten.mp hw
  obtain ⟨code, hcode, hnames⟩ := List.mem_flatMap.mp hnames
  obtain ⟨line, hline, rfl⟩ := List.mem_map.mp hcode
  refine Or.inr (h.2 line hline w ?_)
  rw [← spokenNames_repeated line.1 line.2, spokenNames]
  exact List.mem_flatten.mpr ⟨names, hnames, hw⟩

end FunctionText

/-- The functions that the rule of a kind may ask for. -/
def BlockKind.functions : BlockKind → List FunctionText
  | .property => [.isPrime]
  | .randomWhole => [.randomWhole]
  | .counting => [.upRange, .downRange]
  | .rescale => [.mapRange]
  | .servoWrite => [.servoDuty]
  | .stepperMove => [.stepperMove]
  | _ => []

theorem BlockKind.functions_subset (kind : BlockKind) : kind.functions ⊆ FunctionText.all := by
  cases kind <;> simp [functions, FunctionText.all]

end BlockScript
