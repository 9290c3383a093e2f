import BlockScript.Proofs.Circularity
import BlockScript.Proofs.Forests
import BlockScript.Proofs.Naming

namespace BlockScript

variable {n : Nat}

namespace Workspace

variable {w : Workspace n}

theorem addNew_apart {old : List Value} (h : old.Pairwise fun u v => (u == v) = false) (new : List Value) :
    (addNew old new).Pairwise fun u v => (u == v) = false := by
  induction new generalizing old with
  | nil => exact h
  | cons v new ih =>
    show (addNew (if old.contains v then old else old ++ [v]) new).Pairwise _
    apply ih
    by_cases hv : old.contains v = true
    · rw [if_pos hv]
      exact h
    · rw [if_neg hv]
      refine List.pairwise_append.mpr ⟨h, List.pairwise_singleton _ _, fun u hu x hx => ?_⟩
      obtain rfl := List.mem_singleton.mp hx
      rw [Bool.eq_false_iff]
      intro hux
      exact hv (List.contains_iff_exists_mem_beq.mpr ⟨u, hu, BEq.symm hux⟩)

/-- No two variables in use are the same. -/
theorem allVariables_apart {names : List Value} (h : w.allVariables = .ok names) :
    names.Pairwise fun u v => (u == v) = false := by
  refine foldlM_keeps (c := names) (P := List.Pairwise fun u v => (u == v) = false) ?_ .nil h
  intro i _ old next hold hnext
  obtain ⟨new, -, hnext⟩ := ok_of_bind hnext
  obtain rfl : addNew old new = next := by cases hnext; rfl
  exact addNew_apart hold new

/-- The variables that kinds are inferred for are those in use, in the order of first use. -/
theorem infer_variables {typed : Typed n} (h : w.infer = .ok typed) :
    w.allVariables = .ok typed.found.kinds.keys := by
  simp only [infer] at h
  obtain ⟨p, -, h⟩ := ok_of_bind h
  obtain ⟨a, -, h⟩ := ok_of_bind h
  obtain ⟨names, hnames, h⟩ := ok_of_bind h
  obtain ⟨_, -, h⟩ := ok_of_bind h
  obtain ⟨found, -, h⟩ := ok_of_bind h
  split at h
  · cases h
  · cases h
    rw [hnames, Ledger.keys, List.map_map]
    exact congrArg Except.ok (List.map_id _).symm

theorem hasArguments_of_isProcedure {b : Block n} (h : isProcedure b = true) : b.hasArguments = true := by
  have hall : ∀ e ∈ BlockKind.table, (e.2 = .procedure true ∨ e.2 = .procedure false) →
      "procedures_def".toList.isPrefixOf e.1.toList = true := by decide +kernel
  unfold isProcedure at h
  split at h
  · rename_i returns hkind
    obtain ⟨l, l', htable, -⟩ := List.lookup_eq_some_iff.mp hkind
    apply hall (b.type, .procedure returns)
    · rw [htable]
      simp
    · cases returns <;> simp
  · cases h

theorem argument_covered {names : List Value} (h : w.allVariables = .ok names) {i : Fin n} (hi : w.Reachable i)
    (hproc : isProcedure (w.block i) = true) {arguments : List Value} (hargs : (w.block i).arguments = .ok arguments)
    {v : Value} (hv : v ∈ arguments) : ∃ u ∈ names, (u == v) = true := by
  obtain ⟨new, hnew, hcover⟩ := allVariables_covers_named h (mem_allBlocks_iff.mpr hi)
  apply hcover
  simp only [Block.variableNames, hasArguments_of_isProcedure hproc, hargs] at hnew
  obtain rfl := Except.ok.inj hnew
  exact List.mem_append_right _ hv

/-- Where the blocks say which variables they mean, all that the code of a block speaks of is in use. -/
theorem mentions_covered {names : List Value} (h : w.allVariables = .ok names)
    (hvars : ∀ i, w.Reachable i → (w.block i).usesVariable → (w.block i).namedVariable?.isSome) {i : Fin n}
    (hi : w.Reachable i) {v : Value} (hv : w.diagram.Mentions i v) : ∃ u ∈ names, (u == v) = true := by
  cases hv with
  | own default huse =>
    obtain ⟨v, hv⟩ := Option.isSome_iff_exists.mp (hvars i hi huse)
    have hfield : (w.block i).field? Block.variableField = some v := (Option.filter_eq_some_iff.mp hv).1
    rw [Block.fieldD, show (w.diagram.block i).field? Block.variableField = some v from hfield]
    exact allVariables_covers h (mem_allBlocks_iff.mpr hi) hv
  | argument hproc hargs hmem => exact argument_covered h hi hproc hargs hmem
  | assigned hbody hj huse hname =>
    have hj' := (hi.child (Diagram.mem_childrenOf (p := .slot "STACK") hbody)).below (Diagram.mem_descendants_iff.mp hj)
    exact allVariables_covers h (mem_allBlocks_iff.mpr hj') hname

end Workspace

theorem Fragments.add_new {κ : Type} [BEq κ] {f : Fragments κ} {tag : κ} (h : f.contains tag = false) (code : String)
    (overwrite : Bool) : f.add tag code overwrite = (true, ⟨f.entries ++ [(tag, code)]⟩) := by
  have hget : f.get? tag = none := by
    rw [Ledger.contains_eq] at h
    exact Option.isNone_iff_eq_none.mp (Option.isSome_eq_false_iff.mp h)
  rw [Fragments.add, hget, ← Ledger.entries_put_new h]

theorem IsIdentifier.blank_not_mem {x : String} (h : IsIdentifier x) : ' ' ∉ x.toList := by
  obtain ⟨c, cs, hx, hc, hcs⟩ := h
  rw [hx, List.mem_cons]
  rintro (rfl | hmem)
  · obtain hc | hc := hc
    · exact absurd hc (by decide)
    · exact absurd hc (by decide)
  · exact absurd (hcs ' ' hmem) (by decide)

theorem IsIdentifier.takeWhile_line {x : String} (h : IsIdentifier x) (rest : List Char) :
    (x.toList ++ ' ' :: rest).takeWhile (· ≠ ' ') = x.toList := by
  rw [List.takeWhile_append_of_pos]
  · simp
  · intro c hc
    exact decide_eq_true fun heq => h.blank_not_mem (heq ▸ hc)

/-- A line starts with the identifier that it is for, and with no other one. -/
theorem IsIdentifier.begins_iff {x y : String} (hx : IsIdentifier x) (hy : IsIdentifier y) (rest : String) :
    (x ++ " = ").toList.isPrefixOf (y ++ " = " ++ rest).toList = true ↔ x = y := by
  rw [List.isPrefixOf_iff_prefix]
  constructor
  · rintro ⟨tail, heq⟩
    have heq' : x.toList ++ ' ' :: ('=' :: ' ' :: tail) = y.toList ++ ' ' :: ('=' :: ' ' :: rest.toList) := by
      simpa using heq
    apply String.toList_inj.mp
    rw [← hx.takeWhile_line, heq', hy.takeWhile_line]
  · rintro rfl
    exact ⟨rest.toList, by simp⟩

theorem filter_eq_singleton {α β : Type} [DecidableEq β] {f : α → β} {l : List α} (h : (l.map f).Nodup) {a : α}
    (ha : a ∈ l) : l.filter (fun b => f a = f b) = [a] := by
  induction l with
  | nil => cases ha
  | cons b l ih =>
    rw [List.map_cons, List.nodup_cons] at h
    obtain rfl | ha := List.mem_cons.mp ha
    · have hnone : l.filter (fun b => f a = f b) = [] := by
        rw [List.filter_eq_nil_iff]
        intro b hb heq
        exact h.1 (of_decide_eq_true heq ▸ List.mem_map_of_mem hb)
      rw [List.filter_cons_of_pos (by simp), hnone]
    · rw [List.filter_cons_of_neg, ih h.2 ha]
      intro heq
      exact h.1 (of_decide_eq_true heq ▸ List.mem_map_of_mem ha)

namespace Session

/-- The identifier of a variable. -/
def identifier? (s : Session) (v : Value) : Option String :=
  s.names.find? ⟨.variable, v⟩

def spelling (s : Session) (v : Value) : String :=
  (s.identifier? v).getD ""

theorem identifier?_congr (s : Session) {u v : Value} (h : (u == v) = true) : s.identifier? u = s.identifier? v := by
  apply Ledger.get?_congr
  show ((Realm.variable == Realm.variable) && (u == v)) = true
  rw [h]
  rfl

theorem variableName_new {s t : Session} {v : Value} {x : String}
    (hrun : (Run.variableName v).run s = (.ok x, t)) (hnone : s.identifier? v = none) :
    v.isKey = true ∧ x = (s.names.allocateFor ⟨.variable, v⟩).1 ∧
      ∃ r, t = { s with names := (s.names.allocateFor ⟨.variable, v⟩).2 }.record r := by
  rw [Run.variableName] at hrun
  obtain hcase | ⟨y, hy, -⟩ | ⟨hkey, -, r, hcase⟩ := Run.run_identifier_cases .variable v s
  · rw [hcase] at hrun
    cases hrun
  · rw [identifier?, hy] at hnone
    cases hnone
  · rw [hcase] at hrun
    obtain ⟨hx, ht⟩ := Prod.mk.inj hrun
    exact ⟨hkey, (Except.ok.inj hx).symm, r, ht.symm⟩

theorem addFragment_new {s t : Session} {part : Section} {tag : Value} {code : String} {overwrite changed : Bool}
    (hrun : (Run.addFragment part tag code overwrite).run s = (.ok changed, t)) (hopen : s.isOpen = true)
    (hnew : (s.fragments part).contains tag = false) :
    ∃ r, t = (s.setFragments ⟨(s.fragments part).entries ++ [(tag, code)]⟩ part).record r := by
  rw [Run.run_addFragment, if_pos hopen, Fragments.add_new hnew] at hrun
  exact ⟨_, (Prod.mk.inj hrun).2.symm⟩

/-- These variables are declared, each with one line in this order and under an identifier of its own, and nothing else
has a name. -/
structure Declares (s : Session) (entries : List (Value × ValueKind)) : Prop where
  isOpen : s.isOpen = true
  lines : s.globals.entries = entries.map fun e => (e.1, s.spelling e.1 ++ " = " ++ e.2.initializer)
  used : s.names.used = (entries.map fun e => s.spelling e.1).reverse
  distinct : s.names.used.Nodup
  named : ∀ e ∈ entries, e.1.isKey = true ∧ s.identifier? e.1 = some (s.spelling e.1)
  only : ∀ l x, s.names.find? l = some x → l.realm = .variable ∧ ∃ e ∈ entries, (e.1 == l.name) = true
  functions : ∀ p, s.functions.identifier? p = none

theorem Declares.undeclared {s : Session} {entries : List (Value × ValueKind)} (h : s.Declares entries) {v : Value}
    (hv : ∀ e ∈ entries, (e.1 == v) = false) : s.identifier? v = none := by
  cases hx : s.identifier? v with
  | none => rfl
  | some x =>
    obtain ⟨-, e, he, hev⟩ := h.only _ x hx
    rw [hv e he] at hev
    cases hev

/-- A session in which one more variable has an identifier and a line. -/
def withVariable (s : Session) (v : Value) (kind : ValueKind) (records : List LogRecord) : Session :=
  { s with
    names := (s.names.allocateFor ⟨.variable, v⟩).2
    globals := ⟨s.globals.entries ++ [(v, (s.names.allocateFor ⟨.variable, v⟩).1 ++ " = " ++ kind.initializer)]⟩
    log := s.log ++ records }

theorem withVariable_identifier? (s : Session) (v : Value) (kind : ValueKind) (records : List LogRecord) (u : Value) :
    (s.withVariable v kind records).identifier? u =
      if (v == u) = true then some (s.names.allocateFor ⟨.variable, v⟩).1 else s.identifier? u :=
  s.names.find?_allocateFor ⟨.variable, v⟩ ⟨.variable, u⟩

theorem Declares.withVariable {s : Session} {entries : List (Value × ValueKind)} (h : s.Declares entries)
    {e : Value × ValueKind} (hkey : e.1.isKey = true) (hnew : ∀ d ∈ entries, (d.1 == e.1) = false)
    (records : List LogRecord) : (s.withVariable e.1 e.2 records).Declares (entries ++ [e]) := by
  have hself : (s.withVariable e.1 e.2 records).identifier? e.1 = some (s.names.allocateFor ⟨.variable, e.1⟩).1 := by
    rw [withVariable_identifier?, if_pos BEq.rfl]
  have hspell : (s.withVariable e.1 e.2 records).spelling e.1 = (s.names.allocateFor ⟨.variable, e.1⟩).1 := by
    rw [spelling, hself]
    rfl
  have hold : ∀ d ∈ entries, (s.withVariable e.1 e.2 records).identifier? d.1 = s.identifier? d.1 := by
    intro d hd
    rw [withVariable_identifier?, if_neg]
    rw [BEq.comm, hnew d hd]
    exact Bool.false_ne_true
  have hspells : ∀ d ∈ entries, (s.withVariable e.1 e.2 records).spelling d.1 = s.spelling d.1 := by
    intro d hd
    rw [spelling, hold d hd]
    rfl
  have hused : (s.withVariable e.1 e.2 records).names.used =
      (s.names.allocateFor ⟨.variable, e.1⟩).1 :: s.names.used := rfl
  constructor
  · exact h.isOpen
  · show s.globals.entries ++ _ = _
    rw [List.map_append, List.map_singleton, hspell, h.lines]
    congr 1
    exact List.map_congr_left fun d hd => by rw [hspells d hd]
  · rw [hused, List.map_append, List.map_singleton, hspell, List.reverse_append, h.used]
    congr 2
    exact List.map_congr_left fun d hd => (hspells d hd).symm
  · rw [hused, List.nodup_cons]
    refine ⟨fun hmem => ?_, h.distinct⟩
    exact (s.names.freeIdentifier_firstFree _).not_taken (Or.inl hmem)
  · intro d hd
    obtain hd | hd := List.mem_append.mp hd
    · rw [hold d hd, hspells d hd]
      exact h.named d hd
    · obtain rfl := List.mem_singleton.mp hd
      exact ⟨hkey, hself.trans (congrArg some hspell.symm)⟩
  · intro l x hx
    replace hx := (s.names.find?_allocateFor ⟨.variable, e.1⟩ l).symm.trans hx
    by_cases hl : ((⟨.variable, e.1⟩ : Label) == l) = true
    · obtain ⟨hrealm, hname⟩ := Bool.and_eq_true_iff.mp hl
      exact ⟨(beq_iff_eq.mp hrealm).symm, e, by simp, hname⟩
    · rw [if_neg hl] at hx
      obtain ⟨hrealm, d, hd, hname⟩ := h.only l x hx
      exact ⟨hrealm, d, List.mem_append_left _ hd, hname⟩
  · exact h.functions

theorem Declares.lines_lack {s : Session} {entries : List (Value × ValueKind)} (h : s.Declares entries) {v : Value}
    (hv : ∀ e ∈ entries, (e.1 == v) = false) : s.globals.contains v = false := by
  rw [Ledger.contains, h.lines, List.any_eq_false]
  intro line hline
  obtain ⟨e, he, rfl⟩ := List.mem_map.mp hline
  rw [hv e he]
  exact Bool.false_ne_true

/-- Declaring a new variable names it and adds its line. -/
theorem Declares.run_declareVariable {s t : Session} {entries : List (Value × ValueKind)} (h : s.Declares entries)
    {e : Value × ValueKind} (hnew : ∀ d ∈ entries, (d.1 == e.1) = false)
    (hrun : (Generator.declareVariable e.1 e.2).run s = (.ok ⟨⟩, t)) :
    e.1.isKey = true ∧ ∃ records, t = s.withVariable e.1 e.2 records := by
  obtain ⟨x, u, hname, hrun⟩ := Run.ok_of_run_bind hrun
  obtain ⟨_, _, hline, hrun⟩ := Run.ok_of_run_bind hrun
  obtain ⟨-, rfl⟩ := Run.ok_of_run_pure hrun
  obtain ⟨hkey, rfl, r, rfl⟩ := variableName_new hname (h.undeclared hnew)
  unfold Run.addVariable at hline
  obtain ⟨r', rfl⟩ := addFragment_new hline h.isOpen (h.lines_lack hnew)
  refine ⟨hkey, [r, r'], ?_⟩
  simp [Session.withVariable, Session.record, Session.setFragments, Session.fragments]

/-- Declaring variables one after the other gives each its line. -/
theorem Declares.run_forM {s t : Session} {entries todo : List (Value × ValueKind)} (h : s.Declares entries)
    (hapart : (entries ++ todo).Pairwise fun d e => (d.1 == e.1) = false)
    (hrun : (todo.forM fun e => Generator.declareVariable e.1 e.2).run s = (.ok ⟨⟩, t)) :
    t.Declares (entries ++ todo) ∧ t.kinds = s.kinds := by
  induction todo generalizing s entries with
  | nil =>
    obtain ⟨-, rfl⟩ := Run.ok_of_run_pure hrun
    rw [List.append_nil]
    exact ⟨h, rfl⟩
  | cons e todo ih =>
    obtain ⟨_, u, hfirst, hrun⟩ := Run.ok_of_run_bind hrun
    have hnew : ∀ d ∈ entries, (d.1 == e.1) = false :=
      fun d hd => (List.pairwise_append.mp hapart).2.2 d hd e (by simp)
    obtain ⟨hkey, records, rfl⟩ := h.run_declareVariable hnew hfirst
    rw [List.append_cons] at hapart ⊢
    obtain ⟨hdone, hkinds⟩ := ih (h.withVariable hkey hnew records) hapart hrun
    exact ⟨hdone, hkinds⟩

/-- Of the lines that give variables a first value, just one is for this identifier. -/
def GivesOnce (s : Session) (x : String) (kind : ValueKind) : Prop :=
  s.globals.values.filter (fun line => (x ++ " = ").toList.isPrefixOf line.toList) = [x ++ " = " ++ kind.initializer]

theorem Declares.givesOnce {s : Session} {entries : List (Value × ValueKind)} (h : s.Declares entries) (hs : s.Plain)
    {e : Value × ValueKind} (he : e ∈ entries) : s.GivesOnce (s.spelling e.1) e.2 := by
  have hidentifier : ∀ d ∈ entries, IsIdentifier (s.spelling d.1) := fun d hd => (hs.names _ _ (h.named d hd).2).1
  have hdistinct : (entries.map fun d => s.spelling d.1).Nodup := by
    have hnodup := h.distinct
    rwa [h.used, List.nodup_reverse] at hnodup
  have hlines : s.globals.values = entries.map fun d => s.spelling d.1 ++ " = " ++ d.2.initializer := by
    rw [Ledger.values, h.lines, List.map_map]
    rfl
  have hbegins : ∀ d ∈ entries, (s.spelling e.1 ++ " = ").toList.isPrefixOf
      (s.spelling d.1 ++ " = " ++ d.2.initializer).toList = decide (s.spelling e.1 = s.spelling d.1) := by
    intro d hd
    rw [Bool.eq_iff_iff, (hidentifier e he).begins_iff (hidentifier d hd), decide_eq_true_iff]
  rw [GivesOnce, hlines, List.filter_map]
  refine (congrArg _ (List.filter_congr hbegins)).trans ?_
  rw [filter_eq_singleton hdistinct he]
  rfl

end Session

namespace Generator

theorem opened_declares (g : Generator) (w : Workspace n) (typed : Workspace.Typed n) :
    (g.opened w typed).Declares [] where
  isOpen := rfl
  lines := rfl
  used := rfl
  distinct := .nil
  named e he := by cases he
  only l x h := by cases h
  functions p := rfl

/-- A session opens with the variables in use, in the order of first use. -/
theorem start_declares {g : Generator} {w : Workspace n} {σ : Session} (h : g.start w = .ok σ) :
    w.allVariables = .ok σ.kinds.keys ∧ σ.Declares σ.kinds.entries := by
  obtain ⟨typed, htyped, hrun⟩ := declared_of_start h
  have hnames := Workspace.infer_variables htyped
  have hapart : typed.found.kinds.entries.Pairwise fun d e => (d.1 == e.1) = false :=
    List.pairwise_map.mp (Workspace.allVariables_apart hnames)
  obtain ⟨hdeclares, hkinds⟩ := (g.opened_declares w typed).run_forM hapart hrun
  rw [hkinds]
  exact ⟨hnames, hdeclares⟩

end Generator

end BlockScript
