import BlockScript.Proofs.CountingTexts
import BlockScript.Proofs.FunctionStock

namespace BlockScript

open Text Run

variable {n : Nat} {indent : String}

/-- What a counting loop is made of: its variable, the texts of its bounds and of its step, and its body. -/
structure CountingParts where
  name : String
  first : String
  last : String
  step : String
  body : String

namespace Scene

variable {s : Scene n}

def countingParts (s : Scene n) : Run CountingParts := do
  let name ← s.variableOf "i"
  let first ← s.value "FROM" .none "0"
  let last ← s.value "TO" .none "0"
  let step ← s.value "BY" .none "1"
  let body ← s.loopBody
  return ⟨name, first, last, step, body⟩

def countingOf (s : Scene n) (p : CountingParts) : Run Output := do
  match knownBounds? p.first p.last p.step with
  | .error f => throw f
  | .ok (some (a, b, c)) =>
    return .statement ("for " ++ p.name ++ " in " ++ (← s.knownSequence a b c) ++ ":\n" ++ p.body)
  | .ok none =>
    let (a, keptA) ← keepBound p.name "_start" p.first
    let (b, keptB) ← keepBound p.name "_end" p.last
    let (c, keptC) ← keepBound p.name "_inc" p.step
    return .statement (keptA ++ keptB ++ keptC ++
      ("for " ++ p.name ++ " in " ++ (← s.boundSequence a b c) ++ ":\n" ++ p.body))

theorem counting_eq (s : Scene n) : s.counting = s.countingParts >>= s.countingOf := by
  simp only [counting, countingParts, bind_assoc, pure_bind]
  rfl

theorem countingParts_stocks (job : Job n) (depth : Nat) (i : Fin n) : (job.sceneWithin depth i).countingParts.Within
    fun s t => s.Stocked job.settings.indent → t.Stocked job.settings.indent := by
  have hjoins : Joins fun s t => s.Stocked job.settings.indent → t.Stocked job.settings.indent :=
    ⟨fun _ => id, fun hst htu hs => htu (hst hs)⟩
  have hask : ∀ p, ((job.sceneWithin depth i).emit ((job.sceneWithin depth i).block.at? p)).Within
      fun s t => s.Stocked job.settings.indent → t.Stocked job.settings.indent :=
    fun p => Job.emitWithin_allowed (Q := fun _ => True) hjoins (fun _ _ _ _ => trivial) (fun _ _ _ _ hd => Deed.stocks hd)
      depth fun _ _ => trivial
  refine hjoins.bind (fun s hs => ?_) fun _ => hjoins.bind (value_within hjoins hask _ _ _) fun _ =>
    hjoins.bind (value_within hjoins hask _ _ _) fun _ => hjoins.bind (value_within hjoins hask _ _ _) fun _ =>
    hjoins.bind (hjoins.bind (suite_within hjoins hask _) fun _ => hjoins.pure _) fun _ => hjoins.pure _
  exact (Session.identifier_rests _ _ s).stocked ((Session.identifier_within _ _ s).2 hs.plain) hs

end Scene

/-- Lines that assign an expression each. -/
def assignmentLines : List (String × String) → String
  | [] => ""
  | p :: ps => p.1 ++ " = " ++ p.2 ++ "\n" ++ assignmentLines ps

theorem assignmentLines_append (ps qs : List (String × String)) :
    assignmentLines (ps ++ qs) = assignmentLines ps ++ assignmentLines qs := by
  induction ps with
  | nil => simp [assignmentLines]
  | cons p ps ih => simp [assignmentLines, ih, String.append_assoc]

/-- An expression stands for a number, whatever the listed names stand for. If it is a numeral that is taken for a
number when the program is written, it is a binary64 number. -/
def Surroundings.Denotes (ρ : Surroundings) (names : List String) (code : String) (q : Rat) : Prop :=
  ∃ e, Parses code e ∧ ρ.amount e = some q ∧ (∀ x ∈ names, ¬ e.Names x) ∧
    ((Value.text code).isNumber = .ok true → (Double.ofText? code).bind Double.toRat? = some q)

/-- The functions of a session are defined. -/
def Surroundings.Grants (ρ : Surroundings) (u : Session) : Prop :=
  ∀ p x text, u.functions.identifier? p = some x → u.functions.texts.get? p = some text → ρ.texts x = some text

/-- How the bound of an expression comes about. -/
inductive Bound.Keeps (lines : List (String × String)) (code : String) : Bound → Prop where
  | known {x : Number} : (Value.text code).isNumber = .ok true → (Value.text code).toNumber = .ok x →
      Keeps lines code (.known x)
  | direct : Keeps lines code (.dynamic ("float(" ++ code ++ ")"))
  | kept {x : String} : IsName x → (x, "float(" ++ code ++ ")") ∈ lines → Keeps lines code (.dynamic x)

theorem Bound.Keeps.mono {lines more : List (String × String)} {code : String} {b : Bound} (h : b.Keeps lines code)
    (hsub : lines ⊆ more) : b.Keeps more code := by
  cases h with
  | known hn hx => exact .known hn hx
  | direct => exact .direct
  | kept hx hmem => exact .kept hx (hsub hmem)

theorem value_of_toNumber {code : String} {x : Number} {q : Rat} (hx : (Value.text code).toNumber = .ok x)
    (hq : (Double.ofText? code).bind Double.toRat? = some q) : x.Readable ∧ x.value? = some q := by
  obtain ⟨d, hd, hvalue⟩ := Option.bind_eq_some_iff.mp hq
  have hnumber : (Value.text code).toNumber = .ok (Number.ofDouble d) := by
    simp only [Value.toNumber, Value.toDouble, hd]
    rfl
  rw [hnumber] at hx
  cases hx
  exact ⟨Number.readable_ofDouble hd hvalue, (Number.value_ofDouble d).trans hvalue⟩

/-- A numeral has a value. -/
theorem number_of_isNumber {code : String} (h : (Value.text code).isNumber = .ok true) :
    ∃ x q, (Value.text code).toNumber = .ok x ∧ (Double.ofText? code).bind Double.toRat? = some q ∧ x.Readable ∧
      x.value? = some q := by
  simp only [Value.isNumber] at h
  split at h
  · obtain ⟨d, hd, hfinite⟩ := ok_of_bind h
    have hnumber : (Value.text code).toNumber = .ok (Number.ofDouble d) := by
      simp only [Value.toNumber, hd]
      rfl
    have hread : Double.ofText? code = some d := by
      simp only [Value.toDouble] at hd
      split at hd
      · rename_i hread
        cases hd
        exact hread
      · cases hd
    obtain ⟨q, hq⟩ : ∃ q, d.toRat? = some q := by
      cases d with
      | finite negative m e => exact ⟨_, rfl⟩
      | _ => cases hfinite
    have hvalue : (Double.ofText? code).bind Double.toRat? = some q := by
      rw [hread, Option.bind_some, hq]
    exact ⟨_, q, hnumber, hvalue, value_of_toNumber hnumber hvalue⟩
  · cases h

theorem parses_float {code : String} {e : Expr} (h : Parses code e) :
    Written OperatorClass.functionCall.rank ("float(" ++ code ++ ")") (.call (.name "float") [e]) := by
  have hname : Written OperatorClass.functionCall.rank "float" (.name "float") := Written.word rfl (by decide) _
  exact (hname.call [code] (.cons (h.mono (by decide)) .nil)).congr (by simp [joined])

/-- Lines that keep expressions as numbers can be run, and then each name reads as its expression did before. -/
theorem Surroundings.leads_kept {ρ : Surroundings} {lines : List (String × String)}
    (hnodup : (lines.map Prod.fst).Nodup) (hlines : ∀ p ∈ lines, IsName p.1 ∧
      ∃ code q, p.2 = "float(" ++ code ++ ")" ∧ ρ.Denotes (lines.map Prod.fst) code q) :
    (∃ ρ', Leads lines ρ ρ') ∧ ∀ ρ', Leads lines ρ ρ' → SameBut (lines.map Prod.fst) ρ ρ' ∧
      ∀ p ∈ lines, ∃ e, Parses p.2 e ∧ ρ'.reading (.name p.1) = ρ.amount e := by
  have hreserved : ∀ x ∈ lines.map Prod.fst, x ≠ "float" := by
    rintro x hx rfl
    obtain ⟨p, hp, hfloat⟩ := List.mem_map.mp hx
    have hname := (hlines p hp).1.2
    rw [hfloat] at hname
    exact hname (by decide)
  have hwritten : ∀ p ∈ lines, ∃ e q, Parses p.2 e ∧ ρ.amount e = some q ∧ ∀ x ∈ lines.map Prod.fst, ¬ e.Names x := by
    intro p hp
    obtain ⟨-, code, q, htext, e, he, hq, hfree, -⟩ := hlines p hp
    rw [htext]
    refine ⟨_, q, (parses_float he).parses, (Surroundings.amount_float e).trans hq, ?_⟩
    intro x hx hnames
    cases hnames with
    | callee _ hcallee =>
      cases hcallee
      exact hreserved _ hx rfl
    | argument _ hmem hargument =>
      obtain rfl := List.mem_singleton.mp hmem
      exact hfree x hx hargument
  refine ⟨exists_leads hwritten, fun ρ' hleads => hleads.reads hnodup ?_⟩
  intro p hp e he
  obtain ⟨e', _, he', -, hfree⟩ := hwritten p hp
  exact he.unique he' ▸ hfree

/-- After its line, a bound stands for the number that its expression stood for. -/
theorem Bound.Keeps.shows {lines : List (String × String)} {code : String} {b : Bound} (h : b.Keeps lines code)
    {ρ ρ' : Surroundings} {q : Rat} (hq : ρ.Denotes (lines.map Prod.fst) code q)
    (hsame : Surroundings.SameBut (lines.map Prod.fst) ρ ρ')
    (hreads : ∀ p ∈ lines, ∃ e, Parses p.2 e ∧ ρ'.reading (.name p.1) = ρ.amount e) : ρ'.Shows b.code q := by
  obtain ⟨e, he, hvalue, hfree, hexact⟩ := hq
  cases h with
  | known hn hx =>
    obtain ⟨hreadable, hnumber⟩ := value_of_toNumber hx (hexact hn)
    obtain ⟨e', he', hamount⟩ := hreadable.written hnumber
    exact ⟨e', he', hamount ρ'⟩
  | direct =>
    refine ⟨_, (parses_float he).mono (by decide), ?_⟩
    rw [Surroundings.amount_float, hsame.amount hfree, hvalue]
  | @kept x hx hmem =>
    obtain ⟨e', he', hread⟩ := hreads _ hmem
    obtain rfl := he'.unique (parses_float he).parses
    refine ⟨.name x, hx.written _, ?_⟩
    rw [Surroundings.amount_name, hread, Surroundings.amount_float, hvalue]

/-- The bounds of a loop come one after another, each with at most one line. -/
theorem Scene.keepBound_run {t : Session} (ht : t.Stocked indent) (name suffix : String) {code : String}
    (hcode : ∃ b, (Value.text code).isNumber = .ok b) : ∃ b lines t',
    (keepBound name suffix code).run t = (.ok (b, assignmentLines lines), t') ∧ t'.Stocked indent ∧
      b.Keeps lines code ∧ t.names.used ⊆ t'.names.used ∧ (lines.map Prod.fst).Nodup ∧
      (∀ y, t.Spare y → t'.Spare y) ∧
      ∀ p ∈ lines, IsName p.1 ∧ p.1 ∉ t.names.used ∧ t'.Spare p.1 ∧ p.2 = "float(" ++ code ++ ")" := by
  obtain ⟨b, hb⟩ := hcode
  unfold keepBound
  rw [hb]
  cases b with
  | true =>
    obtain ⟨x, -, hx, -⟩ := number_of_isNumber hb
    rw [hx]
    exact ⟨.known x, [], t, rfl, ht, .known hb hx, List.Subset.refl _, by simp, fun _ => id, by simp⟩
  | false =>
    dsimp only
    split
    · exact ⟨_, [], t, rfl, ht, .direct, List.Subset.refl _, by simp, fun _ => id, by simp⟩
    · have hrests := Session.distinct_rests .generated (.text (name ++ suffix)) t
      have hgrows := Session.grows_steps.distinct .generated (.text (name ++ suffix)) t
      have hfresh := t.names.allocate_fresh ⟨.generated, .text (name ++ suffix)⟩
      have hname := ht.plain.allocate ⟨.generated, .text (name ++ suffix)⟩
      rw [run_distinctIdentifier] at hrests hgrows
      dsimp only at hrests hgrows
      generalize hx : (t.names.allocate ⟨.generated, .text (name ++ suffix)⟩).1 = x at hfresh hname hrests hgrows
      refine ⟨.dynamic x, [(x, "float(" ++ code ++ ")")], _, ?_, hrests.stocked (hgrows.2 ht.plain) ht,
        .kept hname (by simp), hrests.used, by simp, fun _ => hrests.spare, ?_⟩
      · have hline : x ++ " = float(" ++ code ++ ")\n" = assignmentLines [(x, "float(" ++ code ++ ")")] := by
          rw [← String.toList_inj]
          simp [assignmentLines]
        rw [run_bind, distinctName, run_distinctIdentifier]
        dsimp only
        rw [hx, hline]
        rfl
      · intro p hp
        obtain rfl := List.mem_singleton.mp hp
        refine ⟨hname, hfresh, ⟨?_, fun q hq => hfresh (ht.used q x hq)⟩, rfl⟩
        rw [← hx]
        exact List.mem_cons_self

/-- A loop over numbers: lines that keep what is needed, and the loop itself. -/
structure CountingLoop where
  kept : List (String × String)
  name : String
  sequence : String
  body : String

namespace CountingLoop

def text (loop : CountingLoop) : String :=
  assignmentLines loop.kept ++ ("for " ++ loop.name ++ " in " ++ loop.sequence ++ ":\n" ++ loop.body)

/-- Whatever numbers the bounds and the step stand for, the loop counts from the one to the other. -/
def Counts (loop : CountingLoop) (indent : String) (u : Session) (p : CountingParts) : Prop :=
  ∀ (ρ : Surroundings) (a b c : Rat), ρ.Grants u → c ≠ 0 → ρ.Denotes (loop.kept.map Prod.fst) p.first a →
    ρ.Denotes (loop.kept.map Prod.fst) p.last b → ρ.Denotes (loop.kept.map Prod.fst) p.step c →
    (∃ ρ', Surroundings.Leads loop.kept ρ ρ') ∧ ∀ ρ', Surroundings.Leads loop.kept ρ ρ' →
      ∀ xs, ρ'.Runs indent loop.sequence xs ↔ xs = counted a b c

end CountingLoop

/-- The functions of a session are known. -/
def Surroundings.Knows (ρ : Surroundings) (indent : String) (u : Session) : Prop :=
  ∀ f x, u.Holds indent f x → ρ.Defines indent x f

/-- Lines that assign names which are no functions leave the functions alone. -/
theorem Surroundings.Grants.knows {ρ ρ' : Surroundings} {u : Session} (hρ : ρ.Grants u) (hu : u.Stocked indent)
    {names : List String} (hsame : SameBut names ρ ρ') (hnames : ∀ y ∈ names, u.Spare y) : ρ'.Knows indent u := by
  intro f x hx
  have hapart : x ∉ names := fun hmem => (hnames x hmem).2 _ hx.identifier
  exact ⟨hu.plain.functions _ _ hx.identifier, (hsame.2 x hapart).trans (hρ _ _ _ hx.identifier hx.text)⟩

namespace Scene

variable {s : Scene n} {t : Session}

theorem function_run (hs : s.settings.indent = indent) (ht : t.Stocked indent) {f : FunctionText}
    (hf : f ∈ FunctionText.all) : ∃ x u, (s.function f).run t = (.ok x, u) ∧ u.Stocked indent ∧ u.Holds indent f x ∧
      (∀ g y, t.Holds indent g y → u.Holds indent g y) ∧ ∀ y, t.Spare y → u.Spare y := by
  obtain ⟨x, u, hrun, hprovided⟩ := Session.run_provided ht.isOpen f.preferred (f.text indent)
  refine ⟨x, u, ?_, hprovided.stocked hf ht, hprovided.holds_self hf ht, fun _ _ => hprovided.holds,
    fun _ => hprovided.spare⟩
  subst hs
  exact hrun

/-- Between known bounds the direction is known too. -/
theorem directedRange_run (hs : s.settings.indent = indent) (hindent : '\x7b' ∉ indent.toList) (ht : t.Stocked indent)
    (first last : Number) : ∃ f u, (s.directedRange first last).run t = (.ok f, u) ∧ u.Stocked indent ∧
      (∀ y, t.Spare y → u.Spare y) ∧ ∀ (ρ : Surroundings) (a b c : Rat) (x y z : String), ρ.Knows indent u →
        first.value? = some a → last.value? = some b → ρ.Shows x a → ρ.Shows y b → ρ.Shows z c → c ≠ 0 →
        ρ.Runs indent (Surroundings.callText f x y z) (counted a b c) := by
  unfold directedRange
  cases hlt : first.lt last with
  | true =>
    obtain ⟨f, u, hrun, hu, hf, -, hspare⟩ := function_run hs ht (f := .upRange) (by simp [FunctionText.all])
    refine ⟨f, u, by simpa using hrun, hu, hspare, ?_⟩
    intro ρ a b c x y z hρ ha hb hx hy hz hc
    rw [Number.lt_eq ha hb, decide_eq_true_eq] at hlt
    exact Surroundings.runs_up hindent (hρ _ _ hf) hx hy hz hc hlt.le
  | false =>
    obtain ⟨f, u, hrun, hu, hf, -, hspare⟩ := function_run hs ht (f := .downRange) (by simp [FunctionText.all])
    refine ⟨f, u, by simpa using hrun, hu, hspare, ?_⟩
    intro ρ a b c x y z hρ ha hb hx hy hz hc
    rw [Number.lt_eq ha hb, decide_eq_false_iff_not, not_lt] at hlt
    exact Surroundings.runs_down hindent (hρ _ _ hf) hx hy hz hc hlt

theorem knownSequence_run (hs : s.settings.indent = indent) (hindent : '\x7b' ∉ indent.toList) (ht : t.Stocked indent)
    {first last step : Number} (hfirst : first.Readable) (hlast : last.Readable) (hstep : step.Readable) :
    ∃ sequence u, (s.knownSequence first last step).run t = (.ok sequence, u) ∧ u.Stocked indent ∧
      ∀ (ρ : Surroundings) (a b c : Rat), ρ.Knows indent u → first.value? = some a → last.value? = some b →
        step.value? = some c → c ≠ 0 → ρ.Runs indent sequence (counted a b c) := by
  have hshows {x : Number} (hx : x.Readable) {q : Rat} (hq : x.value? = some q) (ρ : Surroundings) :
      ρ.Shows x.literal q := by
    obtain ⟨e, he, hamount⟩ := hx.written hq
    exact ⟨e, he, hamount ρ⟩
  have hcounted (a b c : Rat) : counted a b |c| = counted a b c := by
    simp only [counted, abs_abs]
  obtain ⟨f, u, hrun, hu, -, hruns⟩ := directedRange_run hs hindent ht first last
  have hcall : (do
      let function ← s.directedRange first last
      return function ++ "(" ++ first.literal ++ ", " ++ last.literal ++ ", " ++ step.abs.literal ++ ")").run t =
      (.ok (Surroundings.callText f first.literal last.literal step.abs.literal), u) := by
    rw [run_bind, hrun]
    rfl
  have hdirected : ∀ (ρ : Surroundings) (a b c : Rat), ρ.Knows indent u → first.value? = some a →
      last.value? = some b → step.value? = some c → c ≠ 0 →
      ρ.Runs indent (Surroundings.callText f first.literal last.literal step.abs.literal) (counted a b c) := by
    intro ρ a b c hρ ha hb hc hne
    rw [← hcounted]
    exact hruns ρ a b |c| _ _ _ hρ ha hb (hshows hfirst ha ρ) (hshows hlast hb ρ)
      (hshows hstep.abs (Number.value_abs hc) ρ) (abs_ne_zero.mpr hne)
  unfold knownSequence
  split
  · rename_i x y z habs
    refine ⟨_, t, rfl, ht, ?_⟩
    intro ρ a b c hρ ha hb hc hne
    obtain rfl := Option.some.inj ha
    obtain rfl := Option.some.inj hb
    have hz : ((z.natAbs : Nat) : Rat) = |c| := by
      have habs' := Number.value_abs hc
      rw [habs] at habs'
      have hvalue : (z : Rat) = |c| := Option.some.inj habs'
      rw [Nat.cast_natAbs, Int.cast_abs, hvalue, abs_abs]
    have hsize : z.natAbs ≠ 0 := by
      intro hzero
      rw [hzero, Nat.cast_zero] at hz
      exact hne (abs_eq_zero.mp hz.symm)
    obtain ⟨e, he, hiterates⟩ := written_range hsize x y indent
    rw [hz, hcounted] at hiterates
    exact ⟨e, he, hiterates ρ⟩
  · exact ⟨_, u, hcall, hu, hdirected⟩

/-- The choice between the two functions, made when the program runs. -/
theorem choice_run (hs : s.settings.indent = indent) (hindent : '\x7b' ∉ indent.toList) (ht : t.Stocked indent)
    (x y z : String) : ∃ sequence u, (do
      let up ← s.function .upRange
      let down ← s.function .downRange
      return "(" ++ up ++ " if " ++ x ++ " <= " ++ y ++ " else " ++ down ++ ")" ++
        ("(" ++ x ++ ", " ++ y ++ ", " ++ z ++ ")") : Run String).run t = (.ok sequence, u) ∧
      u.Stocked indent ∧ (∀ v, t.Spare v → u.Spare v) ∧ ∀ (ρ : Surroundings) (a b c : Rat), ρ.Knows indent u →
        ρ.Shows x a → ρ.Shows y b → ρ.Shows z c → c ≠ 0 → ρ.Runs indent sequence (counted a b c) := by
  obtain ⟨up, u, hrun, hu, hup, -, hspare⟩ := function_run hs ht (f := .upRange) (by simp [FunctionText.all])
  obtain ⟨down, u', hrun', hu', hdown, hholds, hspare'⟩ :=
    function_run hs hu (f := .downRange) (by simp [FunctionText.all])
  have htext : "(" ++ up ++ " if " ++ x ++ " <= " ++ y ++ " else " ++ down ++ ")" ++
      ("(" ++ x ++ ", " ++ y ++ ", " ++ z ++ ")") = Surroundings.callText
        ("(" ++ up ++ " if " ++ x ++ " <= " ++ y ++ " else " ++ down ++ ")") x y z := by
    rw [← String.toList_inj]
    simp [Surroundings.callText]
  refine ⟨_, u', ?_, hu', fun v hv => hspare' v (hspare v hv), fun ρ a b c hρ hx hy hz hc =>
    Surroundings.runs_choice hindent (hρ _ _ (hholds _ _ hup)) (hρ _ _ hdown) hx hy hz hc⟩
  rw [run_bind, hrun]
  dsimp only
  rw [run_bind, hrun']
  dsimp only
  rw [htext]
  rfl

/-- Bounds of which some may be known when the program runs only. -/
theorem boundSequence_run (hs : s.settings.indent = indent) (hindent : '\x7b' ∉ indent.toList) (ht : t.Stocked indent)
    (first last step : Bound) : ∃ sequence u, (s.boundSequence first last step).run t = (.ok sequence, u) ∧
      u.Stocked indent ∧ (∀ y, t.Spare y → u.Spare y) ∧ ∀ (ρ : Surroundings) (a b c : Rat), ρ.Knows indent u →
        (∀ x, first = .known x → x.value? = some a) → (∀ x, last = .known x → x.value? = some b) →
        ρ.Shows first.code a → ρ.Shows last.code b → ρ.Shows step.code c → c ≠ 0 →
        ρ.Runs indent sequence (counted a b c) := by
  obtain ⟨sequence, u, hrun, hu, hspare, hruns⟩ := choice_run hs hindent ht first.code last.code step.code
  have hchosen : ∀ (ρ : Surroundings) (a b c : Rat), ρ.Knows indent u →
      (∀ x, first = .known x → x.value? = some a) → (∀ x, last = .known x → x.value? = some b) →
      ρ.Shows first.code a → ρ.Shows last.code b → ρ.Shows step.code c → c ≠ 0 →
      ρ.Runs indent sequence (counted a b c) := fun ρ a b c hρ _ _ => hruns ρ a b c hρ
  cases first with
  | dynamic x => exact ⟨sequence, u, hrun, hu, hspare, hchosen⟩
  | known x =>
    cases last with
    | dynamic y => exact ⟨sequence, u, hrun, hu, hspare, hchosen⟩
    | known y =>
      obtain ⟨f, v, hf, hv, hkept, hdirected⟩ := directedRange_run hs hindent ht x y
      refine ⟨Surroundings.callText f x.literal y.literal step.code, v, ?_, hv, hkept, ?_⟩
      · have htext : f ++ ("(" ++ x.literal ++ ", " ++ y.literal ++ ", " ++ step.code ++ ")") =
            Surroundings.callText f x.literal y.literal step.code := by
          rw [← String.toList_inj]
          simp [Surroundings.callText]
        rw [← htext, boundSequence, run_bind, hf]
        rfl
      · intro ρ a b c hρ ha hb hx hy hz hc
        exact hdirected ρ a b c _ _ _ hρ (ha x rfl) (hb y rfl) hx hy hz hc

theorem knownBounds_eq {first last step : String} {x y z : Number} (hfirst : (Value.text first).isNumber = .ok true)
    (hx : (Value.text first).toNumber = .ok x) (hlast : (Value.text last).isNumber = .ok true)
    (hy : (Value.text last).toNumber = .ok y) (hstep : (Value.text step).isNumber = .ok true)
    (hz : (Value.text step).toNumber = .ok z) : knownBounds? first last step = .ok (some (x, y, z)) := by
  simp only [knownBounds?, hfirst, hlast, hstep, hx, hy, hz]
  rfl

theorem knownBounds_eq_none {first last step : String} {a b c : Bool} (hfirst : (Value.text first).isNumber = .ok a)
    (hlast : (Value.text last).isNumber = .ok b) (hstep : (Value.text step).isNumber = .ok c)
    (h : (a && b && c) = false) : knownBounds? first last step = .ok none := by
  simp only [knownBounds?, hfirst, hlast, hstep]
  cases a with
  | false => rfl
  | true =>
    cases b with
    | false => rfl
    | true =>
      cases c with
      | false => rfl
      | true => cases h

/-- A loop between three numerals. -/
theorem countingOf_known (hs : s.settings.indent = indent) (hindent : '\x7b' ∉ indent.toList) (ht : t.Stocked indent)
    {p : CountingParts} (hfirst : (Value.text p.first).isNumber = .ok true)
    (hlast : (Value.text p.last).isNumber = .ok true) (hstep : (Value.text p.step).isNumber = .ok true) :
    ∃ sequence u, (s.countingOf p).run t = (.ok (.statement (CountingLoop.text ⟨[], p.name, sequence, p.body⟩)), u) ∧
      CountingLoop.Counts ⟨[], p.name, sequence, p.body⟩ indent u p := by
  obtain ⟨x, a, hx, ha, hxread, hxvalue⟩ := number_of_isNumber hfirst
  obtain ⟨y, b, hy, hb, hyread, hyvalue⟩ := number_of_isNumber hlast
  obtain ⟨z, c, hz, hc, hzread, hzvalue⟩ := number_of_isNumber hstep
  obtain ⟨sequence, u, hrun, hu, hruns⟩ := knownSequence_run hs hindent ht hxread hyread hzread
  refine ⟨sequence, u, ?_, ?_⟩
  · rw [countingOf, knownBounds_eq hfirst hx hlast hy hstep hz]
    dsimp only
    rw [run_bind, hrun]
    simp [CountingLoop.text, assignmentLines]
  · intro ρ a' b' c' hρ hne hfirst' hlast' hstep'
    obtain ⟨_, _, _, _, hexact⟩ := hfirst'
    obtain rfl := Option.some.inj (ha.symm.trans (hexact hfirst))
    obtain ⟨_, _, _, _, hexact⟩ := hlast'
    obtain rfl := Option.some.inj (hb.symm.trans (hexact hlast))
    obtain ⟨_, _, _, _, hexact⟩ := hstep'
    obtain rfl := Option.some.inj (hc.symm.trans (hexact hstep))
    refine ⟨⟨ρ, .nil ρ⟩, fun ρ' hleads xs => ?_⟩
    cases hleads
    have hsame : Surroundings.SameBut [] ρ ρ := ⟨fun _ _ => rfl, fun _ _ => rfl⟩
    have hknows : ρ.Knows indent u := hρ.knows hu hsame (by simp)
    exact (hruns ρ a b c hknows hxvalue hyvalue hzvalue hne).iff

/-- A loop between bounds of which some are no numerals. -/
theorem countingOf_dynamic (hs : s.settings.indent = indent) (hindent : '\x7b' ∉ indent.toList) (ht : t.Stocked indent)
    {p : CountingParts} {a b c : Bool} (hfirst : (Value.text p.first).isNumber = .ok a)
    (hlast : (Value.text p.last).isNumber = .ok b) (hstep : (Value.text p.step).isNumber = .ok c)
    (h : (a && b && c) = false) :
    ∃ (loop : CountingLoop) (u : Session), (s.countingOf p).run t = (.ok (.statement loop.text), u) ∧
      loop.name = p.name ∧ loop.body = p.body ∧ (∀ x ∈ loop.kept.map Prod.fst, x ∉ t.names.used) ∧
      loop.Counts indent u p := by
  obtain ⟨x, k₁, t₁, hrun₁, ht₁, hx, hused₁, hnodup₁, -, hlines₁⟩ := keepBound_run ht p.name "_start" ⟨_, hfirst⟩
  obtain ⟨y, k₂, t₂, hrun₂, ht₂, hy, hused₂, hnodup₂, hspare₂, hlines₂⟩ := keepBound_run ht₁ p.name "_end" ⟨_, hlast⟩
  obtain ⟨z, k₃, t₃, hrun₃, ht₃, hz, hused₃, hnodup₃, hspare₃, hlines₃⟩ := keepBound_run ht₂ p.name "_inc" ⟨_, hstep⟩
  obtain ⟨sequence, u, hrun, hu, hspare, hruns⟩ := boundSequence_run hs hindent ht₃ x y z
  have hfresh : ∀ q ∈ k₁ ++ (k₂ ++ k₃), q.1 ∉ t.names.used := by
    intro q hq
    obtain hq | hq | hq := by simpa only [List.mem_append] using hq
    · exact (hlines₁ q hq).2.1
    · exact fun hmem => (hlines₂ q hq).2.1 (hused₁ hmem)
    · exact fun hmem => (hlines₃ q hq).2.1 (hused₂ (hused₁ hmem))
  have hkept : ∀ q ∈ k₁ ++ (k₂ ++ k₃), u.Spare q.1 := by
    intro q hq
    obtain hq | hq | hq := by simpa only [List.mem_append] using hq
    · exact hspare _ (hspare₃ _ (hspare₂ _ (hlines₁ q hq).2.2.1))
    · exact hspare _ (hspare₃ _ (hlines₂ q hq).2.2.1)
    · exact hspare _ (hlines₃ q hq).2.2.1
  -- A later name is new where the earlier ones are in use.
  have hnodup : ((k₁ ++ (k₂ ++ k₃)).map Prod.fst).Nodup := by
    simp only [List.map_append, List.nodup_append', List.disjoint_left, List.mem_append, List.mem_map]
    refine ⟨hnodup₁, ⟨hnodup₂, hnodup₃, ?_⟩, ?_⟩
    · rintro _ ⟨q, hq, rfl⟩ ⟨q', hq', heq⟩
      exact (hlines₃ q' hq').2.1 (heq ▸ (hlines₂ q hq).2.2.1.1)
    · rintro _ ⟨q, hq, rfl⟩ (⟨q', hq', heq⟩ | ⟨q', hq', heq⟩)
      · exact (hlines₂ q' hq').2.1 (heq ▸ (hlines₁ q hq).2.2.1.1)
      · exact (hlines₃ q' hq').2.1 (heq ▸ hused₂ (hlines₁ q hq).2.2.1.1)
  refine ⟨⟨k₁ ++ (k₂ ++ k₃), p.name, sequence, p.body⟩, u, ?_, rfl, rfl, ?_, ?_⟩
  · rw [countingOf, knownBounds_eq_none hfirst hlast hstep h]
    dsimp only
    rw [run_bind, hrun₁]
    dsimp only
    rw [run_bind, hrun₂]
    dsimp only
    rw [run_bind, hrun₃]
    dsimp only
    rw [run_bind, hrun]
    simp [CountingLoop.text, assignmentLines_append, String.append_assoc]
  · intro v hv
    obtain ⟨q, hq, rfl⟩ := List.mem_map.mp hv
    exact hfresh q hq
  · intro ρ a b c hρ hne hfirst hlast hstep
    have hlines : ∀ q ∈ k₁ ++ (k₂ ++ k₃), IsName q.1 ∧ ∃ code r, q.2 = "float(" ++ code ++ ")" ∧
        ρ.Denotes ((k₁ ++ (k₂ ++ k₃)).map Prod.fst) code r := by
      intro q hq
      obtain hq | hq | hq := by simpa only [List.mem_append] using hq
      · exact ⟨(hlines₁ q hq).1, _, a, (hlines₁ q hq).2.2.2, hfirst⟩
      · exact ⟨(hlines₂ q hq).1, _, b, (hlines₂ q hq).2.2.2, hlast⟩
      · exact ⟨(hlines₃ q hq).1, _, c, (hlines₃ q hq).2.2.2, hstep⟩
    obtain ⟨hexists, hleads⟩ := Surroundings.leads_kept hnodup hlines
    refine ⟨hexists, fun ρ' hρ' xs => ?_⟩
    obtain ⟨hsame, hreads⟩ := hleads ρ' hρ'
    have hshows {b : Bound} {lines : List (String × String)} {code : String} {q : Rat} (hb : b.Keeps lines code)
        (hsub : lines ⊆ k₁ ++ (k₂ ++ k₃)) (hq : ρ.Denotes ((k₁ ++ (k₂ ++ k₃)).map Prod.fst) code q) :
        ρ'.Shows b.code q ∧ ∀ x, b = .known x → x.value? = some q := by
      refine ⟨(hb.mono hsub).shows hq hsame hreads, ?_⟩
      rintro x rfl
      cases hb with
      | known hn hx =>
        obtain ⟨_, _, _, _, hexact⟩ := hq
        exact (value_of_toNumber hx (hexact hn)).2
    obtain ⟨hxshows, hxknown⟩ := hshows hx (by simp) hfirst
    obtain ⟨hyshows, hyknown⟩ := hshows hy (by simp) hlast
    obtain ⟨hzshows, -⟩ := hshows hz (by simp) hstep
    have hknows : ρ'.Knows indent u := by
      apply hρ.knows hu hsame
      intro v hv
      obtain ⟨q, hq, rfl⟩ := List.mem_map.mp hv
      exact hkept q hq
    exact (hruns ρ' a b c hknows hxknown hyknown hxshows hyshows hzshows hne).iff

/-- A loop is written whenever it is known of each bound whether it is a numeral, and it counts. -/
theorem countingOf_run (hs : s.settings.indent = indent) (hindent : '\x7b' ∉ indent.toList) (ht : t.Stocked indent)
    {p : CountingParts} (hcodes : ∀ code ∈ [p.first, p.last, p.step], ∃ b, (Value.text code).isNumber = .ok b) :
    ∃ (loop : CountingLoop) (u : Session), (s.countingOf p).run t = (.ok (.statement loop.text), u) ∧
      loop.name = p.name ∧ loop.body = p.body ∧ (∀ x ∈ loop.kept.map Prod.fst, x ∉ t.names.used) ∧
      loop.Counts indent u p := by
  obtain ⟨a, ha⟩ := hcodes p.first (by simp)
  obtain ⟨b, hb⟩ := hcodes p.last (by simp)
  obtain ⟨c, hc⟩ := hcodes p.step (by simp)
  cases h : a && b && c with
  | false => exact countingOf_dynamic hs hindent ht ha hb hc h
  | true =>
    simp only [Bool.and_eq_true] at h
    obtain ⟨⟨rfl, rfl⟩, rfl⟩ := h
    obtain ⟨sequence, u, hrun, hcounts⟩ := countingOf_known hs hindent ht ha hb hc
    exact ⟨_, u, hrun, rfl, rfl, by simp, hcounts⟩

end Scene

/-- A counting loop runs from its first bound to its last one, whether it is a range of whole numbers, one of the two
functions, or a choice between them when the program runs. Numerals among the bounds have to be binary64 numbers. -/
theorem Generator.counting_loop_counts (g : Generator) {w : Workspace n} (hindent : '\x7b' ∉ g.settings.indent.toList)
    {σ t t' : Session} (hstart : g.start w = .ok σ) (hreach : (g.job w).Reaches σ t) {depth : Nat} {i : Fin n}
    {p : CountingParts} (hparts : ((g.job w).sceneWithin depth i).countingParts.run t = (.ok p, t'))
    (hcodes : ∀ code ∈ [p.first, p.last, p.step], ∃ b, (Value.text code).isNumber = .ok b) :
    ∃ (loop : CountingLoop) (u : Session),
      ((g.job w).sceneWithin depth i).counting.run t = (.ok (.statement loop.text), u) ∧
      loop.name = p.name ∧ loop.body = p.body ∧ (∀ x ∈ loop.kept.map Prod.fst, x ∉ t'.names.used) ∧
      loop.Counts g.settings.indent u p := by
  have ht' : t'.Stocked g.settings.indent := by
    have hstocks := Scene.countingParts_stocks (g.job w) depth i t (hreach.stocked (start_stocked hstart))
    rwa [hparts] at hstocks
  obtain ⟨loop, u, hrun, hloop⟩ := Scene.countingOf_run (s := (g.job w).sceneWithin depth i) rfl hindent ht' hcodes
  refine ⟨loop, u, ?_, hloop⟩
  rw [Scene.counting_eq, run_bind, hparts]
  exact hrun

/-- A loop from ten down to the reading of a pin, by halves. -/
def countdown : Workspace 4 where
  diagram := { blocks := #v[
    { type := "controls_for", id := "c",
      slots := [⟨"FROM", .value, some 1⟩, ⟨"TO", .value, some 2⟩, ⟨"BY", .value, some 3⟩] },
    { type := "math_number", id := "a", fields := [("NUM", .int 10)], hasOutput := true },
    { type := "io_digitalread", id := "b", fields := [("PIN", .text "1")], hasOutput := true },
    { type := "math_number", id := "d", fields := [("NUM", .real (.ofRat (1 / 2)))], hasOutput := true }] : Diagram 4 }
  tops := [0]

theorem countdown_counts : ∃ (σ t' : Session) (p : CountingParts) (loop : CountingLoop) (u : Session),
    '\x7b' ∉ (Generator.settings {}).indent.toList ∧ Generator.start {} countdown = .ok σ ∧
    ((Generator.job {} countdown).sceneWithin 4 0).countingParts.run σ = (.ok p, t') ∧
    [p.first, p.last, p.step] = ["10", "pin1.value()", "0.5"] ∧
    ((Generator.job {} countdown).sceneWithin 4 0).counting.run σ = (.ok (.statement loop.text), u) ∧
    loop.text = "i_end = float(pin1.value())\n" ++
      "for i in (upRange if 10 <= i_end else downRange)(10, i_end, 0.5):\n    pass\n" ∧
    loop.Counts "    " u p := by
  have hrun : ((Generator.start {} countdown).toOption.bind fun σ =>
      (((Generator.job {} countdown).sceneWithin 4 0).countingParts.run σ).1.toOption.map fun p =>
        ([p.first, p.last, p.step], (((Generator.job {} countdown).sceneWithin 4 0).counting.run σ).1.toOption)) =
      some (["10", "pin1.value()", "0.5"], some (.statement ("i_end = float(pin1.value())\n" ++
        "for i in (upRange if 10 <= i_end else downRange)(10, i_end, 0.5):\n    pass\n"))) := by decide +kernel
  have hcodes : ∀ code ∈ ["10", "pin1.value()", "0.5"], ∃ b, (Value.text code).isNumber = .ok b := by
    decide +kernel
  cases hstart : Generator.start {} countdown with
  | error f =>
    rw [hstart] at hrun
    cases hrun
  | ok σ =>
    rw [hstart, Except.toOption, Option.bind_some] at hrun
    obtain ⟨p, hp, hfound⟩ := Option.map_eq_some_iff.mp hrun
    cases hparts : ((Generator.job {} countdown).sceneWithin 4 0).countingParts.run σ with
    | mk r t' =>
      rw [hparts] at hp
      cases r with
      | error f => cases hp
      | ok p' =>
        obtain rfl := Option.some.inj hp
        obtain ⟨htexts, htext⟩ := Prod.mk.inj hfound
        obtain ⟨loop, u, hcounting, -, -, -, hcounts⟩ := Generator.counting_loop_counts {} (by decide) hstart .refl hparts
          (by rwa [htexts])
        rw [hcounting] at htext
        exact ⟨σ, t', p', loop, u, by decide, rfl, hparts, htexts, hcounting,
          Output.statement.inj (Option.some.inj htext), hcounts⟩

/-- Rules that write two odd numbers beyond the last binary64 number that is odd. -/
def oddNumerals : RuleBook where
  given := ⟨[("low", .gives (.expression "9007199254740993" 0)), ("high", .gives (.expression "9007199254740995" 0))]⟩

/-- A loop from the one to the other. -/
def oddCount : Workspace 3 where
  diagram := { blocks := #v[
    { type := "controls_for", id := "c", slots := [⟨"FROM", .value, some 1⟩, ⟨"TO", .value, some 2⟩] },
    { type := "low", id := "l", hasOutput := true }, { type := "high", id := "h", hasOutput := true }] : Diagram 3 }
  tops := [0]

/-- The loop starts at the even number before the first one. -/
theorem oddCount_starts_before :
    (Generator.generate { rules := oddNumerals } oddCount).toOption.map (·.code) =
      some "# ---- main ----\nfor i in range(9007199254740992, 9007199254740997):\n    pass\n" ∧
    ∀ (ρ : Surroundings) (indent : String), ρ.Shows "9007199254740993" 9007199254740993 ∧
      ρ.Shows "9007199254740995" 9007199254740995 ∧
      ¬ ρ.Runs indent "range(9007199254740992, 9007199254740997)" (counted 9007199254740993 9007199254740995 1) := by
  have hshows (ρ : Surroundings) (k : Int) : ρ.Shows (toString k) k := by
    obtain ⟨e, he, hamount⟩ := written_int k
    exact ⟨e, he, hamount ρ⟩
  have hhead (a b c : Rat) : (counted a b c).head? = some a := by
    simp [counted, List.range_succ_eq_map]
  refine ⟨by decide +kernel, fun ρ indent => ⟨hshows ρ 9007199254740993, hshows ρ 9007199254740995, ?_⟩⟩
  obtain ⟨e, he, hiterates⟩ := written_range one_ne_zero 9007199254740992 9007199254740996 indent
  have hruns : ρ.Runs indent "range(9007199254740992, 9007199254740997)"
      (counted (9007199254740992 : Int) (9007199254740996 : Int) (1 : Nat)) := ⟨e, he, hiterates ρ⟩
  intro hskewed
  have hfirst := congrArg List.head? (hruns.iff.mp hskewed)
  rw [hhead, hhead, Option.some.injEq] at hfirst
  norm_num at hfirst

end BlockScript
