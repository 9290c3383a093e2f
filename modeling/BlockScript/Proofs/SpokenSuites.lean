import BlockScript.Proofs.Definitions
import BlockScript.Proofs.SpokenStatements

namespace BlockScript

open Run

variable {n : Nat} {N : String → Prop} {H E E' : Prop}

namespace Scene

variable {s : Scene n}

section Lines

theorem lines_tells (hs : s.Vocal N H E) (name : String) : Tells N H (s.lines name) fun code => H → Stated N code := by
  have hbelow := hs.below name
  unfold lines
  dsimp only
  cases hchild : s.block.child? name with
  | none =>
    refine hs.free.bind fun o ho => ?_
    subst ho
    exact .pure fun _ => .empty
  | some child =>
    rw [hchild] at hbelow
    refine hbelow.bind fun o ho => ?_
    cases o with
    | nothing => exact .pure fun _ => .empty
    | statement code => exact .pure ho
    | expression code rank => exact .throw _

theorem nextLines_tells (hs : s.Vocal N H E) : Tells N H s.nextLines fun code => H → Stated N code := by
  have hbehind := hs.behind
  unfold nextLines
  cases hnext : s.block.next with
  | none =>
    refine hs.free.bind fun o ho => ?_
    subst ho
    exact .pure fun _ => .empty
  | some next =>
    rw [hnext] at hbehind
    refine hbehind.bind fun o ho => ?_
    cases o with
    | nothing => exact .pure fun _ => .empty
    | statement code => exact .pure ho
    | expression code rank => exact .throw _

theorem suite_tells (hs : s.Vocal N H E) (name : String) : Tells N H (s.suite name) fun code => H → Stated N code := by
  obtain ⟨extra, hsettings⟩ := hs.settings
  refine (lines_tells hs name).bind fun code hcode => .pure fun hH => ?_
  rw [hsettings]
  exact (hcode hH).deeper

theorem orEmptySuite_stated (hs : s.Vocal N H E) {code : String} (hcode : Stated N code) :
    Stated N (s.orEmptySuite code) := by
  unfold orEmptySuite
  split
  · exact (emptyLine_lined (E := False) hs).toStated
  · exact hcode

theorem injected_empty (hs : s.Vocal N H E) :
    s.injected s.settings.loopMark? = "" ∧ s.injected s.settings.statementMark? = "" := by
  obtain ⟨extra, hsettings⟩ := hs.settings
  rw [hsettings]
  exact ⟨rfl, rfl⟩

theorem loopBody_tells (hs : s.Vocal N H E) : Tells N H s.loopBody fun code => H → Stated N code := by
  obtain ⟨hloop, hstatement⟩ := injected_empty hs
  refine (suite_tells hs "DO").bind fun code hcode => .pure fun hH => ?_
  rw [instrument, hloop, hstatement, String.empty_append, String.append_empty]
  exact orEmptySuite_stated hs (hcode hH)

theorem comments_stated (hs : s.Vocal N H E) : Stated N s.comments := by
  obtain ⟨extra, hsettings⟩ := hs.settings
  have hslot : ∀ slot : Slot n, Stated N (s.slotComments slot) := by
    intro slot
    unfold slotComments
    rw [hsettings]
    split
    · refine .remark ?_
      unfold Diagram.nestedComments
      split
      · exact Or.inl rfl
      · exact Or.inr ⟨_, rfl⟩
    · exact .empty
  unfold comments
  rw [hsettings]
  split
  · exact .empty
  · refine Stated.append ?_ (.joined (List.forall_mem_map.mpr fun slot _ => hslot slot))
    split
    · exact .remarkLine _
    · exact .empty

theorem placed_tells (hs : s.Vocal N H E) {code : String} (hcode : H → Stated N code) :
    Tells N H (s.placed code) fun text => H → Stated N text := by
  refine (nextLines_tells hs).bind fun rest hrest => .pure fun hH => ?_
  exact ((comments_stated hs).append (hcode hH)).append (hrest hH)

end Lines

/-- Lines with a suite below them. -/
theorem stated_suite {front code : String} (hfront : Told N E' front) (hcode : Stated N code) :
    Stated N (front ++ ":\n" ++ code) :=
  (hfront.header (E := False)).toStated.append hcode

/-- Nothing at its place, or lines. -/
def Chained (N : String → Prop) (H : Prop) (o : Output) : Prop :=
  o = .nothing ∨ ∃ code, o = .statement code ∧ (H → Stated N code)

theorem chained {code : String} (h : H → Stated N code) : Chained N H (.statement code) :=
  Or.inr ⟨code, rfl, h⟩

section Suites

theorem branch_tells (hs : s.Vocal N H E) (k : Nat) : Tells N H (s.branch k) fun code => H → Stated N code := by
  refine (value_tells hs _ _ (by decide)).bind fun condition hcondition => ?_
  refine (suite_tells hs _).bind fun body hbody => .pure fun hH => ?_
  have hword : Opens (if k = 0 then "if " else "elif ") := by
    split <;> decide
  exact stated_suite (hcondition.behind hword) (orEmptySuite_stated hs (hbody hH))

theorem conditional_tells (hs : s.Vocal N H E) (alwaysElse : Bool) :
    Tells N H (s.conditional alwaysElse) (Chained N H) := by
  refine (Tells.mapM _ fun k _ => branch_tells hs k).bind fun branches hcodes => ?_
  have hcode : H → Stated N (Text.joined "" branches) := fun hH => .joined fun code hc => hcodes.2 code hc hH
  dsimp only
  split
  · refine (suite_tells hs _).bind fun body hbody => .pure (chained fun hH => ?_)
    have hword : Told N True "else" := .fixed (by decide)
    have helse := stated_suite hword (orEmptySuite_stated hs (hbody hH))
    have heq : Text.joined "" branches ++ "else:\n" ++ s.orEmptySuite body =
        Text.joined "" branches ++ ("else" ++ ":\n" ++ s.orEmptySuite body) := String.append_assoc ..
    rw [heq]
    exact (hcode hH).append helse
  · exact .pure (chained hcode)

theorem told_repetitionCount {times count : String} (ht : Told N E times) (h : repetitionCount times = .ok count) :
    Told N True count := by
  obtain ⟨z, rfl⟩ | rfl := repetitionCount_cases h
  · exact .int z
  · exact (ht.behind (by decide)).closed (by decide)

theorem repeated_tells (hs : s.Vocal N H E) {times : String} (ht : H → Told N False times) :
    Tells N H (s.repeated times) (Chained N H) := by
  unfold repeated
  cases hcount : repetitionCount times with
  | error f => exact .throw _
  | ok count =>
    refine (distinctIdentifier_tells (E := E) _ _).bind fun x hx => (loopBody_tells hs).bind fun body hbody => ?_
    refine .pure (chained fun hH => ?_)
    have hfor : Told N E ("for " ++ x) := hx.behind (by decide)
    have hrange : Told N True ("for " ++ x ++ " in range(" ++ count) :=
      hfor.around (told_repetitionCount (ht hH) hcount) (by decide)
    have hfront : Told N True ("for " ++ x ++ " in range(" ++ count ++ ")") := hrange.closed (by decide)
    have heq : "for " ++ x ++ " in range(" ++ count ++ "):\n" ++ body =
        "for " ++ x ++ " in range(" ++ count ++ ")" ++ ":\n" ++ body := by
      simp only [String.append_assoc]
      rfl
    rw [heq]
    exact stated_suite hfront (hbody hH)

theorem repetition_tells (hs : s.Vocal N H E) (hk : s.block.kind? = some .repetition) :
    Tells N H s.repetition (Chained N H) := by
  unfold repetition
  cases hfield : s.block.field? "TIMES" with
  | none =>
    refine (value_tells hs _ _ fixed_zero).bind fun times htimes => repeated_tells hs fun _ => ?_
    exact ⟨htimes.heard, htimes.rests, False.elim⟩
  | some v =>
    refine repeated_tells hs fun hH => (hs.quiet hH _ hk v.toText ?_).told
    rw [Block.rawTexts, hfield]
    exact List.mem_singleton_self _

theorem whileUntil_tells (hs : s.Vocal N H E) : Tells N H s.whileUntil (Chained N H) := by
  refine (compared_tells _ _ _).bind fun untilTrue _ => ?_
  refine (value_tells hs _ _ (by decide)).bind fun condition hcondition => ?_
  refine (loopBody_tells hs).bind fun body hbody => .pure (chained fun hH => ?_)
  have hopens : Opens ("while " ++ (if untilTrue then "not " else "")) := by
    cases untilTrue <;> decide
  exact stated_suite (hcondition.behind hopens) (hbody hH)

/-- A loop over a sequence. -/
theorem stated_loop {x sequence body : String} (hx : Told N E x) (hsequence : Told N E' sequence) (hbody : Stated N body) :
    Stated N ("for " ++ x ++ " in " ++ sequence ++ ":\n" ++ body) := by
  have hfor : Told N E ("for " ++ x) := hx.behind (by decide)
  exact stated_suite (hfor.around hsequence (by decide)) hbody

theorem forEach_tells (hs : s.Vocal N H E) : Tells N H s.forEach (Chained N H) := by
  refine (identifier_tells (E := E) _ _).bind fun x hx => (value_tells hs _ _ (by decide)).bind fun sequence hsequence => ?_
  exact (loopBody_tells hs).bind fun body hbody => .pure (chained fun hH => stated_loop hx hsequence (hbody hH))

theorem told_rangeArguments (first last : Int) (step : Nat) : Told N True (rangeArguments first last step) := by
  have hcomma : Opens ", " ∧ Parted ", " := by decide
  have hpair : ∀ a b : Int, Told N True (toString a ++ ", " ++ toString b) := by
    intro a b
    have ha : Told N True (toString a) := .int a
    exact ha.around (.int b) hcomma
  unfold rangeArguments
  split
  · have hbounds : Told N True (if first = 0 ∧ step = 1 then toString (last + 1)
        else toString first ++ ", " ++ toString (last + 1)) := by
      split
      · exact .int _
      · exact hpair _ _
    by_cases hstep : step = 1
    · rw [if_pos hstep, String.append_empty]
      exact hbounds
    · rw [if_neg hstep, ← String.append_assoc]
      exact hbounds.around (.nat step) hcomma
  · exact (hpair _ _).around (.nat step) (by decide)

theorem directedRange_tells (hs : s.Vocal N H E) (hk : s.block.kind? = some .counting) (first last : Number) :
    Tells N H (s.directedRange first last) (Told N E) := by
  unfold directedRange
  split
  · exact function_tells hs hk List.mem_cons_self
  · exact function_tells hs hk (List.mem_cons_of_mem _ List.mem_cons_self)

/-- Three arguments in brackets. -/
theorem told_three {first last step : String} (ha : Told N E first) (hb : Told N E last) (hc : Told N E step) :
    Told N True ("(" ++ first ++ ", " ++ last ++ ", " ++ step ++ ")") ∧
      Parted ("(" ++ first ++ ", " ++ last ++ ", " ++ step ++ ")") := by
  have hone : Told N E ("(" ++ first) := ha.behind (by decide)
  have htwo : Told N E ("(" ++ first ++ ", " ++ last) := hone.around hb (by decide)
  have hthree : Told N E ("(" ++ first ++ ", " ++ last ++ ", " ++ step) := htwo.around hc (by decide)
  refine ⟨hthree.closed (by decide), ?_⟩
  simp only [String.append_assoc]
  exact Parted.append (by decide) _

theorem knownSequence_tells (hs : s.Vocal N H E) (hk : s.block.kind? = some .counting) (first last step : Number) :
    Tells N H (s.knownSequence first last step) (Told N True) := by
  have hcall : ∀ {f : String} (a b c : Number), Told N E f →
      Told N True (f ++ "(" ++ a.literal ++ ", " ++ b.literal ++ ", " ++ c.literal ++ ")") := by
    intro f a b c hf
    obtain ⟨harguments, hparted⟩ := told_three (N := N) (E := True) (.number a) (.number b) (.number c)
    have heq : f ++ "(" ++ a.literal ++ ", " ++ b.literal ++ ", " ++ c.literal ++ ")" =
        f ++ ("(" ++ a.literal ++ ", " ++ b.literal ++ ", " ++ c.literal ++ ")") := by
      simp only [String.append_assoc]
    rw [heq]
    exact hf.append harguments hparted
  unfold knownSequence
  split
  · refine .pure ?_
    exact ((told_rangeArguments _ _ _).behind (by decide)).closed (by decide)
  · exact (directedRange_tells hs hk _ _).bind fun f hf => .pure (hcall _ _ _ hf)

theorem keepBound_tells {name suffix code : String} (hcode : Told N E code) :
    Tells N H (keepBound name suffix code) fun p => Told N True p.1.code ∧ Stated N p.2 := by
  have hfloat : Told N True ("float(" ++ code ++ ")") := (hcode.behind (by decide)).closed (by decide)
  unfold keepBound
  split
  · exact .throw _
  · split
    · exact .throw _
    · exact .pure ⟨.number _, .empty⟩
  · split
    · exact .pure ⟨hfloat, .empty⟩
    · refine (distinctIdentifier_tells (E := True) _ _).bind fun x hx => .pure ⟨hx, ?_⟩
      have hline : Told N E (x ++ " = float(" ++ code) := hx.around hcode (by decide)
      exact (hline.closedLine (E := False)).toStated

theorem boundSequence_tells (hs : s.Vocal N H E) (hk : s.block.kind? = some .counting) {first last step : Bound}
    (ha : Told N True first.code) (hb : Told N True last.code) (hc : Told N True step.code) : Tells N H (s.boundSequence first last step) (Told N True) := by
  obtain ⟨harguments, hparted⟩ := told_three ha hb hc
  unfold boundSequence
  dsimp only
  split
  · exact (directedRange_tells hs hk _ _).bind fun f hf => .pure (hf.append harguments hparted)
  · refine (function_tells hs hk List.mem_cons_self).bind fun up hup => ?_
    refine (function_tells hs hk (List.mem_cons_of_mem _ List.mem_cons_self)).bind fun down hdown => .pure ?_
    have hfirst : Told N E ("(" ++ up) := hup.behind (by decide)
    have hif : Told N True ("(" ++ up ++ " if " ++ first.code) := hfirst.around ha (by decide)
    have horder : Told N True ("(" ++ up ++ " if " ++ first.code ++ " <= " ++ last.code) := hif.around hb (by decide)
    have helse : Told N E ("(" ++ up ++ " if " ++ first.code ++ " <= " ++ last.code ++ " else " ++ down) :=
      horder.around hdown (by decide)
    have hchoice : Told N True ("(" ++ up ++ " if " ++ first.code ++ " <= " ++ last.code ++ " else " ++ down ++ ")") :=
      helse.closed (by decide)
    exact hchoice.append harguments hparted

theorem counting_tells (hs : s.Vocal N H E) (hk : s.block.kind? = some .counting) : Tells N H s.counting (Chained N H) := by
  refine (identifier_tells (E := E) _ _).bind fun x hx => (value_tells hs _ _ fixed_zero).bind fun first hfirst => ?_
  refine (value_tells hs _ _ fixed_zero).bind fun last hlast => (value_tells hs _ _ (by decide)).bind fun step hstep => ?_
  refine (loopBody_tells hs).bind fun body hbody => ?_
  dsimp only
  split
  · exact .throw _
  · exact (knownSequence_tells hs hk _ _ _).bind fun sequence hsequence => .pure (chained fun hH => stated_loop hx hsequence (hbody hH))
  · refine (keepBound_tells hfirst).bind fun a ha => (keepBound_tells hlast).bind fun b hb => ?_
    refine (keepBound_tells hstep).bind fun c hc => (boundSequence_tells hs hk ha.1 hb.1 hc.1).bind fun sequence hsequence => ?_
    exact .pure (chained fun hH => ((ha.2.append hb.2).append hc.2).append (stated_loop hx hsequence (hbody hH)))

theorem entry_tells (hs : s.Vocal N H E) : Tells N H s.entry (Chained N H) := by
  have hrest : Tells N H (do
      let always ← s.suite "LOOP_FUNC"
      return .statement ("while True:\n" ++ s.orEmptySuite always)) (Chained N H) := by
    refine (suite_tells hs _).bind fun body hbody => .pure (chained fun hH => ?_)
    have hwhile : Told N True "while True" := .fixed (by decide)
    exact stated_suite hwhile (orEmptySuite_stated hs (hbody hH))
  refine (lines_tells hs _).bind fun once honce => ?_
  split
  · exact (addSetup_tells fun hH => (honce hH).voiced).bind fun _ _ => hrest
  · exact hrest

end Suites

section Definitions

theorem addAssigned_tells {names : List Value} {found : List String} (name : Value) (hf : ∀ x ∈ found, Told N E x) :
    Tells N H (addAssigned names found name) fun found' => ∀ x ∈ found', Told N E x := by
  have hrest : Tells N H (if names.contains name then pure found else do
      let x ← variableName name
      pure (if found.contains x then found else found ++ [x])) fun found' => ∀ x ∈ found', Told N E x := by
    split
    · exact .pure hf
    · refine (identifier_tells (E := E) _ _).bind fun x hx => .pure ?_
      split
      · exact hf
      · exact List.forall_mem_append.mpr ⟨hf, List.forall_mem_singleton.mpr hx⟩
  unfold addAssigned
  cases name.isKey with
  | false => exact Tells.bind (P := fun _ => False) (.throw _) fun _ hfalse => hfalse.elim
  | true => exact hrest

theorem assignedGlobals_tells : Tells N H s.assignedGlobals fun globals => ∀ x ∈ globals, Told N E x := by
  unfold assignedGlobals
  cases s.block.child? "STACK" with
  | none => exact .pure (List.forall_mem_nil _)
  | some start =>
    have hkeys : Tells N H s.argumentKeys fun _ => True := by
      unfold argumentKeys
      refine arguments_tells.bind fun names _ => ?_
      split
      · exact .pure trivial
      · exact .throw _
    refine hkeys.bind fun names _ => ?_
    have hfold : ∀ (vs : List Value) (found : List String), (∀ x ∈ found, Told N E x) →
        Tells N H (vs.foldlM (addAssigned names) found) fun globals => ∀ x ∈ globals, Told N E x := by
      intro vs
      induction vs with
      | nil => exact fun found hf => .pure hf
      | cons v vs ih =>
        intro found hf
        rw [List.foldlM_cons]
        exact (addAssigned_tells v hf).bind ih
    exact hfold _ [] (List.forall_mem_nil _)

/-- A line of a suite with a word in front. -/
theorem stated_worded {word code : String} (hword : Opens ("    " ++ word)) (hcode : Told N E code) :
    Stated N ("    " ++ word ++ code ++ "\n") :=
  (hcode.behind hword).line.toStated

theorem definitionUnder_tells (hs : s.Vocal N H E) {name : String} (hname : Told N E name) :
    Tells N H (s.definitionUnder name) fun text => H → Stated N text := by
  obtain ⟨extra, hsettings⟩ := hs.settings
  obtain ⟨hloop, hstatement⟩ := injected_empty hs
  refine (suite_tells hs _).bind fun code hcode => (valueAt_spoken hs "RETURN" _ "").bind fun result hresult => ?_
  refine (assignedGlobals_tells (E := E)).bind fun globals hglobals => arguments_tells.bind fun names _ => ?_
  refine (Tells.mapM _ fun v _ => identifier_tells (E := E) .variable v).bind fun parameters hparameters => ?_
  refine placed_tells hs fun hH => ?_
  have hheader : Stated N ("def " ++ name ++ "(" ++ Text.joined ", " parameters ++ "):\n") := by
    have hcall : Told N True (name ++ "(" ++ Text.joined ", " parameters ++ ")") := hname.call hparameters.2
    have hdef : Told N True ("def " ++ (name ++ "(" ++ Text.joined ", " parameters ++ ")")) := hcall.behind (by decide)
    have hline := (hdef.header (E := False)).toStated
    have heq : "def " ++ (name ++ "(" ++ Text.joined ", " parameters ++ ")") ++ ":\n" =
        "def " ++ name ++ "(" ++ Text.joined ", " parameters ++ "):\n" := by
      simp only [String.append_assoc]
      rfl
    rwa [heq] at hline
  have hglobal : Stated N (if globals.isEmpty then "" else
      s.settings.indent ++ "global " ++ Text.joined ", " globals ++ "\n") := by
    split
    · exact .empty
    · rename_i hne
      rw [hsettings]
      refine stated_worded (by decide) (.joined (by decide) ?_ hglobals)
      rwa [List.isEmpty_iff] at hne
  have hbody : Stated N (s.bodyMarks ++ code) := by
    rw [bodyMarks, hloop, hstatement, String.empty_append, String.empty_append]
    exact hcode hH
  have hsuite : Stated N (if result.isEmpty then s.orEmptySuite (s.bodyMarks ++ code) else s.bodyMarks ++ code) := by
    split
    · exact orEmptySuite_stated hs hbody
    · exact hbody
  have hreturn : Stated N (if result.isEmpty then "" else s.settings.indent ++ "return " ++ result ++ "\n") := by
    split
    · exact .empty
    · rename_i hne
      rw [hsettings]
      refine stated_worded (by decide) (hresult.resolve_left ?_)
      rwa [String.isEmpty_iff] at hne
  exact ((hheader.append hglobal).append hsuite).append hreturn

theorem procedure_tells (hs : s.Vocal N H E) : Tells N H s.procedure (Chained N H) := by
  rw [procedure_eq]
  have hdefinition : Tells N H s.definition fun d => H → Stated N d.2 :=
    (identifier_tells (E := E) _ _).bind fun name hname => (definitionUnder_tells hs hname).bind fun _ htext => .pure htext
  refine hdefinition.bind fun d hd => (addProcedure_tells fun hH => (hd hH).voiced).bind fun _ _ => ?_
  exact .pure (Or.inl rfl)

end Definitions

/-- What a rule writes out; only the rules of value blocks write out a value. -/
theorem standard_tells (hs : s.Vocal N H E) {kind : BlockKind} (hk : s.block.kind? = some kind) :
    Tells N H (s.standard kind) fun o =>
      o.Spoken N H E ∧ ∀ code rank, o = .expression code rank → kind.isValue = true := by
  have hchained : Tells N H (s.standard kind) (Chained N H) → Tells N H (s.standard kind) fun o =>
      o.Spoken N H E ∧ ∀ code rank, o = .expression code rank → kind.isValue = true := by
    intro h
    refine h.imp ?_
    rintro o (rfl | ⟨code, rfl, hcode⟩)
    · exact ⟨trivial, nofun⟩
    · exact ⟨hcode, nofun⟩
  by_cases hlines : kind.holdsLines = true
  · apply hchained
    cases kind with
    | conditional alwaysElse => exact conditional_tells hs alwaysElse
    | repetition => exact repetition_tells hs hk
    | whileUntil => exact whileUntil_tells hs
    | counting => exact counting_tells hs hk
    | forEach => exact forEach_tells hs
    | entry => exact entry_tells hs
    | procedure returns => exact procedure_tells hs
    | _ => cases hlines
  · rw [Bool.not_eq_true] at hlines
    cases hvalue : kind.isValue with
    | true =>
      refine (valueRule_tells hs hk hvalue).imp ?_
      rintro o ⟨code, rank, rfl, hcode⟩
      exact ⟨hcode, fun _ _ _ => rfl⟩
    | false =>
      rw [hvalue] at hchained
      refine hchained ((lineRule_tells hs hk hvalue hlines).imp ?_)
      rintro o ⟨code, rfl, hcode⟩
      exact chained fun _ => hcode.toStated

end Scene

end BlockScript
