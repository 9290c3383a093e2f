import BlockScript.Proofs.InjectedLines
import BlockScript.Proofs.ProcedureTexts

namespace BlockScript

open Text Run

variable {n : Nat}

/-- The same output, but for marks and fillers in lines. -/
inductive Output.Twined (M F : List Char → Prop) : Output → Output → Prop where
  | nothing : Twined M F .nothing .nothing
  | expression (code : String) (rank : Rank) : Twined M F (.expression code rank) (.expression code rank)
  | statement {code code' : String} : BlockScript.Twined M F code code' → Twined M F (.statement code) (.statement code')

/-- An output without its lines. -/
def Output.blur : Output → Output
  | .statement _ => .statement ""
  | o => o

theorem Output.Twined.blur_eq {M F : List Char → Prop} {o o' : Output} (h : o.Twined M F o') : o.blur = o'.blur := by
  cases h <;> rfl

/-- What a run gives in plain sessions, the first of two runs gives. -/
theorem Run.Twins.and_gives {M F : List Char → Prop} {α β : Type} {P : α → β → Prop} {Q : α → Prop} {r : Run α} {r' : Run β}
    (h : Twins (Session.Twined M F) P r r') (hr : ∀ u, Gives u r Q) :
    Twins (Session.Twined M F) (fun a b => P a b ∧ Q a) r r' := by
  intro s s' hs
  obtain ⟨ht, halike⟩ := h s s' hs
  refine ⟨ht, ?_⟩
  cases hrun : r.run s with
  | mk result t =>
    rw [hrun] at halike
    generalize (r'.run s').1 = result' at halike
    cases halike with
    | error f => exact .error f
    | ok hab => exact .ok ⟨hab, (hr t).gives hrun hs.plain (.refl t)⟩

namespace Scene

/-- The scene without templates. -/
def bare (s : Scene n) (emit : Option (Fin n) → Run Output) : Scene n :=
  ⟨{ s.job with settings := s.settings.bare }, s.index, emit⟩

theorem bare_block (s : Scene n) (emit : Option (Fin n) → Run Output) : (s.bare emit).block = s.block := rfl

/-- The lines of a definition below its first line and that of its variables. -/
def bodyLines (s : Scene n) (code result : String) : String :=
  if result = "" then s.orEmptySuite (s.bodyMarks ++ code)
  else s.bodyMarks ++ code ++ (s.settings.indent ++ "return " ++ result ++ "\n")

/-- The text of a definition from its parts. -/
def definitionText (s : Scene n) (name code result : String) (globals parameters : List String) : String :=
  "def " ++ name ++ "(" ++ joined ", " parameters ++ "):\n" ++
    (if globals.isEmpty then "" else s.settings.indent ++ "global " ++ joined ", " globals ++ "\n") ++ s.bodyLines code result

theorem definitionText_eq (s : Scene n) (name code result : String) (globals parameters : List String) :
    "def " ++ name ++ "(" ++ joined ", " parameters ++ "):\n" ++
      (if globals.isEmpty then "" else s.settings.indent ++ "global " ++ joined ", " globals ++ "\n") ++
      (if result.isEmpty then s.orEmptySuite (s.bodyMarks ++ code) else s.bodyMarks ++ code) ++
      (if result.isEmpty then "" else s.settings.indent ++ "return " ++ result ++ "\n") =
    s.definitionText name code result globals parameters := by
  unfold definitionText bodyLines
  by_cases hresult : result = ""
  · have hempty : result.isEmpty = true := by simpa using hresult
    rw [if_pos hresult, if_pos hempty, if_pos hempty, String.append_empty]
  · have hsome : ¬ result.isEmpty = true := by simpa using hresult
    rw [if_neg hresult, if_neg hsome, if_neg hsome, String.append_assoc]

theorem procedure_eq_text (s : Scene n) : s.procedure = do
    let name ← s.procedureOf
    let code ← s.suite "STACK"
    let result ← s.value "RETURN" .none ""
    let globals ← s.assignedGlobals
    let parameters ← (← s.arguments).mapM variableName
    addProcedure name (← s.placed (s.definitionText name code result globals parameters))
    return .nothing := by
  simp only [procedure, definitionText_eq]

/-- A scene in which the blocks below are written out as in the scene without templates, but for marks and fillers. -/
structure Instrumented (M F : List Char → Prop) (s : Scene n) (emit : Option (Fin n) → Run Output) : Prop where
  settings : s.settings.LineByLine
  rules : s.job.rules = {}
  seam : Seam s.settings.indent.toList M F
  marks : ∀ t ∈ s.settings.templates, Weaves M F (s.inject t) ""
  fillers : F (s.settings.indent ++ s.settings.emptySuite).toList
  comments : s.comments = ""
  alone : s.block.isValue = true → s.block.next = none
  none : Twins (Session.Twined M F) (fun o o' => o = .nothing ∧ o' = .nothing) (s.emit none) (emit none)
  below : ∀ p, Twins (Session.Twined M F) (Output.Twined M F) (s.emit (s.block.at? p)) (emit (s.block.at? p))
  closed : ∀ u name, Gives u (s.emit (s.block.child? name)) Output.Closed
  grows : ∀ p, (s.emit (s.block.at? p)).Within Session.Grows

namespace Instrumented

variable {M F : List Char → Prop} {s : Scene n} {emit : Option (Fin n) → Run Output}

theorem valueAt (h : s.Instrumented M F emit) (name : String) (outer : Rank) (default : String) :
    Twins (Session.Twined M F) Eq (s.valueAt name outer default) ((s.bare emit).valueAt name outer default) := by
  have hbelow : Twins _ _ (s.emit (s.block.child? name)) (emit (s.block.child? name)) := h.below (.slot name)
  unfold Scene.valueAt
  rw [bare_block]
  cases hchild : s.block.child? name with
  | none => exact .pure rfl
  | some child =>
    rw [hchild] at hbelow
    refine hbelow.bind fun o o' ho => ?_
    cases ho with
    | nothing => exact .pure rfl
    | expression code rank => exact .pure rfl
    | statement hcode => exact .throw _

theorem value (h : s.Instrumented M F emit) (name : String) (outer : OperatorClass) (default : String) :
    Twins (Session.Twined M F) Eq (s.value name outer default) ((s.bare emit).value name outer default) :=
  h.valueAt name outer.rank default

theorem lines (h : s.Instrumented M F emit) (name : String) :
    Twins (Session.Twined M F) (Twined M F) (s.lines name) ((s.bare emit).lines name) := by
  have hbelow : Twins _ _ (s.emit (s.block.child? name)) (emit (s.block.child? name)) := h.below (.slot name)
  unfold Scene.lines
  rw [bare_block]
  dsimp only
  cases hchild : s.block.child? name with
  | none =>
    refine h.none.bind fun o o' ho => ?_
    rw [ho.1, ho.2]
    exact .pure .empty_refl
  | some child =>
    rw [hchild] at hbelow
    refine hbelow.bind fun o o' ho => ?_
    cases ho with
    | nothing => exact .pure .empty_refl
    | expression code rank => exact .throw _
    | statement hcode => exact .pure hcode

theorem nextLines (h : s.Instrumented M F emit) :
    Twins (Session.Twined M F) (Twined M F) s.nextLines (s.bare emit).nextLines := by
  have hbelow : Twins _ _ (s.emit s.block.next) (emit s.block.next) := h.below .next
  unfold Scene.nextLines
  rw [bare_block]
  cases hnext : s.block.next with
  | none =>
    refine h.none.bind fun o o' ho => ?_
    rw [ho.1, ho.2]
    exact .pure .empty_refl
  | some next =>
    rw [hnext] at hbelow
    refine hbelow.bind fun o o' ho => ?_
    cases ho with
    | nothing => exact .pure .empty_refl
    | expression code rank => exact .throw _
    | statement hcode => exact .pure hcode

theorem suite (h : s.Instrumented M F emit) (name : String) :
    Twins (Session.Twined M F) (Twined M F) (s.suite name) ((s.bare emit).suite name) :=
  (h.lines name).bind fun _ _ hcode => .pure (hcode.deeper h.seam)

theorem injected (h : s.Instrumented M F emit) {template : Option String} (ht : ∀ t ∈ template, t ∈ s.settings.templates) :
    Weaves M F (s.injected template) "" := by
  cases template with
  | none => exact .refl (Or.inl rfl)
  | some t =>
    -- not against the goal, where unification would unfold what the template becomes
    have hdeeper := (h.marks t (ht t rfl)).deeper h.seam
    exact hdeeper

theorem loopMark (h : s.Instrumented M F emit) : Weaves M F (s.injected s.settings.loopMark?) "" :=
  h.injected fun _ ht => List.mem_append_right _ (Option.mem_toList.mpr ht)

theorem statementMark (h : s.Instrumented M F emit) : Weaves M F (s.injected s.settings.statementMark?) "" :=
  h.injected fun _ ht => List.mem_append_left _ (Option.mem_toList.mpr ht)

theorem emptyLine (h : s.Instrumented M F emit) : Weaves M F "" s.settings.emptyLine :=
  .filler h.fillers (h.settings.ended.append _)

/-- A suite that would be empty without marks has a filler where they are missing. -/
theorem orEmptySuite (h : s.Instrumented M F emit) {code code' : String} (hcode : Weaves M F code code')
    (hempty : code = "" → code' = "") : Weaves M F (s.orEmptySuite code) ((s.bare emit).orEmptySuite code') := by
  have hfiller : (s.bare emit).settings.emptyLine = s.settings.emptyLine := rfl
  unfold Scene.orEmptySuite
  rw [hfiller]
  by_cases hcode' : code' = ""
  · subst hcode'
    rw [if_pos (by decide : "".isEmpty = true)]
    split
    · exact .refl h.emptyLine.second
    · have hfilled := hcode.append h.emptyLine
      rwa [String.append_empty, String.empty_append] at hfilled
  · rw [if_neg (by simpa using mt hempty hcode'), if_neg (by simpa using hcode')]
    exact hcode

theorem loopBody (h : s.Instrumented M F emit) :
    Twins (Session.Twined M F) (Weaves M F) s.loopBody (s.bare emit).loopBody := by
  refine (h.suite "DO").bind fun code code' hcode => .pure (h.orEmptySuite ?_ ?_)
  · exact (h.loopMark.append hcode.toWeaves).append h.statementMark
  · intro hnone
    rw [instrument, String.append_eq_empty_iff, String.append_eq_empty_iff] at hnone
    have hbare : (s.bare emit).instrument code' = "" ++ code' ++ "" := rfl
    rw [hbare, hcode.empty.mp hnone.1.2]
    rfl

section Leaves

theorem valueAt_blur (s : Scene n) (emit : Option (Fin n) → Run Output) (name : String) (outer : Rank) (default : String) :
    (s.withEmit fun o => do return (← emit o).blur).valueAt name outer default =
      (s.withEmit emit).valueAt name outer default := by
  unfold Scene.valueAt
  rw [withEmit_block, withEmit_block]
  cases s.block.child? name with
  | none => rfl
  | some child =>
    simp only [withEmit, bind_assoc, pure_bind]
    congr 1
    funext o
    cases o <;> rfl

theorem isProcedure_eq_false {kind : BlockKind} (hk : s.block.kind? = some kind) (hlines : kind.holdsLines = false) :
    Workspace.isProcedure s.block = false := by
  rw [Workspace.isProcedure, hk]
  cases kind with
  | procedure returns => cases hlines
  | _ => rfl

/-- A rule that writes out no lines of other blocks gives the same with and without templates. -/
theorem leaf (h : s.Instrumented M F emit) {kind : BlockKind} (hk : s.block.kind? = some kind)
    (hlines : kind.holdsLines = false) :
    Twins (Session.Twined M F) (Output.Twined M F) (s.standard kind) ((s.bare emit).standard kind) := by
  -- The rule sees of other blocks only values, so that their lines may be left out on both sides.
  let blurred (e : Option (Fin n) → Run Output) (o : Option (Fin n)) : Run Output := do return (← e o).blur
  have hfirst : s.Resembles (s.withEmit (blurred s.emit)) :=
    ⟨rfl, rfl, rfl, rfl, rfl, rfl, fun name outer default => (valueAt_blur s s.emit name outer default).symm⟩
  have hsecond : (s.withEmit (blurred emit)).Resembles (s.bare emit) :=
    ⟨rfl, rfl, rfl, rfl, rfl, rfl, valueAt_blur s emit⟩
  obtain ⟨ps, -, hscript⟩ : (s.withEmit (blurred s.emit)).Asks (blurred emit) ((s.withEmit (blurred s.emit)).standard kind)
      ((s.withEmit (blurred emit)).standard kind) := standard_asks hk
  have htwins : Twins (Session.Twined M F) Eq (s.standard kind) ((s.bare emit).standard kind) := by
    rw [hfirst.standard_eq hlines, ← hsecond.standard_eq hlines]
    refine (hscript.twins (fun d hd => d.woven (isProcedure_eq_false hk hlines) hd) fun p => ?_).imp fun _ _ ho => ho.1
    exact (h.below p).bind fun o o' ho => .pure ho.blur_eq
  have hshut : ∀ u, Gives u (s.standard kind) Output.Shut := by
    intro u
    cases hvalue : kind.isValue with
    | true => exact value_shut (h.closed u) hvalue
    | false => exact line_shut (h.closed u) h.settings.ended hvalue hlines
  refine (htwins.and_gives hshut).imp ?_
  rintro o _ ⟨rfl, ho⟩
  cases o with
  | nothing => exact .nothing
  | expression code rank => exact .expression code rank
  | statement code => exact .statement (.refl ho)

end Leaves

section Lines

/-- A line that opens a suite, with the suite below it. -/
theorem opened {opening body body' : String} (h : Weaves M F body body') (hopening : Firm opening) (hne : opening ≠ "") :
    Twined M F (opening ++ body) (opening ++ body') :=
  .of_ne_empty (h.below hopening) (by simp [hne]) (by simp [hne])

theorem opened_colon {body body' : String} (h : Weaves M F body body') (opening : String) :
    Twined M F (opening ++ ":\n" ++ body) (opening ++ ":\n" ++ body') :=
  opened h ((by decide : Ended ":").firm_behind opening) (by simp)

theorem opened_call {body body' : String} (h : Weaves M F body body') (opening : String) :
    Twined M F (opening ++ "):\n" ++ body) (opening ++ "):\n" ++ body') :=
  opened h ((by decide : Ended "):").firm_behind opening) (by simp)

theorem filledSuite (h : s.Instrumented M F emit) {code code' : String} (hcode : Twined M F code code') :
    Weaves M F (s.orEmptySuite code) ((s.bare emit).orEmptySuite code') :=
  h.orEmptySuite hcode.toWeaves hcode.empty.mp

theorem compared_woven {α : Type} (name default : String) (table : List (String × α)) :
    Twins (Session.Twined M F) Eq (s.compared name default table) ((s.bare emit).compared name default table) := by
  have hbare : (s.bare emit).compared name default table = s.compared name default table := rfl
  rw [hbare]
  unfold Scene.compared
  split
  · exact .pure rfl
  · exact .throw _

theorem function_woven (f : FunctionText) : Twins (Session.Twined M F) Eq (s.function f) (s.function f) :=
  provide_woven _ _

theorem branch (h : s.Instrumented M F emit) (k : Nat) :
    Twins (Session.Twined M F) (Twined M F) (s.branch k) ((s.bare emit).branch k) := by
  refine (h.value _ _ _).bind ?_
  rintro condition _ rfl
  exact (h.suite _).bind fun code code' hcode => .pure (opened_colon (h.filledSuite hcode) _)

theorem conditional (h : s.Instrumented M F emit) (alwaysElse : Bool) :
    Twins (Session.Twined M F) (Output.Twined M F) (s.conditional alwaysElse) ((s.bare emit).conditional alwaysElse) := by
  have hbranches : Twins (Session.Twined M F) (List.Forall₂ (Twined M F)) (s.branchNumbers.mapM s.branch)
      (s.branchNumbers.mapM (s.bare emit).branch) := by
    apply Twins.mapM (List.forall₂_same.mpr fun _ _ => rfl)
    rintro k _ rfl
    exact h.branch k
  refine hbranches.bind fun codes codes' hcodes => ?_
  have hcode := Twined.joined hcodes
  rw [bare_block]
  dsimp only
  split
  · refine (h.suite "ELSE").bind fun last last' hlast => .pure (.statement ?_)
    rw [String.append_assoc, String.append_assoc]
    exact hcode.append (opened (h.filledSuite hlast) (by decide : Ended "else:").firm (by decide))
  · exact .pure (.statement hcode)

theorem repeated (h : s.Instrumented M F emit) (times : String) :
    Twins (Session.Twined M F) (Output.Twined M F) (s.repeated times) ((s.bare emit).repeated times) := by
  unfold Scene.repeated
  split
  · exact .throw _
  · refine Twins.bind (distinctIdentifier_woven _ _) ?_
    rintro counter _ rfl
    exact h.loopBody.bind fun body body' hbody => .pure (.statement (opened_call hbody _))

theorem repetition (h : s.Instrumented M F emit) :
    Twins (Session.Twined M F) (Output.Twined M F) s.repetition (s.bare emit).repetition := by
  unfold Scene.repetition
  rw [bare_block]
  split
  · exact h.repeated _
  · refine (h.value _ _ _).bind ?_
    rintro times _ rfl
    exact h.repeated times

theorem whileUntil (h : s.Instrumented M F emit) :
    Twins (Session.Twined M F) (Output.Twined M F) s.whileUntil (s.bare emit).whileUntil := by
  refine (compared_woven _ _ _).bind ?_
  rintro untilTrue _ rfl
  refine (h.value _ _ _).bind ?_
  rintro condition _ rfl
  exact h.loopBody.bind fun body body' hbody => .pure (.statement (opened_colon hbody _))

theorem forEach (h : s.Instrumented M F emit) :
    Twins (Session.Twined M F) (Output.Twined M F) s.forEach (s.bare emit).forEach := by
  refine (identifier_woven _ _).bind ?_
  rintro name _ rfl
  refine (h.value _ _ _).bind ?_
  rintro sequence _ rfl
  exact h.loopBody.bind fun body body' hbody => .pure (.statement (opened_colon hbody _))

theorem directedRange_woven (first last : Number) :
    Twins (Session.Twined M F) Eq (s.directedRange first last) (s.directedRange first last) := by
  unfold Scene.directedRange
  split
  · exact function_woven _
  · exact function_woven _

theorem knownSequence_woven (first last step : Number) :
    Twins (Session.Twined M F) Eq (s.knownSequence first last step) (s.knownSequence first last step) := by
  unfold Scene.knownSequence
  split
  · exact .pure rfl
  · refine (directedRange_woven _ _).bind ?_
    rintro function _ rfl
    exact .pure rfl

theorem boundSequence_woven (first last step : Bound) :
    Twins (Session.Twined M F) Eq (s.boundSequence first last step) (s.boundSequence first last step) := by
  unfold Scene.boundSequence
  dsimp only
  split
  · refine (directedRange_woven _ _).bind ?_
    rintro function _ rfl
    exact .pure rfl
  · refine (function_woven _).bind ?_
    rintro up _ rfl
    refine (function_woven _).bind ?_
    rintro down _ rfl
    exact .pure rfl

theorem keepBound_woven (name suffix code : String) :
    Twins (Session.Twined M F) (fun a b => a = b ∧ Firm a.2) (keepBound name suffix code) (keepBound name suffix code) := by
  unfold keepBound
  split
  · exact .throw _
  · split
    · exact .throw _
    · exact .pure ⟨rfl, Or.inl rfl⟩
  · split
    · exact .pure ⟨rfl, Or.inl rfl⟩
    · refine Twins.bind (distinctIdentifier_woven _ _) ?_
      rintro kept _ rfl
      exact .pure ⟨rfl, (by decide : Ended ")").firm_behind _⟩

theorem counting (h : s.Instrumented M F emit) :
    Twins (Session.Twined M F) (Output.Twined M F) s.counting (s.bare emit).counting := by
  refine (identifier_woven _ _).bind ?_
  rintro name _ rfl
  refine (h.value _ _ _).bind ?_
  rintro first _ rfl
  refine (h.value _ _ _).bind ?_
  rintro last _ rfl
  refine (h.value _ _ _).bind ?_
  rintro step _ rfl
  refine h.loopBody.bind fun body body' hbody => ?_
  dsimp only
  split
  · exact .throw _
  · refine (knownSequence_woven _ _ _).bind ?_
    rintro sequence _ rfl
    exact .pure (.statement (opened_colon hbody _))
  · refine (keepBound_woven _ _ _).bind ?_
    rintro ⟨a, keptA⟩ _ ⟨rfl, hA⟩
    refine (keepBound_woven _ _ _).bind ?_
    rintro ⟨b, keptB⟩ _ ⟨rfl, hB⟩
    refine (keepBound_woven _ _ _).bind ?_
    rintro ⟨c, keptC⟩ _ ⟨rfl, hC⟩
    refine (boundSequence_woven _ _ _).bind ?_
    rintro sequence _ rfl
    exact .pure (.statement ((Twined.refl ((hA.append hB).append hC)).append (opened_colon hbody _)))

theorem entry (h : s.Instrumented M F emit) :
    Twins (Session.Twined M F) (Output.Twined M F) s.entry (s.bare emit).entry := by
  refine (h.lines "SETUP_FUNC").bind fun once once' honce => ?_
  have hempty : once.isEmpty = once'.isEmpty := by
    rw [Bool.eq_iff_iff, String.isEmpty_iff, String.isEmpty_iff, honce.empty]
  have hloop : Twins (Session.Twined M F) (Output.Twined M F)
      (do return .statement ("while True:\n" ++ s.orEmptySuite (← s.suite "LOOP_FUNC")))
      (do return .statement ("while True:\n" ++ (s.bare emit).orEmptySuite (← (s.bare emit).suite "LOOP_FUNC"))) := by
    refine (h.suite _).bind fun code code' hcode => .pure (.statement ?_)
    exact opened (h.filledSuite hcode) (by decide : Ended "while True:").firm (by decide)
  dsimp only
  rw [hempty]
  split
  · exact (addSetup_woven (Or.inr ⟨rfl, honce⟩) fun _ => rfl).bind fun _ _ _ => hloop
  · exact hloop

theorem addAssigned_woven (arguments : List Value) (found : List String) (name : Value) :
    Twins (Session.Twined M F) Eq (addAssigned arguments found name) (addAssigned arguments found name) := by
  unfold addAssigned
  by_cases hkey : name.isKey = true
  · by_cases hmem : arguments.contains name = true
    · simp only [hkey, hmem]
      exact .pure rfl
    · simp only [hkey, hmem]
      refine Twins.bind (identifier_woven _ _) ?_
      rintro identifier _ rfl
      exact .pure rfl
  · simp only [hkey]
    exact .throw _

theorem arguments_woven : Twins (Session.Twined M F) Eq s.arguments s.arguments := by
  unfold Scene.arguments
  split
  · exact .pure rfl
  · exact .throw _

theorem assignedGlobals_woven : Twins (Session.Twined M F) Eq s.assignedGlobals s.assignedGlobals := by
  have hfold : ∀ arguments names found, Twins (Session.Twined M F) Eq (List.foldlM (addAssigned arguments) found names)
      (List.foldlM (addAssigned arguments) found names) := by
    intro arguments names
    induction names with
    | nil => exact fun found => .pure rfl
    | cons name names ih =>
      intro found
      rw [List.foldlM_cons]
      refine (addAssigned_woven _ _ _).bind ?_
      rintro more _ rfl
      exact ih more
  unfold Scene.assignedGlobals
  split
  · exact .pure rfl
  · have hkeys : Twins (Session.Twined M F) Eq s.argumentKeys s.argumentKeys := by
      refine arguments_woven.bind ?_
      rintro names _ rfl
      split
      · exact .pure rfl
      · exact .throw _
    refine hkeys.bind ?_
    rintro arguments _ rfl
    exact hfold _ _ _

theorem placed (h : s.Instrumented M F emit) {code code' : String} (hcode : Twined M F code code') :
    Twins (Session.Twined M F) (fun text text' => Twined M F text text' ∧ (code ≠ "" → text ≠ "")) (s.placed code)
      ((s.bare emit).placed code') := by
  have hbare : (s.bare emit).comments = s.comments := rfl
  refine h.nextLines.bind fun rest rest' hrest => .pure ?_
  rw [hbare, h.comments, String.empty_append, String.empty_append]
  exact ⟨hcode.append hrest, fun hne hnone => hne (String.append_eq_empty_iff.mp hnone).1⟩

section Definitions

theorem bodyMarks (h : s.Instrumented M F emit) {code code' : String} (hcode : Twined M F code code') :
    Weaves M F (s.bodyMarks ++ code) ((s.bare emit).bodyMarks ++ code') :=
  (h.loopMark.append h.statementMark).append hcode.toWeaves

theorem orEmptySuite_ne_empty (s : Scene n) (code : String) : s.orEmptySuite code ≠ "" := by
  unfold Scene.orEmptySuite
  split
  · simp [Settings.emptyLine]
  · rename_i hne
    simpa using hne

/-- The lines of a definition below its first line and that of its variables. -/
theorem bodyLines (h : s.Instrumented M F emit) {code code' result : String} (hcode : Twined M F code code')
    (hresult : result = "" ∨ Ended result) :
    Weaves M F (s.bodyLines code result) ((s.bare emit).bodyLines code' result) ∧
      s.bodyLines code result ≠ "" ∧ (s.bare emit).bodyLines code' result ≠ "" := by
  unfold Scene.bodyLines
  obtain rfl | hresult := hresult
  · rw [if_pos rfl, if_pos rfl]
    refine ⟨h.orEmptySuite (h.bodyMarks hcode) fun hnone => ?_, orEmptySuite_ne_empty _ _, orEmptySuite_ne_empty _ _⟩
    rw [hcode.empty.mp (String.append_eq_empty_iff.mp hnone).2]
    rfl
  · rw [if_neg hresult.ne_empty, if_neg hresult.ne_empty]
    exact ⟨(h.bodyMarks hcode).append (.refl (hresult.append _).firm), by simp, by simp⟩

theorem definitionText (h : s.Instrumented M F emit) {code code' result : String} (hcode : Twined M F code code')
    (hresult : result = "" ∨ Ended result) (name : String) (globals parameters : List String) :
    Twined M F (s.definitionText name code result globals parameters)
      ((s.bare emit).definitionText name code' result globals parameters) := by
  obtain ⟨hlines, hne, hne'⟩ := h.bodyLines hcode hresult
  have hsettings : (s.bare emit).settings.indent = s.settings.indent := rfl
  unfold Scene.definitionText
  rw [hsettings]
  split
  · rw [String.append_empty]
    exact opened_call hlines _
  · refine .of_ne_empty ?_ (by simp) (by simp)
    rw [← String.append_assoc]
    exact hlines.behind hne hne' _

theorem procedure (h : s.Instrumented M F emit) :
    Twins (Session.Twined M F) (Output.Twined M F) s.procedure (s.bare emit).procedure := by
  rw [procedure_eq_text, procedure_eq_text]
  refine (identifier_woven _ _).bind ?_
  rintro name _ rfl
  refine (h.suite "STACK").bind fun code code' hcode => ?_
  refine ((h.value "RETURN" .none "").and_gives fun u => valueAt_closed (h.closed u) _ _ _).bind ?_
  rintro result _ ⟨rfl, hresult⟩
  refine assignedGlobals_woven.bind ?_
  rintro globals _ rfl
  refine arguments_woven.bind ?_
  rintro arguments _ rfl
  have hparameters : Twins (Session.Twined M F) Eq (arguments.mapM variableName) (arguments.mapM variableName) := by
    refine (Twins.mapM (List.forall₂_same.mpr fun _ _ => rfl) ?_).imp fun _ _ hnames => List.forall₂_eq_eq_eq ▸ hnames
    rintro argument _ rfl
    exact identifier_woven _ _
  refine hparameters.bind ?_
  rintro parameters _ rfl
  refine (h.placed (h.definitionText hcode hresult name globals parameters)).bind fun text text' htext => ?_
  refine (addProcedure_woven htext.1 (htext.2 ?_) name).bind fun _ _ _ => .pure .nothing
  simp [Scene.definitionText]

end Definitions

end Lines

/-- Every rule gives the same with and without templates, but for marks and fillers. -/
theorem standard (h : s.Instrumented M F emit) {kind : BlockKind} (hk : s.block.kind? = some kind) :
    Twins (Session.Twined M F) (Output.Twined M F) (s.standard kind) ((s.bare emit).standard kind) := by
  cases hlines : kind.holdsLines with
  | false => exact h.leaf hk hlines
  | true =>
    cases kind with
    | conditional alwaysElse => exact h.conditional alwaysElse
    | repetition => exact h.repetition
    | whileUntil => exact h.whileUntil
    | counting => exact h.counting
    | forEach => exact h.forEach
    | entry => exact h.entry
    | procedure returns => exact h.procedure
    | _ => cases hlines

theorem ruleOutput (h : s.Instrumented M F emit) :
    Twins (Session.Twined M F) (Output.Twined M F) s.ruleOutput (s.bare emit).ruleOutput := by
  have hrules : (s.bare emit).job.rules = {} := h.rules
  rw [ruleOutput_eq h.rules, ruleOutput_eq hrules, bare_block]
  cases hk : s.block.kind? with
  | some kind => exact h.standard hk
  | none =>
    refine (record_woven _).bind fun _ _ _ => .pure ?_
    cases s.block.hasOutput with
    | true => exact .expression _ _
    | false => exact .statement .empty_refl

/-- The mark in front of a statement, where there is one. -/
theorem marked (h : s.Instrumented M F emit) {code code' : String} (hcode : Twined M F code code') :
    Twined M F (if code.isEmpty then code else s.statementMark ++ code)
      (if code'.isEmpty then code' else (s.bare emit).statementMark ++ code') := by
  have hmark : Weaves M F s.statementMark "" := by
    unfold Scene.statementMark
    cases hmark : s.settings.statementMark? with
    | none => exact .refl (Or.inl rfl)
    | some t => exact h.marks t (List.mem_append_left _ (Option.mem_toList.mpr hmark))
  by_cases hne : code = ""
  · rw [hne, hcode.empty.mp hne]
    exact .empty_refl
  · have hne' : code' ≠ "" := mt hcode.empty.mpr hne
    rw [if_neg (by simpa using hne), if_neg (by simpa using hne')]
    exact .of_ne_empty (hmark.append hcode.toWeaves) (by simp [hne]) (by simp [hne'])

theorem output (h : s.Instrumented M F emit) :
    Twins (Session.Twined M F) (Output.Twined M F) s.output (s.bare emit).output := by
  refine (h.ruleOutput.and_gives fun u => ruleOutput_closed h.rules h.grows (h.closed u)).bind ?_
  rintro o o' ⟨ho, -, hvalue⟩
  cases ho with
  | nothing => exact .pure .nothing
  | statement hcode => exact (h.placed (h.marked hcode)).bind fun text text' htext => .pure (.statement htext.1)
  | expression code rank =>
    have hnext : s.block.next = Option.none := by
      refine h.alone (by_contra fun hline => ?_)
      exact Bool.false_ne_true (hvalue (Bool.eq_false_iff.mpr hline))
    have hplaced : Twins (Session.Twined M F) Eq (s.placed code) ((s.bare emit).placed code) := by
      have hlines : Twins (Session.Twined M F) Eq s.nextLines (s.bare emit).nextLines := by
        unfold Scene.nextLines
        rw [bare_block, hnext]
        refine h.none.bind fun o o' ho => ?_
        rw [ho.1, ho.2]
        exact .pure rfl
      refine hlines.bind ?_
      rintro rest _ rfl
      exact .pure rfl
    refine hplaced.bind ?_
    rintro text _ rfl
    exact .pure (.expression text rank)

end Instrumented

end Scene

namespace Job

/-- The job without templates. -/
def bare (job : Job n) : Job n :=
  { job with settings := job.settings.bare }

/-- Blocks at which templates are put in as marks. -/
structure Instruments (M F : List Char → Prop) (job : Job n) (R : Fin n → Prop) : Prop extends job.Sparse R where
  settings : job.settings.LineByLine
  seam : Seam job.settings.indent.toList M F
  marks : ∀ i, R i → ∀ t ∈ job.settings.templates, Weaves M F ((job.scene i).inject t) ""
  fillers : F (job.settings.indent ++ job.settings.emptySuite).toList

namespace Instruments

variable {M F : List Char → Prop} {job : Job n} {R : Fin n → Prop} {o : Option (Fin n)}

theorem emitWithin_none (job job' : Job n) (depth : Nat) : Twins (Session.Twined M F)
    (fun o o' => o = .nothing ∧ o' = .nothing) (job.emitWithin depth none) (job'.emitWithin depth none) := by
  cases depth <;> exact checkOpen_woven.bind fun _ _ _ => .pure ⟨rfl, rfl⟩

/-- Blocks are written out the same with and without templates, but for marks and fillers. -/
theorem emitWithin (hj : job.Instruments M F R) (depth : Nat) (ho : ∀ i, o = some i → R i) :
    Twins (Session.Twined M F) (Output.Twined M F) (job.emitWithin depth o) (job.bare.emitWithin depth o) := by
  have hnone : ∀ depth, Twins (Session.Twined M F) (Output.Twined M F) (job.emitWithin depth none)
      (job.bare.emitWithin depth none) := fun depth =>
    (emitWithin_none job job.bare depth).imp fun o o' ho => by rw [ho.1, ho.2]; exact .nothing
  induction depth generalizing o with
  | zero =>
    cases o with
    | none => exact hnone 0
    | some i => exact .throw _
  | succ depth ih =>
    cases o with
    | none => exact hnone _
    | some i =>
      have hi := ho i rfl
      have hbelow := fun p => ih (hj.below hi p)
      have hclosed := fun u p => hj.emitWithin_closed u depth (hj.below hi p)
      have hscene : Scene.Instrumented M F ⟨job, i, job.emitWithin depth⟩ (job.bare.emitWithin depth) :=
        ⟨hj.settings, hj.rules, hj.seam, hj.marks i hi, hj.fillers, hj.comments_eq hi _, hj.alone i hi,
          emitWithin_none job job.bare depth, hbelow, fun u name => hclosed u (.slot name), fun p => (hclosed {} p).grows⟩
      refine checkOpen_woven.bind fun _ _ _ => ?_
      change Twins _ _ (if (job.diagram.block i).disabled then job.emitWithin depth (job.diagram.block i).next else _)
        (if (job.diagram.block i).disabled then job.bare.emitWithin depth (job.diagram.block i).next else _)
      split
      · exact hbelow .next
      · exact hscene.output

theorem topLines (hj : job.Instruments M F R) {i : Fin n} (hi : R i) :
    Twins (Session.Twined M F) (Twined M F) (job.topLines i) (job.bare.topLines i) := by
  have hR : ∀ j, some i = some j → R j := fun j hij => Option.some.inj hij ▸ hi
  refine ((hj.emitWithin n hR).and_gives fun u => hj.emitWithin_closed u n hR).bind ?_
  rintro o o' ⟨ho, hclosed⟩
  refine .pure ?_
  cases ho with
  | nothing => exact .empty_refl
  | statement hcode => exact hcode
  | expression code rank =>
    rw [Output.topLines]
    split
    · exact .empty_refl
    · rename_i hne
      exact .refl (hclosed.resolve_left (by simpa using hne)).firm

/-- The lines of all blocks, with and without templates. -/
theorem body (hj : job.Instruments M F R) {tops : List (Fin n)} (htops : ∀ i ∈ tops, R i) :
    Twins (Session.Twined M F) (Twined M F) (job.body tops) (job.bare.body tops) := by
  have hlines : Twins (Session.Twined M F) (List.Forall₂ (Twined M F)) (tops.mapM job.topLines)
      (tops.mapM job.bare.topLines) := by
    refine Twins.mapM (P := fun i j => i = j ∧ R i) (List.forall₂_same.mpr fun i hi => ⟨rfl, htops i hi⟩) ?_
    rintro i _ ⟨rfl, hi⟩
    exact hj.topLines hi
  exact hlines.bind fun codes codes' hcodes => .pure ((Twined.joined hcodes).tidy hj.seam)

end Instruments

end Job

namespace Generator

/-- The generator without templates. -/
def bare (g : Generator) : Generator :=
  { g with settings := g.settings.bare }

variable {w : Workspace n}

/-- A session that has just been opened is like itself. -/
theorem start_twined {M F : List Char → Prop} {g : Generator} {σ : Session} (h : g.start w = .ok σ) : σ.Twined M F σ := by
  obtain ⟨kinds, new, -, -, hnew, hrun⟩ := run_of_start h
  have hjoins := Session.sameProcedures_joins
  have hdeclare : new.SameProcedures σ := by
    refine (hjoins.forM kinds.entries fun e _ => ?_).of_run hrun
    exact hjoins.bind (Session.identifier_sameProcedures _ _) fun _ =>
      hjoins.bind (Session.addFragment_sameProcedures _ _ _ _) fun _ => hjoins.pure _
  have hprocedures : σ.functions.procedures = {} := by
    rw [hdeclare, hnew]
  refine ⟨start_plain h, rfl, ?_, ?_⟩
  · exact List.forall₂_same.mpr fun _ _ => ⟨rfl, Or.inl rfl⟩
  · rw [hprocedures]
    exact .nil

theorem generate_eq (g : Generator) (w : Workspace n) : g.generate w = (g.start w).bind fun σ => match (g.body w).run σ with
    | (.ok lines, τ) =>
      let code := τ.program g.settings lines
      .ok ⟨code, τ.events, τ.kinds,
        (τ.close.record (.info ("Generated " ++ toString (lineBreaks code) ++ " lines of MicroPython"))).log⟩
    | (.error f, _) => .error f := by
  unfold generate
  cases g.start w with
  | error f => rfl
  | ok σ =>
    simp only [bind, Except.bind]
    cases (g.body w).run σ with
    | mk result τ => cases result <;> rfl

/-- Templates are transparent: a program with templates is the program without them, but for the lines that the templates
become at the blocks of the drawing and for suites that do nothing. Faults, warnings and kinds are the same. -/
theorem templates_transparent (g : Generator) (w : Workspace n) (hrules : g.rules = {}) (hsettings : g.settings.LineByLine)
    (hsilent : ∀ i, w.Reachable i → (w.block i).comment? = none)
    (halone : ∀ i, w.Reachable i → (w.block i).isValue = true → (w.block i).next = none) :
    Alike (fun out out' : Generated => out.events = out'.events ∧ out.kinds = out'.kinds ∧
      Woven (fun row => (g.job w).isInjected w.allBlocks row) (fun row => g.settings.isFiller row) out.code.toList
        out'.code.toList ∧
      (g.job w).ownLines w.allBlocks out.code = (g.job w).ownLines w.allBlocks out'.code)
      (g.generate w) (g.bare.generate w) := by
  have hjob : (g.job w).Instruments (fun row => (g.job w).isInjected w.allBlocks row) (fun row => g.settings.isFiller row)
      w.Reachable :=
    { rules := hrules
      closed := fun _ hi _ hj => hi.child hj
      silent := hsilent
      alone := halone
      settings := hsettings
      seam := Job.seam hsettings _
      marks := fun i hi t ht => Job.inject_weaves hsettings (Workspace.mem_allBlocks_iff.mpr hi) ht
      fillers := Job.isFiller_suite _ }
  have htops : ∀ i ∈ w.orderedTops, w.Reachable i := fun i hi => Workspace.mem_allBlocks_iff.mp (Workspace.mem_allBlocks hi)
  have hbody : Twins _ _ (g.body w) (g.bare.body w) := hjob.body htops
  have hstart : g.bare.start w = g.start w := rfl
  rw [generate_eq, generate_eq, hstart]
  cases hσ : g.start w with
  | error f => exact .error f
  | ok σ =>
    obtain ⟨hτ, halike⟩ := hbody σ σ (start_twined hσ)
    rw [Except.bind, Except.bind]
    cases hrun : (g.body w).run σ with
    | mk result τ =>
      cases hrun' : (g.bare.body w).run σ with
      | mk result' τ' =>
        rw [hrun, hrun'] at hτ halike
        cases halike with
        | error f => exact .error f
        | @ok lines lines' hlines =>
          have hwoven := hτ.program_woven hlines g.settings
          refine .ok ⟨hτ.events, hτ.kinds, hwoven, hwoven.filter_eq hjob.seam ?_ ?_⟩
          · exact fun row hrow => (Bool.or_eq_true ..).mpr (Or.inl hrow)
          · exact fun row hrow => (Bool.or_eq_true ..).mpr (Or.inr hrow)

end Generator

/-- Every block is traced, and every loop can be stopped. -/
def tracing : Generator where
  settings := { statementTemplate := some "trace(%1)", loopTemplate := some "if stopped(%1): break\n" }

/-- A definition and a loop in which nothing is done. -/
def idleLoop : Workspace 2 where
  diagram := { blocks := #v[
    { type := "procedures_defnoreturn", id := "p", fields := [("NAME", .text "rest")] },
    { type := "controls_repeat", id := "r", fields := [("TIMES", .text "3")] }] : Diagram 2 }
  tops := [0, 1]

theorem tracing_transparent : ∃ out out', tracing.generate idleLoop = .ok out ∧ tracing.bare.generate idleLoop = .ok out' ∧
    out.code ≠ out'.code ∧ out.events = out'.events ∧
    (tracing.job idleLoop).ownLines idleLoop.allBlocks out.code = (tracing.job idleLoop).ownLines idleLoop.allBlocks out'.code := by
  have hsettings : tracing.settings.LineByLine := by
    have htemplates : tracing.settings.templates = ["trace(%1)", "if stopped(%1): break" ++ "\n"] := rfl
    refine ⟨by decide, by decide, by decide, ?_⟩
    rw [htemplates, List.forall_mem_cons, List.forall_mem_singleton]
    exact ⟨⟨_, Or.inl rfl, by decide, by decide⟩, ⟨_, Or.inr rfl, by decide, by decide⟩⟩
  have hsilent : ∀ i, (idleLoop.block i).comment? = none := by decide +kernel
  have halone : ∀ i, (idleLoop.block i).isValue = true → (idleLoop.block i).next = none := by decide +kernel
  have hdiffers : (tracing.generate idleLoop).toOption.any (fun out =>
      (tracing.bare.generate idleLoop).toOption.any fun out' => out.code != out'.code) = true := by decide +kernel
  have halike := Generator.templates_transparent tracing idleLoop rfl hsettings (fun i _ => hsilent i) (fun i _ => halone i)
  generalize tracing.generate idleLoop = result at halike hdiffers
  generalize tracing.bare.generate idleLoop = result' at halike hdiffers
  cases halike with
  | error f => cases hdiffers
  | ok hout => exact ⟨_, _, rfl, rfl, by simpa [Except.toOption] using hdiffers, hout.1, hout.2.2.2⟩

end BlockScript
