import BlockScript.Proofs.Definitions
import BlockScript.Proofs.ValueRuns

namespace BlockScript

open Run

variable {n : Nat} {H : Prop}

theorem SlotCode.value_ensures {s : Scene n} {operand : Session → Fin n → Option Expr} (hs : s.Sound H operand)
    (name : String) (outer : OperatorClass) {default : String} (hd : OneLine default)
    (ho : OperatorClass.functionCall.rank ≤ outer.rank) : Ensures H (s.value name outer default) OneLine :=
  (s.valueAt_ensures hs name default ho).imp fun _ hcode => hcode.1.oneLine hd

theorem oneLine_int (z : Int) : OneLine (toString z) := by
  obtain ⟨t, ht, hz | hz⟩ := Double.tokens_int z
  · rw [hz]
    exact (Written.numeral ht).line.oneLine
  · rw [hz, oneLine_append]
    exact ⟨by decide, (Written.numeral ht).line.oneLine⟩

namespace Scene

variable {s : Scene n} {operand : Session → Fin n → Option Expr} {kind : BlockKind}

/-- A rule that leaves lines at the place of the block, with its suites. -/
def Leaves (s : Scene n) (kind : BlockKind) (o : Output) : Prop :=
  ∃ pieces, o = .statement (s.piecesText pieces) ∧ s.Fits kind (pieces.map Piece.shape) ∧ ∀ p ∈ pieces, s.Proper p

theorem leaves_piece {p : Piece String} {code : String} (h : s.Proper p) (hk : s.Fits kind [p.shape])
    (he : s.pieceText p = code) : s.Leaves kind (.statement code) :=
  ⟨[p], by rw [← he]; rfl, hk, by simpa using h⟩

theorem leaves_line {a code : String} (hk : s.Fits kind [.line]) (h : IsLine false a)
    (he : (a ++ "\n").toList = code.toList) : s.Leaves kind (.statement code) :=
  leaves_piece (proper_line h) hk (String.toList_inj.mp he)

theorem leaves_suite {name header code text : String} (hk : s.Fits kind [.suite name]) (h : IsLine true header)
    (hc : s.job.Chain (s.block.child? name) code)
    (he : header ++ "\n" ++ s.orEmptySuite (s.settings.deeper code) = text) : s.Leaves kind (.statement text) :=
  leaves_piece (proper_suite h hc) hk he

theorem lines_ensures (hs : s.Sound H operand) (name : String) :
    Ensures H (s.lines name) (s.job.Chain (s.block.child? name)) := by
  have hbelow := hs.below name
  unfold lines
  dsimp only
  refine hbelow.bind fun o ho => ?_
  cases o with
  | nothing => exact .pure ho.1
  | statement code => exact .pure ho.1
  | expression code rank =>
    obtain ⟨j, hj, -⟩ := ho
    rw [hj]
    exact .throw _ _

theorem suite_ensures (hs : s.Sound H operand) (name : String) : Ensures H (s.suite name) fun text =>
    ∃ code, s.job.Chain (s.block.child? name) code ∧ text = s.settings.deeper code :=
  (lines_ensures hs name).bind fun code hcode => .pure ⟨code, hcode, rfl⟩

theorem loopBody_ensures (hs : s.Sound H operand) : Ensures H s.loopBody fun text =>
    ∃ code, s.job.Chain (s.block.child? "DO") code ∧ text = s.orEmptySuite (s.settings.deeper code) := by
  refine (suite_ensures hs "DO").bind fun text htext => .pure ?_
  obtain ⟨code, hcode, rfl⟩ := htext
  refine ⟨code, hcode, ?_⟩
  rw [instrument, hs.settings]
  simp [injected, Settings.loopMark?, Settings.statementMark?]

theorem variableSet_ensures (hs : s.Sound H operand) : Ensures H s.variableSet (s.Leaves .variableSet) := by
  refine (SlotCode.value_ensures hs _ _ (by decide) (by decide)).bind fun value hvalue => ?_
  refine (variableOf_ensures _).bind fun x hx => .pure ?_
  exact leaves_line rfl ((hx.starts " = " (by decide) (by decide)).append hvalue).line rfl

theorem change_ensures (hs : s.Sound H operand) : Ensures H s.change (s.Leaves .change) := by
  refine (SlotCode.value_ensures hs _ _ (by decide) (by decide)).bind fun value hvalue => ?_
  refine (variableOf_ensures _).bind fun x hx => .pure ?_
  exact leaves_line rfl ((hx.starts " += " (by decide) (by decide)).append hvalue).line rfl

theorem delay_ensures (hs : s.Sound H operand) (hk : s.Fits kind [.line]) {function slot : String}
    (hf : OneLine function) : Ensures H (s.delay function slot) (s.Leaves kind) := by
  refine (SlotCode.value_ensures hs _ _ (by decide) (by decide)).bind fun time htime => ?_
  refine (importModule_ensures (by decide)).bind fun _ _ => .pure ?_
  have hstart : Starts false "time." := ⟨⟨by decide, by decide⟩, by decide⟩
  have hline := (((hstart.append hf).append (by decide : OneLine "(")).append htime).append (by decide : OneLine ")")
  exact leaves_line hk hline.line (by simp)

theorem halt_ensures (hs : s.Sound H operand) : Ensures H s.halt (s.Leaves .halt) := by
  have hheader : IsLine true "while True:" := ⟨by decide, by decide⟩
  have hpass : IsLine false "pass" := ⟨by decide, by decide⟩
  refine .pure (leaves_piece (proper_pair hheader hpass) rfl ?_)
  rw [hs.settings]
  rfl

theorem flow_ensures : Ensures H s.flow (s.Leaves .flow) := by
  refine (compared_ensures _ _ _).bind fun word ⟨t, ht⟩ => .pure ?_
  simp only [List.mem_cons, Prod.mk.injEq, List.not_mem_nil, or_false] at ht
  obtain ⟨-, rfl⟩ | ⟨-, rfl⟩ := ht
  · exact leaves_line (a := "break") rfl ⟨by decide, by decide⟩ rfl
  · exact leaves_line (a := "continue") rfl ⟨by decide, by decide⟩ rfl

/-- A header ends its line, whether the break is written with its last characters or alone. -/
theorem append_break (header close suite : String) :
    header ++ close ++ "\n" ++ suite = header ++ (close ++ "\n") ++ suite :=
  congrArg (· ++ suite) String.append_assoc

theorem branch_ensures (hs : s.Sound H operand) (k : Nat) : Ensures H (s.branch k) fun code =>
    ∃ p, p.shape = .suite ("DO" ++ toString k) ∧ s.Proper p ∧ s.pieceText p = code := by
  refine (SlotCode.value_ensures hs _ _ (by decide) (by decide)).bind fun condition hcondition => ?_
  refine (suite_ensures hs _).bind fun text htext => .pure ?_
  obtain ⟨code, hcode, rfl⟩ := htext
  have hword : Starts true (if k = 0 then "if " else "elif ") := by
    split
    · exact ⟨⟨by decide, by decide⟩, by decide⟩
    · exact ⟨⟨by decide, by decide⟩, by decide⟩
  have hheader := ((hword.append hcondition).append (by decide : OneLine ":")).line
  exact ⟨_, rfl, proper_suite hheader hcode, append_break _ ":" _⟩

/-- Branches that are pieces each are pieces together. -/
theorem exists_pieces {numbers : List Nat} {codes : List String} (h : List.Forall₂ (fun k code =>
    ∃ p, p.shape = .suite ("DO" ++ toString k) ∧ s.Proper p ∧ s.pieceText p = code) numbers codes) :
    ∃ pieces : List (Piece String), codes = pieces.map s.pieceText ∧ (∀ p ∈ pieces, s.Proper p) ∧
      pieces.map Piece.shape = numbers.map fun k => .suite ("DO" ++ toString k) := by
  induction h with
  | nil => exact ⟨[], rfl, by simp, rfl⟩
  | cons hcode _ ih =>
    obtain ⟨p, hshape, hp, rfl⟩ := hcode
    obtain ⟨ps, rfl, hps, hshapes⟩ := ih
    exact ⟨p :: ps, rfl, List.forall_mem_cons.mpr ⟨hp, hps⟩, by rw [List.map_cons, hshape, hshapes, List.map_cons]⟩

theorem piecesText_append (s : Scene n) (ps qs : List (Piece String)) :
    s.piecesText (ps ++ qs) = s.piecesText ps ++ s.piecesText qs := by
  induction ps with
  | nil => rw [List.nil_append, show s.piecesText [] = "" from rfl, String.empty_append]
  | cons p ps ih =>
    simp only [piecesText, List.cons_append, List.map_cons, Text.joined_empty_cons, String.append_assoc] at ih ⊢
    rw [ih]

theorem conditional_ensures (hs : s.Sound H operand) (alwaysElse : Bool) :
    Ensures H (s.conditional alwaysElse) (s.Leaves (.conditional alwaysElse)) := by
  refine (Ensures.mapM _ fun k _ => branch_ensures hs k).bind fun codes hcodes => ?_
  obtain ⟨pieces, rfl, hproper, hshapes⟩ := exists_pieces hcodes
  dsimp only
  split
  · rename_i helse
    refine (suite_ensures hs "ELSE").bind fun text htext => .pure ?_
    obtain ⟨code, hcode, rfl⟩ := htext
    have hheader : IsLine true "else:" := ⟨by decide, by decide⟩
    refine ⟨pieces ++ [Piece.suite "else:" "ELSE" code], ?_, ?_, ?_⟩
    · rw [piecesText_append, String.append_assoc]
      rfl
    · simp [Fits, suiteSlots, helse, hshapes, Piece.shape]
    · simpa [or_imp, forall_and] using ⟨hproper, proper_suite hheader hcode⟩
  · rename_i helse
    exact .pure ⟨pieces, rfl, by simp [Fits, suiteSlots, helse, hshapes], hproper⟩

theorem repetitionCount_cases {times count : String} (h : repetitionCount times = .ok count) :
    (∃ z : Int, count = toString z) ∨ count = "int(" ++ times ++ ")" := by
  unfold repetitionCount at h
  obtain ⟨number, -, h⟩ := ok_of_bind h
  split at h
  · obtain ⟨d, -, h⟩ := ok_of_bind h
    obtain ⟨z, -, h⟩ := ok_of_bind h
    cases h
    exact Or.inl ⟨z, rfl⟩
  · cases h
    exact Or.inr rfl

theorem repetitionCount_oneLine {times count : String} (ht : OneLine times) (h : repetitionCount times = .ok count) :
    OneLine count := by
  obtain ⟨z, rfl⟩ | rfl := repetitionCount_cases h
  · exact oneLine_int z
  · simp only [oneLine_append]
    exact ⟨⟨by decide, ht⟩, by decide⟩

theorem repeated_ensures (hs : s.Sound H operand) (times : String) (htimes : OneLine times) :
    Ensures H (s.repeated times) (s.Leaves .repetition) := by
  unfold repeated
  cases hcount : repetitionCount times with
  | error f => exact .throw _ _
  | ok count =>
    refine (distinctIdentifier_ensures _ _).bind fun x hx => (loopBody_ensures hs).bind fun body hbody => .pure ?_
    obtain ⟨code, hcode, rfl⟩ := hbody
    have hfor : Starts true "for " := ⟨⟨by decide, by decide⟩, by decide⟩
    have hheader := (((hfor.append hx.1.oneLine).append (by decide : OneLine " in range(")).append
      (repetitionCount_oneLine htimes hcount)).append (by decide : OneLine "):")
    exact leaves_suite rfl hheader.line hcode (append_break _ "):" _)

theorem repetition_ensures (hs : s.Sound H operand) : Ensures H s.repetition (s.Leaves .repetition) := by
  unfold repetition
  cases hfield : s.block.field? "TIMES" with
  | none => exact (SlotCode.value_ensures hs _ _ (by decide) (by decide)).bind (repeated_ensures hs)
  | some v =>
    refine repeated_ensures hs _ ?_
    have htext := fieldD_oneLine hs "TIMES" (by decide : OneLine (Value.toText .null))
    rwa [Block.fieldD, hfield] at htext

theorem whileUntil_ensures (hs : s.Sound H operand) : Ensures H s.whileUntil (s.Leaves .whileUntil) := by
  refine (compared_ensures _ _ _).bind fun untilTrue _ => ?_
  refine (SlotCode.value_ensures hs _ _ (by decide) (by cases untilTrue <;> decide)).bind fun condition hcondition => ?_
  refine (loopBody_ensures hs).bind fun body hbody => .pure ?_
  obtain ⟨code, hcode, rfl⟩ := hbody
  have hwhile : Starts true "while " := ⟨⟨by decide, by decide⟩, by decide⟩
  have hnot : OneLine (if untilTrue then "not " else "") := by
    cases untilTrue <;> decide
  have hheader := ((hwhile.append hnot).append hcondition).append (by decide : OneLine ":")
  exact leaves_suite rfl hheader.line hcode (append_break _ ":" _)

/-- The start of a loop over a sequence. -/
theorem starts_for {x sequence : String} (hx : IsName x) (hs : OneLine sequence) :
    Starts true ("for " ++ x ++ " in " ++ sequence ++ ":") := by
  have hfor : Starts true "for " := ⟨⟨by decide, by decide⟩, by decide⟩
  exact (((hfor.append hx.1.oneLine).append (by decide)).append hs).append (by decide)

theorem forEach_ensures (hs : s.Sound H operand) : Ensures H s.forEach (s.Leaves .forEach) := by
  refine (variableOf_ensures _).bind fun x hx => ?_
  refine (SlotCode.value_ensures hs _ _ (by decide) (by decide)).bind fun sequence hsequence => ?_
  refine (loopBody_ensures hs).bind fun body hbody => .pure ?_
  obtain ⟨code, hcode, rfl⟩ := hbody
  exact leaves_suite rfl (starts_for hx hsequence).line hcode (append_break _ ":" _)

theorem literal_oneLine (x : Number) : OneLine x.literal := by
  cases x with
  | whole z => exact oneLine_int z
  | real d =>
    cases d with
    | nan => exact (by decide : OneLine "float('nan')")
    | infinite negative => cases negative <;> decide
    | finite negative m e =>
      show OneLine (Double.literal (.finite negative m e))
      obtain ⟨t, ht, hd | hd⟩ := Double.tokens_literal negative m e
      · rw [hd]
        exact (Written.numeral ht).line.oneLine
      · rw [hd, oneLine_append]
        exact ⟨by decide, (Written.numeral ht).line.oneLine⟩

theorem rangeArguments_oneLine (first last : Int) (step : Nat) : OneLine (rangeArguments first last step) := by
  have hstep : OneLine (toString step) := oneLine_int step
  unfold rangeArguments
  split
  · rw [oneLine_append]
    refine ⟨?_, ?_⟩
    · split
      · exact oneLine_int _
      · simp only [oneLine_append]
        exact ⟨⟨oneLine_int _, by decide⟩, oneLine_int _⟩
    · split
      · decide
      · rw [oneLine_append]
        exact ⟨by decide, hstep⟩
  · simp only [oneLine_append]
    exact ⟨⟨⟨⟨oneLine_int _, by decide⟩, oneLine_int _⟩, by decide⟩, hstep⟩

theorem directedRange_ensures (hs : s.Sound H operand) (first last : Number) :
    Ensures H (s.directedRange first last) IsName := by
  unfold directedRange
  split
  · exact function_ensures hs.settings (by simp [FunctionText.all])
  · exact function_ensures hs.settings (by simp [FunctionText.all])

theorem knownSequence_ensures (hs : s.Sound H operand) (first last step : Number) :
    Ensures H (s.knownSequence first last step) OneLine := by
  unfold knownSequence
  split
  · refine .pure ?_
    simp only [oneLine_append]
    exact ⟨⟨by decide, rangeArguments_oneLine _ _ _⟩, by decide⟩
  · refine (directedRange_ensures hs _ _).bind fun x hx => .pure ?_
    simp only [oneLine_append]
    exact ⟨⟨⟨⟨⟨⟨⟨hx.1.oneLine, by decide⟩, literal_oneLine _⟩, by decide⟩, literal_oneLine _⟩, by decide⟩,
      literal_oneLine _⟩, by decide⟩

theorem keepBound_ensures {name suffix code : String} (hc : OneLine code) :
    Ensures H (keepBound name suffix code) fun p => OneLine p.1.code ∧ ∃ kept : Option String,
      p.2 = Text.joined "" (kept.toList.map (· ++ "\n")) ∧ ∀ a ∈ kept, IsLine false a := by
  unfold keepBound
  split
  · exact .throw _ _
  · split
    · exact .throw _ _
    · exact .pure ⟨literal_oneLine _, none, rfl, nofun⟩
  · split
    · refine .pure ⟨?_, none, rfl, nofun⟩
      simp only [Bound.code, oneLine_append]
      exact ⟨⟨by decide, hc⟩, by decide⟩
    · refine (distinctIdentifier_ensures _ _).bind fun x hx => .pure ⟨hx.1.oneLine, ?_⟩
      have hline := ((hx.starts " = float(" (by decide) (by decide)).append hc).append (by decide : OneLine ")")
      refine ⟨some (x ++ " = float(" ++ code ++ ")"), ?_, by simpa using hline.line⟩
      rw [Option.toList_some, List.map_singleton, Text.joined, ← String.toList_inj]
      simp

theorem boundSequence_ensures (hs : s.Sound H operand) {first last step : Bound} (ha : OneLine first.code)
    (hb : OneLine last.code) (hc : OneLine step.code) : Ensures H (s.boundSequence first last step) OneLine := by
  have harguments : OneLine ("(" ++ first.code ++ ", " ++ last.code ++ ", " ++ step.code ++ ")") := by
    simp only [oneLine_append]
    exact ⟨⟨⟨⟨⟨⟨by decide, ha⟩, by decide⟩, hb⟩, by decide⟩, hc⟩, by decide⟩
  unfold boundSequence
  dsimp only
  split
  · refine (directedRange_ensures hs _ _).bind fun x hx => .pure ?_
    rw [oneLine_append]
    exact ⟨hx.1.oneLine, harguments⟩
  · refine (function_ensures hs.settings (by simp [FunctionText.all])).bind fun x hx => ?_
    refine (function_ensures hs.settings (by simp [FunctionText.all])).bind fun y hy => .pure ?_
    rw [oneLine_append]
    refine ⟨?_, harguments⟩
    simp only [oneLine_append]
    exact ⟨⟨⟨⟨⟨⟨⟨⟨by decide, hx.1.oneLine⟩, by decide⟩, ha⟩, by decide⟩, hb⟩, by decide⟩, hy.1.oneLine⟩, by decide⟩

theorem counting_ensures (hs : s.Sound H operand) : Ensures H s.counting (s.Leaves .counting) := by
  refine (variableOf_ensures _).bind fun x hx => ?_
  refine (SlotCode.value_ensures hs _ _ (by decide) (by decide)).bind fun first hfirst => ?_
  refine (SlotCode.value_ensures hs _ _ (by decide) (by decide)).bind fun last hlast => ?_
  refine (SlotCode.value_ensures hs _ _ (by decide) (by decide)).bind fun step hstep => ?_
  refine (loopBody_ensures hs).bind fun body hbody => ?_
  obtain ⟨code, hcode, rfl⟩ := hbody
  have hloop : ∀ (kept : List String) {sequence : String}, kept.length ≤ 3 → (∀ a ∈ kept, IsLine false a) →
      OneLine sequence → s.Leaves .counting (.statement (s.piecesText (kept.map .line) ++
        ("for " ++ x ++ " in " ++ sequence ++ ":\n" ++ s.orEmptySuite (s.settings.deeper code)))) := by
    intro kept sequence hlength hkept hsequence
    refine ⟨kept.map Piece.line ++ [Piece.suite ("for " ++ x ++ " in " ++ sequence ++ ":") "DO" code], ?_, ?_, ?_⟩
    · rw [piecesText_append, show s.piecesText [.suite ("for " ++ x ++ " in " ++ sequence ++ ":") "DO" code] =
        "for " ++ x ++ " in " ++ sequence ++ ":" ++ "\n" ++ s.orEmptySuite (s.settings.deeper code) from rfl,
        append_break]
      rfl
    · refine ⟨kept.length, hlength, ?_⟩
      simp [Function.comp_def, Piece.shape]
    · simp only [List.mem_append, List.mem_map, List.mem_singleton]
      rintro p (⟨a, ha, rfl⟩ | rfl)
      · exact proper_line (hkept a ha)
      · exact proper_suite (starts_for hx hsequence).line hcode
  dsimp only
  cases knownBounds? first last step with
  | error f => exact .throw _ _
  | ok bounds =>
    cases bounds with
    | some bounds =>
      refine (knownSequence_ensures hs _ _ _).bind fun sequence hsequence => .pure ?_
      have hleaves := hloop [] (by simp) (by simp) hsequence
      rwa [List.map_nil, show s.piecesText [] = "" from rfl, String.empty_append] at hleaves
    | none =>
      refine (keepBound_ensures hfirst).bind fun a ha => (keepBound_ensures hlast).bind fun b hb =>
        (keepBound_ensures hstep).bind fun c hc => ?_
      refine (boundSequence_ensures hs ha.1 hb.1 hc.1).bind fun sequence hsequence => .pure ?_
      obtain ⟨a, ka⟩ := a
      obtain ⟨b, kb⟩ := b
      obtain ⟨c, kc⟩ := c
      obtain ⟨-, keptA, rfl, hkeptA⟩ := ha
      obtain ⟨-, keptB, rfl, hkeptB⟩ := hb
      obtain ⟨-, keptC, rfl, hkeptC⟩ := hc
      have hlines : ∀ o : Option String, Text.joined "" (o.toList.map (· ++ "\n")) = s.piecesText (o.toList.map .line) := by
        intro o
        cases o <;> rfl
      have hleaves := hloop (keptA.toList ++ keptB.toList ++ keptC.toList) ?_ ?_ hsequence
      · simpa only [List.map_append, piecesText_append, ← hlines] using hleaves
      · cases keptA <;> cases keptB <;> cases keptC <;> simp
      · simpa [or_imp, forall_and] using ⟨hkeptA, hkeptB, hkeptC⟩

theorem entry_ensures (hs : s.Sound H operand) : Ensures H s.entry (s.Leaves .entry) := by
  have hrest : Ensures H (do
      let always ← s.suite "LOOP_FUNC"
      return .statement ("while True:\n" ++ s.orEmptySuite always)) (s.Leaves .entry) := by
    refine (suite_ensures hs _).bind fun text htext => .pure ?_
    obtain ⟨code, hcode, rfl⟩ := htext
    have hheader : IsLine true "while True:" := ⟨by decide, by decide⟩
    exact leaves_suite rfl hheader hcode rfl
  refine (lines_ensures hs "SETUP_FUNC").bind fun once honce => ?_
  split
  · exact (addSetup_ensures fun hH => honce.sheet.filled.mpr (hs.filled hH _)).bind fun _ _ => hrest
  · exact hrest

theorem callLine_ensures (hs : s.Sound H operand) : Ensures H s.callLine (s.Leaves .callLine) := by
  refine (call_ensures hs).bind fun code hcode => .pure ?_
  obtain ⟨name, given, hname, hgiven, rfl⟩ := hcode
  have hjoined : OneLine (Text.joined ", " given) := Text.not_mem_joined (by decide) hgiven
  have hline := ((hname.starts "(" (by decide) (by decide)).append hjoined).append (by decide : OneLine ")")
  exact leaves_line rfl hline.line rfl

theorem returnIf_ensures (hs : s.Sound H operand) : Ensures H s.returnIf (s.Leaves .returnIf) := by
  have hleaves : ∀ {condition result : String}, OneLine condition → IsLine false ("return" ++ result) →
      s.Leaves .returnIf (.statement
        ("if " ++ condition ++ ":\n" ++ s.settings.indent ++ "return" ++ result ++ "\n")) := by
    intro condition result hcondition hresult
    have hif : Starts true "if " := ⟨⟨by decide, by decide⟩, by decide⟩
    have hheader := ((hif.append hcondition).append (by decide : OneLine ":")).line
    refine leaves_piece (proper_pair hheader hresult) rfl ?_
    rw [pieceText, hs.settings, ← String.toList_inj]
    simp
  refine (SlotCode.value_ensures hs _ _ (by decide) (by decide)).bind fun condition hcondition => ?_
  split
  · refine (SlotCode.value_ensures hs _ _ (by decide) (by decide)).bind fun value hvalue => .pure ?_
    refine hleaves hcondition ?_
    have hreturn : Starts false "return " := ⟨⟨by decide, by decide⟩, by decide⟩
    have hline := (hreturn.append hvalue).line
    rwa [show "return " = "return" ++ " " from rfl, String.append_assoc] at hline
  · exact .pure (hleaves hcondition ⟨by decide, by decide⟩)

/-- A method call with one argument on a line of its own. -/
theorem method_line {x argument : String} (hx : IsName x) (method : String) (hm : OneLine method)
    (hend : method.toList.head?.any (!isIdentifierChar ·) = true) (ha : OneLine argument) :
    IsLine false (x ++ method ++ argument ++ ")") :=
  (((hx.starts method hm hend).append ha).append (by decide : OneLine ")")).line

theorem leaves_method {x argument : String} (hx : IsName x) (method : String) (hm : OneLine method)
    (hend : method.toList.head?.any (!isIdentifierChar ·) = true) (ha : OneLine argument) (hk : s.Fits kind [.line]) :
    s.Leaves kind (.statement (x ++ method ++ argument ++ ")\n")) :=
  leaves_line hk (method_line hx method hm hend ha) (by simp)

theorem digitalWrite_ensures (hs : s.Sound H operand) : Ensures H s.digitalWrite (s.Leaves .digitalWrite) := by
  refine (SlotCode.value_ensures hs _ _ (by decide) (by decide)).bind fun state hstate => ?_
  refine (claimPin_ensures _ _ _ _).bind fun _ _ => (digital_ensures hs (by decide) _).bind fun x hx => .pure ?_
  exact leaves_method hx ".value(" (by decide) (by decide) hstate rfl

theorem builtinLed_ensures (hs : s.Sound H operand) : Ensures H s.builtinLed (s.Leaves .builtinLed) := by
  refine (SlotCode.value_ensures hs _ _ (by decide) (by decide)).bind fun state hstate => ?_
  refine (claimPin_ensures _ _ _ _).bind fun _ _ => (importFrom_ensures (by decide) (by decide)).bind fun _ _ => ?_
  have hled : Starts false "BUILT_IN_LED = const(" := ⟨⟨by decide, by decide⟩, by decide⟩
  have hline := (hled.append (pin_oneLine hs "BUILT_IN_LED")).append (by decide : OneLine ")")
  refine (declare_ensures fun _ => hline.filled).bind fun _ _ => (digital_ensures hs (by decide) _).bind fun x hx => ?_
  exact .pure (leaves_method hx ".value(" (by decide) (by decide) hstate rfl)

theorem analogWrite_ensures (hs : s.Sound H operand) : Ensures H s.analogWrite (s.Leaves .analogWrite) := by
  refine (SlotCode.value_ensures hs _ _ (by decide) (by decide)).bind fun duty hduty => ?_
  refine (claimPin_ensures _ _ _ _).bind fun _ _ => ?_
  dsimp only
  cases dutyIsWrong duty s.settings.dutyMax with
  | error f => exact .throw _ _
  | ok wrong =>
    refine (warn_ensures _ _ _).bind fun _ _ => (pwm_ensures hs _).bind fun x hx => .pure ?_
    exact leaves_method hx ".duty(" (by decide) (by decide) hduty rfl

theorem tone_ensures (hs : s.Sound H operand) : Ensures H s.tone (s.Leaves .tone) := by
  refine (SlotCode.value_ensures hs _ _ (by decide) (by decide)).bind fun frequency hfrequency => ?_
  refine (claimPin_ensures _ _ _ _).bind fun _ _ => (pwm_ensures hs _).bind fun x hx => .pure ?_
  have hfirst := method_line hx ".freq(" (by decide) (by decide) hfrequency
  have hsecond := method_line hx ".duty(" (by decide) (by decide) (by decide : OneLine (toString toneDuty))
  refine ⟨[.line _, .line _], ?_, rfl, by simpa using ⟨proper_line hfirst, proper_line hsecond⟩⟩
  congr 1
  rw [← String.toList_inj]
  simp [piecesText, pieceText, Text.joined]

theorem silence_ensures (hs : s.Sound H operand) : Ensures H s.silence (s.Leaves .silence) := by
  refine (claimPin_ensures _ _ _ _).bind fun _ _ => (pwm_ensures hs _).bind fun x hx => .pure ?_
  exact leaves_line rfl (hx.starts ".duty(0)" (by decide) (by decide)).line (by simp)

theorem duty_ensures (hs : s.Sound H operand) {angle : String} (ha : OneLine angle) :
    Ensures H (s.duty angle) OneLine := by
  unfold duty
  split
  · exact .throw _ _
  · split
    · exact .throw _ _
    · exact .pure (oneLine_int _)
  · refine (function_ensures hs.settings (by simp [FunctionText.all])).bind fun x hx => .pure ?_
    simp only [oneLine_append]
    exact ⟨⟨⟨hx.1.oneLine, by decide⟩, ha⟩, by decide⟩

theorem servoWrite_ensures (hs : s.Sound H operand) : Ensures H s.servoWrite (s.Leaves .servoWrite) := by
  refine (SlotCode.value_ensures hs _ _ (by decide) (by decide)).bind fun angle hangle => ?_
  refine (claimPin_ensures _ _ _ _).bind fun _ _ => (servo_ensures hs _).bind fun x hx => ?_
  refine (duty_ensures hs hangle).bind fun duty hduty => .pure ?_
  exact leaves_method hx ".duty(" (by decide) (by decide) hduty rfl

/-- A delay is a whole number or an expression. -/
theorem stepDelay_cases {steps speed delay : String} (h : stepDelay (.text steps) (.text speed) = .ok delay) :
    delay = "int(60000000 / (" ++ steps ++ " * " ++ speed ++ "))" ∨ ∃ z : Int, delay = toString z := by
  unfold stepDelay at h
  dsimp only at h
  obtain ⟨known, -, h⟩ := ok_of_bind h
  split at h
  · cases h
    exact Or.inl rfl
  · obtain ⟨known', -, h⟩ := ok_of_bind h
    split at h
    · cases h
      exact Or.inl rfl
    · obtain ⟨a, -, h⟩ := ok_of_bind h
      obtain ⟨b, -, h⟩ := ok_of_bind h
      split at h
      · cases h
        exact Or.inl rfl
      · obtain ⟨product, -, h⟩ := ok_of_bind h
        obtain ⟨quotient, -, h⟩ := ok_of_bind h
        obtain ⟨z, -, h⟩ := ok_of_bind h
        cases h
        exact Or.inr ⟨z, rfl⟩

theorem stepDelay_oneLine {steps speed delay : String} (ha : OneLine steps) (hb : OneLine speed)
    (h : stepDelay (.text steps) (.text speed) = .ok delay) : OneLine delay := by
  obtain rfl | ⟨z, rfl⟩ := stepDelay_cases h
  · simp only [oneLine_append]
    exact ⟨⟨⟨⟨by decide, ha⟩, by decide⟩, hb⟩, by decide⟩
  · exact oneLine_int z

theorem motorObject_oneLine {pins : List Value} {delay : String} (hp : ∀ pin ∈ pins, OneLine pin.toText)
    (hd : OneLine delay) : OneLine (motorObject pins delay) := by
  have hpins : OneLine (Text.joined ", " (pins.map fun p => "Pin(" ++ p.toText ++ ", Pin.OUT)")) := by
    refine Text.not_mem_joined (by decide) ?_
    rw [List.forall_mem_map]
    intro pin hpin
    have hpin : OneLine ("Pin(" ++ pin.toText ++ ", Pin.OUT)") := by
      simp only [oneLine_append]
      exact ⟨⟨by decide, hp pin hpin⟩, by decide⟩
    exact hpin
  unfold motorObject
  simp only [oneLine_append]
  exact ⟨⟨⟨⟨by decide, hpins⟩, by decide⟩, hd⟩, by decide⟩

theorem motorPins_oneLine (hs : s.Sound H operand) (count : Nat) : ∀ pin ∈ s.motorPins count, OneLine pin.toText := by
  unfold motorPins
  rw [List.forall_mem_map]
  intro k _
  exact fieldD_oneLine hs _ (oneLine_int (k + 1 : Nat))

theorem stepperSetup_ensures (hs : s.Sound H operand) : Ensures H s.stepperSetup fun o => o = .blankLine := by
  refine (select_ensures _ _ _).bind fun count _ => ?_
  refine (SlotCode.value_ensures hs _ _ (by decide) (by decide)).bind fun steps hsteps => ?_
  refine (valueAt_ensures hs _ _ (by decide)).bind fun speed hspeed => ?_
  refine (Ensures.forM _ fun pin _ => (claimPin_ensures _ _ _ _).bind fun _ _ => .pure trivial).bind fun _ _ => ?_
  refine (importFrom_ensures (by decide) (by decide)).bind fun _ _ => (identifier_ensures _ _).bind fun x hx => ?_
  cases hdelay : stepDelay (.text steps) (.text speed) with
  | error f => exact .throw _ _
  | ok delay =>
    have hline := (hx.starts " = " (by decide) (by decide)).append (motorObject_oneLine (motorPins_oneLine hs count)
      (stepDelay_oneLine hsteps (hspeed.1.oneLine (by decide)) hdelay))
    exact (declare_ensures fun _ => hline.filled).bind fun _ _ => .pure rfl

theorem stepperMove_ensures (hs : s.Sound H operand) : Ensures H s.stepperMove (s.Leaves .stepperMove) := by
  refine (SlotCode.value_ensures hs _ _ (by decide) (by decide)).bind fun steps hsteps => ?_
  refine (importModule_ensures (by decide)).bind fun _ _ => ?_
  refine (function_ensures hs.settings (by simp [FunctionText.all])).bind fun f hf => ?_
  refine (identifier_ensures _ _).bind fun x hx => .pure ?_
  have hline := (((hf.starts "(" (by decide) (by decide)).append hx.1.oneLine).append (by decide : OneLine ", ")).append hsteps
  exact leaves_line rfl (hline.append (by decide : OneLine ")")).line (by simp)

theorem serialPrint_ensures (hs : s.Sound H operand) : Ensures H s.serialPrint (s.Leaves .serialPrint) := by
  refine (SlotCode.value_ensures hs _ _ (by decide) (by decide)).bind fun content hcontent => ?_
  have hleaves : ∀ ending, OneLine ending →
      s.Leaves .serialPrint (.statement ("print(" ++ content ++ ending ++ ")\n")) := by
    intro ending hending
    have hprint : Starts false "print(" := ⟨⟨by decide, by decide⟩, by decide⟩
    exact leaves_line rfl (((hprint.append hcontent).append hending).append (by decide : OneLine ")")).line (by simp)
  exact .pure (hleaves _ (by split <;> decide))

theorem uartNumber_oneLine {id : String} (h : OneLine id) : OneLine (uartNumber id) := by
  have hnumber : OneLine (if "Serial".toList.isPrefixOf id.toList then
      String.ofList (id.toList.drop "Serial".toList.length) else id) := by
    split
    · unfold OneLine
      rw [String.toList_ofList]
      exact fun hmem => h (List.mem_of_mem_drop hmem)
    · exact h
  unfold uartNumber
  dsimp only
  generalize (if "Serial".toList.isPrefixOf id.toList then
    String.ofList (id.toList.drop "Serial".toList.length) else id) = number at hnumber ⊢
  split
  · decide
  · exact hnumber

theorem serialSetup_ensures (hs : s.Sound H operand) : Ensures H s.serialSetup fun o => o = .blankLine := by
  have huart := uartNumber_oneLine (fieldD_oneLine hs "SERIAL_ID" (by decide : OneLine (Value.toText (.text "0"))))
  have hspeed := fieldD_oneLine hs "SPEED" (by decide : OneLine (Value.toText (.text "115200")))
  refine (importFrom_ensures (by decide) (by decide)).bind fun _ _ => (identifier_ensures _ _).bind fun x hx => ?_
  have hline := ((hx.starts " = UART(" (by decide) (by decide)).append huart).append (by decide : OneLine ", baudrate=")
  exact (addSetup_ensures fun _ => ((hline.append hspeed).append (by decide : OneLine ")")).filled).bind fun _ _ => .pure rfl

theorem addAssigned_ensures {names : List Value} {found : List String} (name : Value) (hf : ∀ x ∈ found, IsName x) :
    Ensures H (addAssigned names found name) fun found' =>
      (∀ x ∈ found', IsName x) ∧ (found ≠ [] ∨ names.contains name = false → found' ≠ []) := by
  have hrest : Ensures H (if names.contains name then pure found else do
      let x ← variableName name
      pure (if found.contains x then found else found ++ [x])) fun found' =>
      (∀ x ∈ found', IsName x) ∧ (found ≠ [] ∨ names.contains name = false → found' ≠ []) := by
    split
    · rename_i hin
      exact .pure ⟨hf, fun h => h.resolve_right (by simp [hin])⟩
    · refine (identifier_ensures _ _).bind fun x hx => .pure ?_
      split
      · rename_i hin
        exact ⟨hf, fun _ => List.ne_nil_of_mem (List.contains_iff_mem.mp hin)⟩
      · refine ⟨?_, by simp⟩
        simpa [or_imp, forall_and, hx] using hf
  unfold addAssigned
  cases name.isKey with
  | false => exact (Ensures.throw _ fun _ => False).bind fun _ h => h.elim
  | true => exact hrest

theorem foldlM_addAssigned_ensures {names : List Value} (vs : List Value) {found : List String}
    (hf : ∀ x ∈ found, IsName x) : Ensures H (vs.foldlM (addAssigned names) found) fun found' =>
      (∀ x ∈ found', IsName x) ∧ (found ≠ [] ∨ (∃ v ∈ vs, names.contains v = false) → found' ≠ []) := by
  induction vs generalizing found with
  | nil => exact .pure ⟨hf, by simp⟩
  | cons v vs ih =>
    rw [List.foldlM_cons]
    refine (addAssigned_ensures v hf).bind fun found' hfound' => (ih hfound'.1).imp ?_
    rintro found'' ⟨hnames, hne⟩
    refine ⟨hnames, ?_⟩
    rintro (h | ⟨w, hw, hout⟩)
    · exact hne (Or.inl (hfound'.2 (Or.inl h)))
    · obtain rfl | hw := List.mem_cons.mp hw
      · exact hne (Or.inl (hfound'.2 (Or.inr hout)))
      · exact hne (Or.inr ⟨w, hw, hout⟩)

theorem assignedGlobals_ensures : Ensures H s.assignedGlobals fun globals =>
    (∀ x ∈ globals, IsName x) ∧ (s.job.Assigns s.index → globals ≠ []) := by
  unfold assignedGlobals
  cases hstack : s.block.child? "STACK" with
  | none =>
    refine .pure ⟨by simp, ?_⟩
    rintro ⟨start, _, _, hstart, -⟩
    rw [show (s.job.diagram.block s.index).child? "STACK" = none from hstack] at hstart
    cases hstart
  | some start =>
    have hkeys : Ensures H s.argumentKeys fun names => s.block.arguments = .ok names := by
      unfold argumentKeys
      refine arguments_ensures.bind fun names hnames => ?_
      split
      · exact .pure hnames
      · exact .throw _ _
    refine hkeys.bind fun names hnames => (foldlM_addAssigned_ensures _ (by simp)).imp ?_
    rintro globals ⟨hglobals, hne⟩
    refine ⟨hglobals, ?_⟩
    rintro ⟨start', j, v, hstart, hj, hv, hout⟩
    rw [show (s.job.diagram.block s.index).child? "STACK" = some start from hstack] at hstart
    cases hstart
    exact hne (Or.inr ⟨v, List.mem_filterMap.mpr ⟨j, hj, hv⟩, hout names hnames⟩)

theorem nextLines_ensures (hn : Ensures H (s.emit s.block.next) (s.job.Shapes s.block.next)) :
    Ensures H s.nextLines (s.job.Chain s.block.next) := by
  unfold nextLines
  refine hn.bind fun o ho => ?_
  cases o with
  | nothing => exact .pure ho.1
  | statement code => exact .pure ho.1
  | expression code rank =>
    obtain ⟨j, hj, -⟩ := ho
    rw [hj]
    exact .throw _ _

theorem placed_ensures (hn : Ensures H (s.emit s.block.next) (s.job.Shapes s.block.next)) (code : String) :
    Ensures H (s.placed code) fun text => ∃ rest, s.job.Chain s.block.next rest ∧ text = s.comments ++ code ++ rest :=
  (nextLines_ensures hn).bind fun rest hrest => .pure ⟨rest, hrest, rfl⟩

/-- The lines of a suite that says something, in which all suites are filled. -/
def Suited (code : String) (p : Prop) : Prop :=
  ∃ ms, Indented code ms ∧ Filled ms ∧ (p → ms ≠ [])

theorem Suited.append {a b : String} {p q : Prop} (ha : Suited a p) (hb : Suited b q) : Suited (a ++ b) (p ∨ q) := by
  obtain ⟨ls, hls, hl, hp⟩ := ha
  obtain ⟨ms, hms, hm, hq⟩ := hb
  refine ⟨ls ++ ms, hls.append hms, filled_append_of hl hm, ?_⟩
  rintro (h | h) hnil
  · exact hp h (List.append_eq_nil_iff.mp hnil).1
  · exact hq h (List.append_eq_nil_iff.mp hnil).2

theorem Suited.line {code : String} (h : IsLine false code) (p : Prop) : Suited ("    " ++ code ++ "\n") p :=
  ⟨_, Indented.line h, by decide, by simp⟩

theorem Suited.empty {p : Prop} (h : ¬ p) : Suited "" p :=
  ⟨[], .empty, .nil, fun hp => absurd hp h⟩

theorem suited_globals (hs : s.settings = {}) {globals : List String} (h : ∀ x ∈ globals, IsName x) :
    Suited (if globals.isEmpty then "" else s.settings.indent ++ "global " ++ Text.joined ", " globals ++ "\n")
      (globals ≠ []) := by
  split
  · rename_i hempty
    exact .empty (by simpa using hempty)
  · have hjoined : OneLine (Text.joined ", " globals) :=
      Text.not_mem_joined (by decide) fun x hx => (h x hx).1.oneLine
    have hglobal : Starts false "global " := ⟨⟨by decide, by decide⟩, by decide⟩
    have hline := Suited.line (hglobal.append hjoined).line (globals ≠ [])
    rwa [← String.append_assoc, show "    " = s.settings.indent by rw [hs]] at hline

theorem suited_return (hs : s.settings = {}) {result : String} (h : OneLine result) :
    Suited (if result.isEmpty then "" else s.settings.indent ++ "return " ++ result ++ "\n") (result ≠ "") := by
  split
  · rename_i hempty
    exact .empty (by simpa [String.isEmpty_iff] using hempty)
  · have hreturn : Starts false "return " := ⟨⟨by decide, by decide⟩, by decide⟩
    have hline := Suited.line (hreturn.append h).line (result ≠ "")
    rwa [← String.append_assoc, show "    " = s.settings.indent by rw [hs]] at hline

theorem suited_chain (hs : s.settings = {}) {o : Option (Fin n)} {code : String} (hc : s.job.Chain o code)
    (hh : ¬ s.job.Hollow o) : Suited (s.settings.deeper code) (s.job.Speaks o) := by
  rw [hs]
  exact ⟨_, Indented.deeper hc.sheet.whole, hc.sheet.filled.mpr hh, hc.speaks.mpr⟩

theorem suited_orEmptySuite (hs : s.settings = {}) {o : Option (Fin n)} {code : String} (hc : s.job.Chain o code)
    (hh : ¬ s.job.Hollow o) :
    Suited (s.orEmptySuite (s.settings.deeper code)) (s.job.Remarks o → s.job.Speaks o) := by
  unfold orEmptySuite
  split
  · rw [hs]
    exact Suited.line (show IsLine false "pass" from ⟨by decide, by decide⟩) _
  · rename_i hne
    obtain ⟨ms, hms, hfilled, hspeaks⟩ := suited_chain hs hc hh
    refine ⟨ms, hms, hfilled, fun h => hspeaks ?_⟩
    have hcode : code ≠ "" := by
      rintro rfl
      rw [hs] at hne
      exact hne rfl
    exact (hc.text.mp hcode).elim id h

/-- The suite of a definition is filled, unless all that it has is comments. -/
theorem suited_definition (hs : s.Sound H operand) (hp : Workspace.isProcedure s.block = true) (hH : H)
    {globals : List String} {code result : String} (hg : ∀ x ∈ globals, IsName x)
    (ha : s.job.Assigns s.index → globals ≠ []) (hc : s.job.Chain (s.block.child? "STACK") code) (hr : OneLine result)
    (htold : ∀ j, s.block.child? "RETURN" = some j → s.job.Says j → result ≠ "") :
    Suited ((if globals.isEmpty then "" else s.settings.indent ++ "global " ++ Text.joined ", " globals ++ "\n") ++
      (if result.isEmpty then s.orEmptySuite (s.settings.deeper code) else s.settings.deeper code) ++
      (if result.isEmpty then "" else s.settings.indent ++ "return " ++ result ++ "\n")) True := by
  have hhollow := hs.filled hH "STACK"
  have hbody : Suited (if result.isEmpty then s.orEmptySuite (s.settings.deeper code) else s.settings.deeper code)
      (result = "" ∧ (s.job.Remarks (s.block.child? "STACK") → s.job.Speaks (s.block.child? "STACK"))) := by
    split
    · obtain ⟨ms, hms, hfilled, hne⟩ := suited_orEmptySuite hs.settings hc hhollow
      exact ⟨ms, hms, hfilled, fun h => hne h.2⟩
    · rename_i hne
      obtain ⟨ms, hms, hfilled, -⟩ := suited_chain hs.settings hc hhollow
      exact ⟨ms, hms, hfilled, fun h => absurd (by rw [h.1]; rfl) hne⟩
  obtain ⟨ms, hms, hfilled, hne⟩ := ((suited_globals hs.settings hg).append hbody).append (suited_return hs.settings hr)
  refine ⟨ms, hms, hfilled, fun _ => hne ?_⟩
  by_cases hresult : result = ""
  · refine Or.inl ?_
    by_cases hremarks : s.job.Remarks (s.block.child? "STACK")
    · obtain hspeaks | ⟨-, ⟨j, hj, hsaid⟩ | hassigns⟩ := hs.stack hH hp hremarks
      · exact Or.inr ⟨hresult, fun _ => hspeaks⟩
      · exact absurd hresult (htold j hj hsaid)
      · exact Or.inl (ha hassigns)
    · exact Or.inr ⟨hresult, fun h => absurd h hremarks⟩
  · exact Or.inr hresult

/-- The lines of a definition under its header. -/
def definitionSuite (s : Scene n) (globals : List String) (code result : String) : String :=
  (if globals.isEmpty then "" else s.settings.indent ++ "global " ++ Text.joined ", " globals ++ "\n") ++
    (if result.isEmpty then s.orEmptySuite (s.settings.deeper code) else s.settings.deeper code) ++
    (if result.isEmpty then "" else s.settings.indent ++ "return " ++ result ++ "\n")

/-- The text of a definition: comments, a header, the lines under it, and what is written behind the block. -/
def Defined (s : Scene n) (name text : String) : Prop :=
  ∃ globals parameters code result rest, (∀ x ∈ globals, IsName x) ∧
    (s.job.Assigns s.index → globals ≠ []) ∧ s.job.Chain (s.block.child? "STACK") code ∧ OneLine result ∧
    (∀ j, s.block.child? "RETURN" = some j → s.job.Says j → result ≠ "") ∧ OneLine parameters ∧
    s.job.Chain s.block.next rest ∧
    text = s.comments ++ ("def " ++ name ++ "(" ++ parameters ++ "):" ++ "\n" ++ s.definitionSuite globals code result) ++ rest

theorem definitionUnder_ensures (hs : s.Sound H operand) (name : String) :
    Ensures H (s.definitionUnder name) (s.Defined name) := by
  refine (suite_ensures hs _).bind fun text htext => ?_
  obtain ⟨code, hcode, rfl⟩ := htext
  have hmarks : s.bodyMarks ++ s.settings.deeper code = s.settings.deeper code := by
    rw [bodyMarks, hs.settings]
    simp [injected, Settings.loopMark?, Settings.statementMark?]
  rw [hmarks]
  refine (valueAt_ensures hs _ _ (by decide)).bind fun result hresult => ?_
  refine assignedGlobals_ensures.bind fun globals hglobals => arguments_ensures.bind fun names _ => ?_
  refine (Ensures.mapM_all _ fun v _ => identifier_ensures _ v).bind fun parameters hparameters => ?_
  refine (placed_ensures hs.behind _).imp ?_
  rintro text ⟨rest, hrest, rfl⟩
  have hline : OneLine (Text.joined ", " parameters) :=
    Text.not_mem_joined (by decide) fun x hx => (hparameters.2 x hx).1.oneLine
  refine ⟨globals, _, code, result, rest, hglobals.1, hglobals.2, hcode, hresult.1.oneLine (by decide), hresult.2, hline,
    hrest, ?_⟩
  rw [definitionSuite, ← String.toList_inj]
  simp

theorem Defined.filled (hs : s.Sound H operand) (hp : Workspace.isProcedure s.block = true) (hH : H) {name text : String}
    (hname : IsName name) (h : s.Defined name text) : Filled (outline text) := by
  obtain ⟨globals, parameters, code, result, rest, hglobals, hassigns, hcode, hresult, htold, hparameters, hrest, rfl⟩ := h
  obtain ⟨ms, hms, hfilled, hne⟩ := suited_definition hs hp hH hglobals hassigns hcode hresult htold
  have hdef : Starts true "def " := ⟨⟨by decide, by decide⟩, by decide⟩
  have hheader := (((hdef.append hname.1.oneLine).append (by decide : OneLine "(")).append hparameters).append
    (by decide : OneLine "):")
  have hsheet := Sheet.suite hheader.line hms
  have hsilent : Silent s.comments := Job.comments_silent hs.settings s.index
  unfold definitionSuite
  rw [outline_append (hsilent.whole.append hsheet.whole), outline_append hsilent.whole, hsilent.outline, List.nil_append]
  exact filled_append_of (hsheet.filled.mpr ⟨hne trivial, hfilled⟩) (hrest.sheet.filled.mpr (hs.next hH))

theorem definition_ensures (hs : s.Sound H operand) :
    Ensures H s.definition fun d => IsName d.1 ∧ s.Defined d.1 d.2 :=
  (identifier_ensures _ _).bind fun name hname =>
    (definitionUnder_ensures hs name).bind fun _ htext => .pure ⟨hname, htext⟩

theorem procedure_ensures (hs : s.Sound H operand) (hp : Workspace.isProcedure s.block = true) :
    Ensures H s.procedure fun o => o = .nothing := by
  rw [procedure_eq]
  refine (definition_ensures hs).bind fun d hd => (addProcedure_ensures fun hH => ?_).bind fun _ _ => .pure rfl
  exact hd.2.filled hs hp hH hd.1

end Scene

end BlockScript
