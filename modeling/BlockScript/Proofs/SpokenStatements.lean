import BlockScript.Proofs.SceneViews
import BlockScript.Proofs.SpokenValues
import BlockScript.Proofs.StatementRules

namespace BlockScript

open Run

variable {n : Nat} {N : String → Prop} {H E E' : Prop} {a b : String}

/-- A line that a bracket closes. -/
theorem Told.closedLine (ha : Told N E' a) : Lined N E (a ++ ")\n") := by
  have heq : a ++ ")\n" = a ++ ")" ++ "\n" := by
    rw [String.append_assoc]
    rfl
  rw [heq]
  exact (ha.closed (by decide)).line

/-- A line that opens a suite. -/
theorem Told.header (ha : Told N E' a) : Lined N E (a ++ ":\n") := by
  have heq : a ++ ":\n" = a ++ ":" ++ "\n" := by
    rw [String.append_assoc]
    rfl
  rw [heq]
  exact (ha.closed (by decide)).line

/-- A reader behind a sign of equality goes on like an idle one, unless there is a second sign. -/
theorem NameReader.heard_equated (read : List Char) {cs : List Char} (h : cs.head?.any (· != '=') = true) :
    (equated read).heard cs = idle.heard cs ∧ (equated read).behind cs = idle.behind cs := by
  cases cs with
  | nil => cases h
  | cons c cs =>
    have hc : c ≠ '=' := by simpa using h
    have hnext : (equated read).next c = idle.next c := if_neg hc
    have hstep : (equated read).step c = idle.step c := by
      rw [step, step, hnext]
      rfl
    rw [heard, heard, behind, behind, hstep]
    exact ⟨rfl, rfl⟩

/-- The keyword of the speed stands in front of a field that ends a call. -/
theorem Told.keyword (ha : Told N E' a) (hb : Quiet N b) : Told N True (a ++ ", baudrate=" ++ b ++ ")") := by
  have hvalue : Told N True (b ++ ")") := hb.told.closed (by decide)
  have hhead : (b ++ ")").toList.head?.any (· != '=') = true := by
    have hne := hb.2.2
    rw [String.toList_append]
    cases hb : b.toList with
    | nil => rfl
    | cons c cs =>
      rw [hb] at hne
      simpa using hne
  have hfront : NameReader.idle.heard ", baudrate=".toList = [] ∧
      NameReader.idle.behind ", baudrate=".toList = .equated "baudrate".toList := ⟨by decide, rfl⟩
  obtain ⟨hheard, hbehind⟩ := NameReader.heard_equated "baudrate".toList hhead
  have hargument : Told N True (", baudrate=" ++ (b ++ ")")) := by
    constructor
    · intro w hw
      rw [String.toList_append, NameReader.heard_append, hfront.1, hfront.2, hheard] at hw
      exact hvalue.heard w hw
    · rw [String.toList_append, NameReader.behind_append, hfront.2, hbehind]
      exact hvalue.rests
    · intro hE
      rw [String.toList_append]
      exact getLast_any_append (hvalue.ended hE)
  have heq : a ++ ", baudrate=" ++ b ++ ")" = a ++ (", baudrate=" ++ (b ++ ")")) := by
    simp only [String.append_assoc]
  rw [heq]
  exact ha.append hargument (Parted.append (by decide) _)

namespace Scene

variable {s : Scene n}

/-- A statement with its lines. -/
def Lines (N : String → Prop) (E : Prop) (o : Output) : Prop :=
  ∃ code, o = .statement code ∧ Lined N E code

theorem lines_statement {code : String} (h : Lined N E code) : Lines N E (.statement code) :=
  ⟨code, rfl, h⟩

theorem emptyLine_lined (hs : s.Vocal N H E') : Lined N E s.settings.emptyLine := by
  obtain ⟨extra, hsettings⟩ := hs.settings
  have hline : Told N E ("    " ++ "pass") := .fixed (by decide)
  rw [hsettings]
  exact hline.line

section Statements

theorem change_tells (hs : s.Vocal N H E) : Tells N H s.change (Lines N E) := by
  refine (value_tells hs _ _ fixed_zero).bind fun delta hdelta => ?_
  refine (identifier_tells (E := E) _ _).bind fun x hx => .pure (lines_statement (Told.line ?_))
  exact hx.around hdelta (by decide)

theorem variableSet_tells (hs : s.Vocal N H E) : Tells N H s.variableSet (Lines N E) := by
  refine (value_tells hs _ _ fixed_zero).bind fun value hvalue => ?_
  refine (identifier_tells (E := E) _ _).bind fun x hx => .pure (lines_statement (Told.line ?_))
  exact hx.around hvalue (by decide)

theorem delay_tells (hs : s.Vocal N H E) {function : String} (h : Opens ("time." ++ function ++ "(")) (slot : String) :
    Tells N H (s.delay function slot) (Lines N E) := by
  refine (value_tells hs _ _ fixed_zero).bind fun time htime => (importModule_tells (by decide)).bind fun _ _ => ?_
  exact .pure (lines_statement (htime.behind h).closedLine)

theorem halt_tells (hs : s.Vocal N H E) : Tells N H s.halt (Lines N E) := by
  have hheader : Lined N E "while True:\n" := Told.line (a := "while True:") (.fixed (by decide))
  exact .pure (lines_statement (hheader.append (emptyLine_lined hs)))

theorem flow_tells : Tells N H s.flow (Lines N E) := by
  refine (compared_tells _ _ _).bind fun code ⟨t, hcode⟩ => .pure (lines_statement ?_)
  have hwords : code = "break\n" ∨ code = "continue\n" := by
    simp only [List.mem_cons, Prod.mk.injEq, List.not_mem_nil, or_false] at hcode
    exact hcode.imp And.right And.right
  obtain rfl | rfl := hwords
  · exact Told.line (a := "break") (.fixed (by decide))
  · exact Told.line (a := "continue") (.fixed (by decide))

theorem callLine_tells (hs : s.Vocal N H E) : Tells N H s.callLine (Lines N E) :=
  (call_tells hs).bind fun _ hcode => .pure (lines_statement hcode.line)

theorem returnIf_tells (hs : s.Vocal N H E) : Tells N H s.returnIf (Lines N E) := by
  obtain ⟨extra, hsettings⟩ := hs.settings
  refine (value_tells hs _ _ (by decide)).bind fun condition hcondition => ?_
  have hheader : Lined N E ("if " ++ condition ++ ":\n") := (hcondition.behind (by decide)).header
  have hlines : ∀ result, Told N E ("    " ++ "return" ++ result) → Tells N H (pure (.statement
      ("if " ++ condition ++ ":\n" ++ s.settings.indent ++ "return" ++ result ++ "\n")) : Run Output) (Lines N E) := by
    intro result hresult
    have heq : "if " ++ condition ++ ":\n" ++ s.settings.indent ++ "return" ++ result ++ "\n" =
        "if " ++ condition ++ ":\n" ++ ("    " ++ "return" ++ result ++ "\n") := by
      rw [hsettings]
      simp only [String.append_assoc]
    rw [heq]
    exact .pure (lines_statement (hheader.append hresult.line))
  dsimp only
  split
  · refine (value_tells hs _ _ (by decide)).bind fun value hvalue => hlines (" " ++ value) ?_
    have hfront : Told N E (" " ++ value) := hvalue.behind (by decide)
    have hword : Told N E ("    " ++ "return") := .fixed (by decide)
    exact hword.append hfront (Parted.append (by decide) value)
  · exact hlines "" (.fixed (by decide))

theorem stepperMove_tells (hs : s.Vocal N H E) (hk : s.block.kind? = some .stepperMove) :
    Tells N H s.stepperMove (Lines N E) := by
  refine (value_tells hs _ _ fixed_zero).bind fun steps hsteps => (importModule_tells (by decide)).bind fun _ _ => ?_
  refine (function_tells hs hk List.mem_cons_self).bind fun f hf => ?_
  refine (identifier_tells (E := E) _ _).bind fun x hx => .pure (lines_statement ?_)
  have hfirst : Told N E (f ++ "(" ++ x) := hf.around hx (by decide)
  have hboth : Told N E (f ++ "(" ++ x ++ ", " ++ steps) := hfirst.around hsteps (by decide)
  exact hboth.closedLine

theorem serialPrint_tells (hs : s.Vocal N H E) : Tells N H s.serialPrint (Lines N E) := by
  refine (value_tells hs _ _ (by decide)).bind fun content hcontent => ?_
  have hprint : Told N E ("print(" ++ content) := hcontent.behind (by decide)
  have hlines : ∀ ending, ending = "" ∨ ending = ", end=''" → Tells N H (pure (.statement
      ("print(" ++ content ++ ending ++ ")\n")) : Run Output) (Lines N E) := by
    rintro ending (rfl | rfl)
    · rw [String.append_empty]
      exact .pure (lines_statement hprint.closedLine)
    · have hending : Told N E ("print(" ++ content ++ ", end=''") := hprint.closed (by decide)
      exact .pure (lines_statement hending.closedLine)
  apply hlines
  split
  · exact Or.inl rfl
  · exact Or.inr rfl

end Statements

section Devices

/-- A line that calls something of an object. -/
theorem lines_call {x f code : String} (hx : Told N E x) (hcode : Told N E code) (hf : Opens f ∧ Parted f) :
    Lines N E (.statement (x ++ f ++ code ++ ")\n")) :=
  lines_statement (hx.around hcode hf).closedLine

theorem digitalWrite_tells (hs : s.Vocal N H E) (hk : s.block.kind? = some .digitalWrite) :
    Tells N H s.digitalWrite (Lines N E) := by
  refine (value_tells hs _ _ fixed_zero).bind fun state hstate => (claimPin_tells _ _ _ _).bind fun _ _ => ?_
  refine (Device.use_tells (E := E) (by simp [Device.all]) (pin_quiet hs hk rfl)).bind fun x hx => ?_
  exact .pure (lines_call hx hstate (by decide))

theorem builtinLed_tells (hs : s.Vocal N H E) (hk : s.block.kind? = some .builtinLed) :
    Tells N H s.builtinLed (Lines N E) := by
  have hpin := pin_quiet hs hk rfl
  refine (value_tells hs _ _ fixed_zero).bind fun state hstate => (claimPin_tells _ _ _ _).bind fun _ _ => ?_
  refine (importFrom_tells (by decide)).bind fun _ _ => (declare_tells fun hH => ?_).bind fun _ _ => ?_
  · have hfront : Told N False ("BUILT_IN_LED = const(" ++ (s.pin "BUILT_IN_LED").toText) :=
      (hpin hH).told.behind (by decide)
    have hline : Told N True ("BUILT_IN_LED = const(" ++ (s.pin "BUILT_IN_LED").toText ++ ")") := hfront.closed (by decide)
    exact hline.voiced
  · refine (Device.use_tells (E := E) (by simp [Device.all]) hpin).bind fun x hx => ?_
    exact .pure (lines_call hx hstate (by decide))

theorem analogWrite_tells (hs : s.Vocal N H E) (hk : s.block.kind? = some .analogWrite) :
    Tells N H s.analogWrite (Lines N E) := by
  have huse : ∀ duty, Told N E duty → Tells N H (do
      let object ← Device.pwm.use (s.pin "PIN")
      return .statement (object ++ ".duty(" ++ duty ++ ")\n")) (Lines N E) := by
    intro duty hduty
    refine (Device.use_tells (E := E) (by simp [Device.all]) (pin_quiet hs hk rfl)).bind fun x hx => ?_
    exact .pure (lines_call hx hduty (by decide))
  refine (value_tells hs _ _ fixed_zero).bind fun duty hduty => (claimPin_tells _ _ _ _).bind fun _ _ => ?_
  dsimp only
  split
  · exact Tells.bind (P := fun _ => False) (.throw _) fun _ hfalse => hfalse.elim
  · exact (warn_tells _ _ _).bind fun _ _ => huse duty hduty

theorem tone_tells (hs : s.Vocal N H E) (hk : s.block.kind? = some .tone) : Tells N H s.tone (Lines N E) := by
  refine (value_tells hs _ _ (by decide)).bind fun frequency hfrequency => (claimPin_tells _ _ _ _).bind fun _ _ => ?_
  refine (Device.use_tells (E := E) (by simp [Device.all]) (pin_quiet hs hk rfl)).bind fun x hx => .pure (lines_statement ?_)
  have hfirst : Lined N E (x ++ ".freq(" ++ frequency ++ ")\n") := (hx.around hfrequency (by decide)).closedLine
  have hduty : Told N E (toString toneDuty) := .nat _
  have hsecond : Lined N E (x ++ ".duty(" ++ toString toneDuty ++ ")\n") := (hx.around hduty (by decide)).closedLine
  have heq : x ++ ".freq(" ++ frequency ++ ")\n" ++ x ++ ".duty(" ++ toString toneDuty ++ ")\n" =
      x ++ ".freq(" ++ frequency ++ ")\n" ++ (x ++ ".duty(" ++ toString toneDuty ++ ")\n") := by
    simp only [String.append_assoc]
  rw [heq]
  exact hfirst.append hsecond

theorem silence_tells (hs : s.Vocal N H E) (hk : s.block.kind? = some .silence) : Tells N H s.silence (Lines N E) := by
  refine (claimPin_tells _ _ _ _).bind fun _ _ => ?_
  refine (Device.use_tells (E := E) (by simp [Device.all]) (pin_quiet hs hk rfl)).bind fun x hx => .pure (lines_statement ?_)
  have hcall : Told N E (x ++ ".duty(0") := hx.closed (by decide)
  have heq : x ++ ".duty(0)\n" = x ++ ".duty(0" ++ ")\n" := by
    rw [String.append_assoc]
    rfl
  rw [heq]
  exact hcall.closedLine

theorem duty_tells (hs : s.Vocal N H E) (hk : s.block.kind? = some .servoWrite) {angle : String} (hangle : Told N E angle) :
    Tells N H (s.duty angle) (Told N E) := by
  unfold duty
  split
  · exact .throw _
  · split
    · exact .throw _
    · exact .pure (.int _)
  · refine (function_tells hs hk List.mem_cons_self).bind fun f hf => .pure ?_
    have hcall : Told N E (f ++ "(" ++ angle) := hf.around hangle (by decide)
    exact hcall.closed (by decide)

theorem servoWrite_tells (hs : s.Vocal N H E) (hk : s.block.kind? = some .servoWrite) :
    Tells N H s.servoWrite (Lines N E) := by
  refine (value_tells hs _ _ (by decide)).bind fun angle hangle => (claimPin_tells _ _ _ _).bind fun _ _ => ?_
  refine (Device.use_tells (E := E) (by simp [Device.all]) (pin_quiet hs hk rfl)).bind fun x hx => ?_
  exact (duty_tells hs hk hangle).bind fun duty hduty => .pure (lines_call hx hduty (by decide))

theorem told_stepDelay {steps speed delay : String} (hsteps : Told N E steps) (hspeed : Told N E speed)
    (h : stepDelay (.text steps) (.text speed) = .ok delay) : Told N E delay := by
  obtain rfl | ⟨z, rfl⟩ := stepDelay_cases h
  · have hfirst : Told N E ("int(60000000 / (" ++ steps) := hsteps.behind (by decide)
    have hboth : Told N E ("int(60000000 / (" ++ steps ++ " * " ++ speed) := hfirst.around hspeed (by decide)
    exact hboth.closed (by decide)
  · exact .int z

theorem told_motorObject {pins : List Value} (hne : pins ≠ []) (hpins : ∀ p ∈ pins, Quiet N p.toText) {delay : String}
    (hdelay : Told N E delay) : Told N True (motorObject pins delay) := by
  have hpieces : ∀ code ∈ pins.map fun p => "Pin(" ++ p.toText ++ ", Pin.OUT)", Told N True code := by
    intro code hcode
    obtain ⟨p, hp, rfl⟩ := List.mem_map.mp hcode
    have hfront : Told N False ("Pin(" ++ p.toText) := (hpins p hp).told.behind (by decide)
    exact hfront.closed (by decide)
  have hjoined := Told.joined (by decide : Opens ", " ∧ Parted ", ") (mt List.map_eq_nil_iff.mp hne) hpieces
  have hfront := hjoined.behind (by decide : Opens "\x7b'pins': (")
  have hmiddle := hfront.around hdelay (by decide : Opens ",), 'delay_us': " ∧ Parted ",), 'delay_us': ")
  exact hmiddle.closed (by decide)

theorem wires_tells : Tells N H (s.select "STEPPER_NUMBER_OF_PINS" "TWO" [("TWO", 2), ("FOUR", 4)]) fun count =>
    s.block.wires? = some count ∧ 0 < count := by
  unfold select Block.wires? Value.lookup
  dsimp only
  cases s.block.fieldD "STEPPER_NUMBER_OF_PINS" (.text "TWO") with
  | text t =>
    dsimp only
    cases hl : [("TWO", 2), ("FOUR", 4)].lookup t with
    | none => exact .throw _
    | some count =>
      obtain ⟨before, after, htable, -⟩ := List.lookup_eq_some_iff.mp hl
      have hcounts : ∀ e ∈ [("TWO", 2), ("FOUR", 4)], 0 < e.2 := by decide
      rw [htable] at hcounts
      exact .pure ⟨rfl, hcounts (t, count) (by simp)⟩
  | _ => exact .throw _

theorem motorPins_quiet (hs : s.Vocal N H E) (hk : s.block.kind? = some .stepperSetup) {count : Nat}
    (hcount : s.block.wires? = some count) (hH : H) : ∀ p ∈ s.motorPins count, Quiet N p.toText := by
  have hraw : s.block.rawTexts .stepperSetup = (s.motorPins count).map Value.toText := by
    simp only [Block.rawTexts, Block.pinUseAs?, hcount]
    rfl
  intro p hp
  apply hs.quiet hH _ hk
  rw [hraw]
  exact List.mem_map_of_mem hp

theorem stepperSetup_tells (hs : s.Vocal N H E) (hk : s.block.kind? = some .stepperSetup) :
    Tells N H s.stepperSetup (Lines N E) := by
  refine wires_tells.bind fun count ⟨hcount, hpos⟩ => (value_tells hs _ _ (by decide)).bind fun steps hsteps => ?_
  refine (valueAt_tells hs _ _ (by decide)).bind fun speed hspeed => ?_
  have hclaims : Tells N H ((s.motorPins count).forM fun pin => do
      let _ ← s.claimPin pin .stepper "Stepper") fun _ => True :=
    .forM _ fun pin _ => (claimPin_tells _ _ _ _).bind fun _ _ => .pure trivial
  refine hclaims.bind fun _ _ => (importFrom_tells (by decide)).bind fun _ _ => ?_
  refine (identifier_tells (E := E) _ _).bind fun x hx => ?_
  split
  · exact .throw _
  · rename_i delay hdelay
    refine (declare_tells fun hH => ?_).bind fun _ _ => .pure (lines_statement .empty)
    have hne : s.motorPins count ≠ [] := by
      simp only [motorPins, ne_eq, List.map_eq_nil_iff, List.range_eq_nil]
      exact hpos.ne'
    have hmotor : Told N True (motorObject (s.motorPins count) delay) :=
      told_motorObject hne (motorPins_quiet hs hk hcount hH) (told_stepDelay hsteps hspeed hdelay)
    have hline : Told N True (x ++ " = " ++ motorObject (s.motorPins count) delay) := hx.around hmotor (by decide)
    exact hline.voiced

theorem serialSetup_tells (hs : s.Vocal N H E) (hk : s.block.kind? = some .serialSetup) :
    Tells N H s.serialSetup (Lines N E) := by
  refine (importFrom_tells (by decide)).bind fun _ _ => (identifier_tells (E := E) _ _).bind fun x hx => ?_
  refine (addSetup_tells fun hH => ?_).bind fun _ _ => .pure (lines_statement .empty)
  have hquiet := hs.quiet hH _ hk
  simp only [Block.rawTexts, List.forall_mem_cons] at hquiet
  obtain ⟨huart, hspeed, -⟩ := hquiet
  have hobject : Told N False (x ++ " = UART(" ++ uartNumber (s.block.fieldD "SERIAL_ID" (.text "0")).toText) :=
    hx.around huart.told (by decide)
  exact (hobject.keyword hspeed).voiced

end Devices

/-- The rules of blocks that write out lines of their own only. -/
theorem lineRule_tells (hs : s.Vocal N H E) {kind : BlockKind} (hk : s.block.kind? = some kind)
    (hv : kind.isValue = false) (hl : kind.holdsLines = false) : Tells N H (s.standard kind) (Lines N E) := by
  cases kind with
  | change => exact change_tells hs
  | variableSet => exact variableSet_tells hs
  | flow => exact flow_tells
  | delayMillis => exact delay_tells hs (by decide) _
  | delayMicros => exact delay_tells hs (by decide) _
  | halt => exact halt_tells hs
  | callLine => exact callLine_tells hs
  | returnIf => exact returnIf_tells hs
  | digitalWrite => exact digitalWrite_tells hs hk
  | builtinLed => exact builtinLed_tells hs hk
  | analogWrite => exact analogWrite_tells hs hk
  | tone => exact tone_tells hs hk
  | silence => exact silence_tells hs hk
  | servoWrite => exact servoWrite_tells hs hk
  | stepperSetup => exact stepperSetup_tells hs hk
  | stepperMove => exact stepperMove_tells hs hk
  | serialPrint => exact serialPrint_tells hs
  | serialSetup => exact serialSetup_tells hs hk
  | blankLine => exact .pure (lines_statement .empty)
  | conditional | repetition | whileUntil | counting | forEach | entry | procedure => cases hl
  | _ => cases hv

end Scene

end BlockScript
