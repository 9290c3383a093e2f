import BlockScript.Proofs.Suites
import BlockScript.Proofs.Texts
import BlockScript.Proofs.ValueBlocks

namespace BlockScript

open Run

variable {n : Nat} {H : Prop}

/-- What writing out a chain gives: its lines, or the text of a value block. -/
def Job.Shapes (job : Job n) (o : Option (Fin n)) : Output → Prop
  | .nothing => job.Chain o "" ∧ ∀ i, o = some i → ¬ job.Expresses i
  | .statement code => job.Chain o code ∧ ∀ i, o = some i → ¬ job.Expresses i
  | .expression code _ => ∃ i, o = some i ∧ job.Expresses i ∧ (job.Says i → code ≠ "")

theorem Job.Says.expresses {job : Job n} {i : Fin n} (h : job.Says i) : job.Expresses i := by
  obtain ⟨he, kind, hk, hv, -⟩ := h
  exact ⟨he, by rw [Block.isValue, hk]; exact hv⟩

/-- A scene in which the blocks around are written out well. -/
structure Scene.Sound (H : Prop) (s : Scene n) (operand : Session → Fin n → Option Expr) : Prop where
  settings : s.settings = {}
  below : ∀ name, Ensures H (s.emit (s.block.child? name)) (s.job.Shapes (s.block.child? name))
  behind : Ensures H (s.emit s.block.next) (s.job.Shapes s.block.next)
  faithful : ∀ u, s.Faithful u (operand u)
  fields : ∀ f ∈ s.block.fields, OneLine f.2.toText
  filled : H → ∀ name, ¬ s.job.Hollow (s.block.child? name)
  next : H → ¬ s.job.Hollow s.block.next
  stack : H → Workspace.isProcedure s.block = true → s.job.Remarks (s.block.child? "STACK") →
    s.job.Speaks (s.block.child? "STACK") ∨ s.job.Padded s.index

/-- The text in a slot is the default or an expression. -/
def SlotCode (default code : String) : Prop :=
  code = default ∨ ∃ r e, Written r code e

theorem SlotCode.oneLine {default code : String} (h : SlotCode default code) (hd : OneLine default) : OneLine code := by
  obtain rfl | ⟨r, e, he⟩ := h
  · exact hd
  · exact he.line.oneLine

theorem Device.use_ensures {d : Device} {pin : Value} (hneeds : ∀ name, d.needs = some name → OneLine name)
    (hd : ∀ x, IsName x → H → Filled (outline (d.declaration x pin.toText))) : Ensures H (d.use pin) IsName := by
  have hrest : Ensures H (do
      let object ← generatedName (d.object ++ pin.toText)
      let _ ← declare (d.tag ++ pin.toText) (d.declaration object pin.toText)
      pure object) IsName :=
    (identifier_ensures _ _).bind fun x hx => (declare_ensures (hd x hx)).bind fun _ _ => .pure hx
  unfold use
  refine (importFrom_ensures (by decide) (by decide)).bind fun _ _ => ?_
  cases hn : d.needs with
  | none => exact hrest
  | some name => exact (importFrom_ensures (by decide) (hneeds name hn)).bind fun _ _ => hrest

theorem Starts.filled {code : String} (h : Starts false code) : Filled (outline code) := by
  rw [h.line.outline]
  decide

namespace Scene

variable {s : Scene n} {operand : Session → Fin n → Option Expr}

theorem valueAt_runs (hs : s.Sound H operand) (name : String) (outer : Rank) (default : String) :
    Ensures H (s.valueAt name outer default) fun code => ∀ j, s.block.child? name = some j → s.job.Says j → code ≠ "" := by
  have hchild := hs.below name
  unfold valueAt
  cases hc : s.block.child? name with
  | none => exact .pure (by simp)
  | some j =>
    rw [hc] at hchild
    refine hchild.bind fun o ho => ?_
    cases o with
    | nothing =>
      refine .pure fun k hk htold => ?_
      cases hk
      exact absurd htold.expresses (ho.2 j rfl)
    | statement code => exact .throw _ _
    | expression code rank =>
      refine .pure fun k hk htold => ?_
      cases hk
      obtain ⟨_, hj, -, hcode⟩ := ho
      cases hj
      have hcode := hcode htold
      rw [if_neg (by simpa [String.isEmpty_iff] using hcode), Rank.parenthesize]
      split
      · simp [String.append_eq_empty_iff]
      · exact hcode

theorem valueAt_ensures (hs : s.Sound H operand) (name : String) {outer : Rank} (default : String)
    (ho : OperatorClass.functionCall.rank ≤ outer) : Ensures H (s.valueAt name outer default) fun code =>
      SlotCode default code ∧ ∀ j, s.block.child? name = some j → s.job.Says j → code ≠ "" := by
  refine ((valueAt_runs hs name outer default).and_gives
    fun u => valueAt_gives (hs.faithful u) name outer default).imp ?_
  rintro code ⟨htold, u, ⟨-, hcode⟩ | ⟨e, c, rank, -, hemits, rfl⟩⟩
  · exact ⟨Or.inl hcode, htold⟩
  · exact ⟨Or.inr ⟨outer, e, hemits.slot fun _ => ho⟩, htold⟩

theorem value_runs (hs : s.Sound H operand) (name : String) (outer : OperatorClass) (default : String) :
    Ensures H (s.value name outer default) fun code => ∀ j, s.block.child? name = some j → s.job.Says j → code ≠ "" :=
  valueAt_runs hs name outer.rank default

theorem select_ensures {α : Type} (name default : String) (table : List (String × α)) :
    Ensures H (s.select name default table) fun a => ∃ t, (t, a) ∈ table := by
  refine ((?_ : Ensures H (s.select name default table) fun _ => True).and_gives
    fun u => select_gives name default table).imp ?_
  · unfold select
    dsimp only
    split
    · exact .throw _ _
    · exact .pure trivial
    · exact .throw _ _
  · rintro a ⟨-, -, ha⟩
    obtain ⟨t, -, ht, -⟩ := of_compared ha
    exact ⟨t, ht⟩

theorem compared_ensures {α : Type} (name default : String) (table : List (String × α)) :
    Ensures H (s.compared name default table) fun a => ∃ t, (t, a) ∈ table := by
  unfold compared
  cases ha : s.compared? name default table with
  | none => exact .throw _ _
  | some a =>
    obtain ⟨t, -, ht, -⟩ := of_compared ha
    exact .pure ⟨t, ht⟩

/-- A rule that gives a text. -/
def Texted (o : Output) : Prop :=
  o.code ≠ ""

theorem texted_append {a b : String} {c : OperatorClass} (h : a ≠ "" ∨ b ≠ "") : Texted (Output.ofClass (a ++ b) c) := by
  intro hempty
  obtain ⟨ha, hb⟩ := String.append_eq_empty_iff.mp hempty
  exact h.elim (absurd ha) (absurd hb)

theorem texted_closed (a : String) (c : OperatorClass) : Texted (Output.ofClass (a ++ ")") c) :=
  texted_append (Or.inr (by decide))

theorem number_runs : Ensures H s.number Texted := by
  unfold number
  cases hd : (s.block.fieldD "NUM" (.int 0)).toDouble with
  | error f => exact .throw _ _
  | ok d =>
    have hruns : Ensures H (pure (signedOutput d.literal) : Run Output) fun _ => True := .pure trivial
    have hgives : ∀ u, Gives u (pure (signedOutput d.literal) : Run Output) (s.Shown u (fun _ => none) .number) := by
      intro u
      have h : Gives u s.number (s.Shown u (fun _ => none) .number) := number_gives
      rwa [number, hd] at h
    refine (hruns.and_gives hgives).imp ?_
    rintro o ⟨-, u, ho⟩
    have htree : s.tree? u (s.operandAt fun _ => none) .number = some d.expr := by
      simp [tree?, hd]
    rw [Shown, htree] at ho
    obtain ⟨code, rank, rfl, hemits, -⟩ := ho
    exact hemits.written.ne_empty

theorem arithmetic_runs (hs : s.Sound H operand) : Ensures H s.arithmetic Texted := by
  refine (select_ensures _ _ _).bind fun op ⟨t, ht⟩ => ?_
  refine (valueAt_runs hs _ _ _).bind fun left _ => (valueAt_runs hs _ _ _).bind fun right _ => .pure ?_
  have hsymbol : op.symbol ≠ "" := by
    simp only [arithmeticOperators, List.mem_cons, Prod.mk.injEq, List.not_mem_nil, or_false] at ht
    obtain ⟨-, rfl⟩ | ⟨-, rfl⟩ | ⟨-, rfl⟩ | ⟨-, rfl⟩ | ⟨-, rfl⟩ := ht <;> decide
  refine texted_append (Or.inl fun h => ?_)
  exact hsymbol (String.append_eq_empty_iff.mp h).2

theorem unary_runs (hs : s.Sound H operand) (family : UnaryFamily) : Ensures H (s.unary family) Texted := by
  have himport : Ensures H (importModule "math") fun _ => True := importModule_ensures (by decide)
  refine (select_ensures _ _ _).bind fun f _ => ?_
  cases f with
  | negate => exact (value_runs hs _ _ _).bind fun x _ => .pure (texted_append (Or.inl (by decide)))
  | powerOfTen => exact (value_runs hs _ _ _).bind fun x _ => .pure (texted_append (Or.inl (by decide)))
  | builtin name => exact (value_runs hs _ _ _).bind fun x _ => .pure (texted_closed _ _)
  | library name =>
    exact (value_runs hs _ _ _).bind fun x _ => himport.bind fun _ _ => .pure (texted_closed _ _)
  | ofDegrees name =>
    exact (value_runs hs _ _ _).bind fun x _ => himport.bind fun _ _ => .pure (texted_append (Or.inr (by decide)))
  | toDegrees name =>
    exact (value_runs hs _ _ _).bind fun x _ => himport.bind fun _ _ => .pure (texted_append (Or.inr (by decide)))

theorem constant_runs : Ensures H s.constant Texted := by
  refine (select_ensures _ _ _).bind fun c ⟨t, ht⟩ => ?_
  have hcode : c.code ≠ "" := by
    simp only [namedNumbers, List.mem_cons, Prod.mk.injEq, List.not_mem_nil, or_false] at ht
    obtain ⟨-, rfl⟩ | ⟨-, rfl⟩ | ⟨-, rfl⟩ | ⟨-, rfl⟩ | ⟨-, rfl⟩ | ⟨-, rfl⟩ := ht <;> decide
  dsimp only
  split
  · exact (importModule_ensures (by decide)).bind fun _ _ => .pure hcode
  · exact .pure hcode

theorem property_runs (hs : s.Sound H operand) : Ensures H s.property Texted := by
  unfold property
  split
  · refine (value_runs hs _ _ _).bind fun x _ => (importModule_ensures (by decide)).bind fun _ _ => ?_
    exact (function_ensures hs.settings (by simp [FunctionText.all])).bind fun _ _ =>
      .pure (texted_closed _ _)
  · exact (value_runs hs _ _ _).bind fun x _ => .pure (texted_append (Or.inr (by decide)))
  · refine (value_runs hs _ _ _).bind fun x _ => .pure (texted_append (Or.inl fun h => ?_))
    simp [String.append_eq_empty_iff] at h
  · refine (value_runs hs _ _ _).bind fun x _ => (valueAt_runs hs _ _ _).bind fun y _ => .pure ?_
    exact texted_append (Or.inr (by decide))
  · exact (value_runs hs _ _ _).bind fun _ _ => .throw _ _

theorem modulo_runs (hs : s.Sound H operand) : Ensures H s.modulo Texted := by
  refine (value_runs hs _ _ _).bind fun x _ => (valueAt_runs hs _ _ _).bind fun y _ => .pure ?_
  refine texted_append (Or.inl fun h => ?_)
  simp [String.append_eq_empty_iff] at h

theorem constrain_runs (hs : s.Sound H operand) : Ensures H s.constrain Texted :=
  (value_runs hs _ _ _).bind fun _ _ => (value_runs hs _ _ _).bind fun _ _ => (value_runs hs _ _ _).bind fun _ _ =>
    .pure (texted_closed _ _)

theorem randomWhole_runs (hs : s.Sound H operand) : Ensures H s.randomWhole Texted :=
  (importModule_ensures (by decide)).bind fun _ _ => (value_runs hs _ _ _).bind fun _ _ =>
    (value_runs hs _ _ _).bind fun _ _ => (function_ensures hs.settings (by simp [FunctionText.all])).bind fun _ _ =>
      .pure (texted_closed _ _)

theorem rescale_runs (hs : s.Sound H operand) : Ensures H s.rescale Texted :=
  (value_runs hs _ _ _).bind fun _ _ => (value_runs hs _ _ _).bind fun _ _ =>
    (function_ensures hs.settings (by simp [FunctionText.all])).bind fun _ _ =>
      .pure (texted_closed _ _)

theorem randomFraction_runs : Ensures H randomFraction Texted :=
  (importModule_ensures (by decide)).bind fun _ _ => .pure (by decide : "random.random()" ≠ "")

theorem compare_runs (hs : s.Sound H operand) : Ensures H s.compare Texted := by
  refine (select_ensures _ _ _).bind fun op _ => ?_
  refine (value_runs hs _ _ _).bind fun x _ => (value_runs hs _ _ _).bind fun y _ => .pure ?_
  refine texted_append (Or.inl fun h => ?_)
  simp [String.append_eq_empty_iff] at h

theorem logic_runs (hs : s.Sound H operand) : Ensures H s.logic Texted := by
  refine (compared_ensures _ _ _).bind fun op _ => ?_
  refine (value_runs hs _ _ _).bind fun x _ => (value_runs hs _ _ _).bind fun y _ => .pure ?_
  refine texted_append (Or.inl fun h => ?_)
  simp [String.append_eq_empty_iff] at h

theorem negate_runs (hs : s.Sound H operand) : Ensures H s.negate Texted :=
  (value_runs hs _ _ _).bind fun _ _ => .pure (texted_append (Or.inl (by decide)))

theorem boolean_runs : Ensures H s.boolean Texted := by
  refine (compared_ensures _ _ _).bind fun word ⟨t, ht⟩ => .pure ?_
  have hword : word ≠ "" := by
    simp only [List.mem_cons, Prod.mk.injEq, List.not_mem_nil, or_false] at ht
    obtain ⟨-, rfl⟩ | ⟨-, rfl⟩ := ht <;> decide
  exact hword

theorem ternary_runs (hs : s.Sound H operand) : Ensures H s.ternary Texted := by
  refine (value_runs hs _ _ _).bind fun x _ => (value_runs hs _ _ _).bind fun y _ =>
    (value_runs hs _ _ _).bind fun z _ => .pure ?_
  refine texted_append (Or.inl fun h => ?_)
  simp [String.append_eq_empty_iff] at h

theorem text_runs : Ensures H s.text Texted :=
  .pure (Written.quote _).ne_empty

theorem joined_ne_empty {sep : String} {codes : List String} (hne : codes ≠ []) (h : ∀ code ∈ codes, code ≠ "") :
    Text.joined sep codes ≠ "" := by
  cases codes with
  | nil => exact absurd rfl hne
  | cons code codes =>
    have hcode := h code (by simp)
    cases codes with
    | nil => exact hcode
    | cons c codes =>
      intro hempty
      simp only [Text.joined, String.append_eq_empty_iff] at hempty
      exact hcode hempty.1.1

theorem join_runs (hs : s.Sound H operand) : Ensures H s.join fun o => s.Says .join → Texted o := by
  unfold join
  cases hcount : s.pieceCount with
  | error f => exact .throw _ _
  | ok count =>
    refine (Ensures.mapM_all (Q := (· ≠ "")) _ fun k _ => (value_runs hs _ _ _).bind fun x _ => .pure ?_).bind
      fun codes ⟨hlength, hcodes⟩ => ?_
    · exact texted_closed ("str(" ++ x) .functionCall
    have htexted : count ≠ 0 → s.Says .join → Text.joined " + " codes ≠ "" := by
      rintro hne ⟨count', hc, hnonneg⟩
      rw [hcount] at hc
      cases hc
      rw [List.length_range] at hlength
      refine joined_ne_empty ?_ hcodes
      rintro rfl
      simp only [List.length_nil] at hlength
      omega
    split
    · exact .pure fun _ => (by decide : "''" ≠ "")
    · split
      · exact .pure (htexted ‹_›)
      · exact .pure (htexted ‹_›)

theorem length_runs (hs : s.Sound H operand) : Ensures H s.length Texted :=
  (value_runs hs _ _ _).bind fun _ _ => .pure (texted_closed _ _)

theorem isEmpty_runs (hs : s.Sound H operand) : Ensures H s.isEmpty Texted :=
  (value_runs hs _ _ _).bind fun _ _ => .pure (texted_closed _ _)

theorem variableOf_ensures (default : String) : Ensures H (s.variableOf default) IsName :=
  identifier_ensures _ _

theorem IsName.ne_empty {x : String} (h : IsName x) : x ≠ "" :=
  (h.written 0).ne_empty

theorem variableGet_runs : Ensures H s.variableGet Texted :=
  (variableOf_ensures _).bind fun _ hx => .pure (IsName.ne_empty hx)

theorem cast_runs (hs : s.Sound H operand) : Ensures H s.cast Texted :=
  (select_ensures _ _ _).bind fun _ _ => (value_runs hs _ _ _).bind fun _ _ => .pure (texted_closed _ _)

theorem clock_runs (function : String) : Ensures H (clock function) Texted :=
  (importModule_ensures (by decide)).bind fun _ _ => .pure (texted_append (Or.inr (by decide)))

theorem arguments_ensures : Ensures H s.arguments fun names => s.block.arguments = .ok names := by
  unfold arguments
  cases s.block.arguments with
  | error f => exact .throw _ _
  | ok names => exact .pure rfl

theorem call_ensures (hs : s.Sound H operand) : Ensures H s.call fun code =>
    ∃ name given, IsName name ∧ (∀ c ∈ given, OneLine c) ∧ code = name ++ "(" ++ Text.joined ", " given ++ ")" := by
  refine (identifier_ensures _ _).bind fun name hname => arguments_ensures.bind fun names _ => ?_
  refine (Ensures.mapM_all (Q := OneLine) _ fun k _ => ?_).bind fun given hgiven => .pure ?_
  · exact (valueAt_ensures hs _ _ (by decide)).imp fun code hcode => hcode.1.oneLine (by decide)
  · exact ⟨name, given, hname, hgiven.2, rfl⟩

theorem callValue_runs (hs : s.Sound H operand) : Ensures H s.callValue Texted := by
  refine (call_ensures hs).bind fun code hcode => .pure ?_
  obtain ⟨name, given, -, -, rfl⟩ := hcode
  exact texted_closed _ _

theorem fieldD_oneLine (hs : s.Sound H operand) (name : String) {default : Value} (hd : OneLine default.toText) :
    OneLine (s.block.fieldD name default).toText := by
  unfold Block.fieldD Block.field?
  cases hl : s.block.fields.lookup name with
  | none => exact hd
  | some v =>
    obtain ⟨l, l', hfields, -⟩ := List.lookup_eq_some_iff.mp hl
    exact hs.fields (name, v) (by simp [hfields])

theorem pin_oneLine (hs : s.Sound H operand) (name : String) : OneLine (s.pin name).toText :=
  fieldD_oneLine hs name (by decide)

theorem digital_ensures (hs : s.Sound H operand) {mode : String} (hm : OneLine mode) (name : String) :
    Ensures H ((Device.digital mode).use (s.pin name)) IsName := by
  refine Device.use_ensures (by simp [Device.digital]) fun x hx _ => ?_
  have hpin := (hx.starts " = Pin(" (by decide) (by decide)).append (pin_oneLine hs name)
  exact (((hpin.append (by decide)).append hm).append (by decide)).filled

theorem pwm_ensures (hs : s.Sound H operand) (name : String) : Ensures H (Device.pwm.use (s.pin name)) IsName := by
  refine Device.use_ensures (fun used h => ?_) fun x hx _ => ?_
  · cases h
    decide
  · have hpin := (hx.starts " = PWM(Pin(" (by decide) (by decide)).append (pin_oneLine hs name)
    exact (hpin.append (by decide)).filled

theorem adc_ensures (hs : s.Sound H operand) (name : String) : Ensures H (Device.adc.use (s.pin name)) IsName := by
  refine Device.use_ensures (fun used h => ?_) fun x hx _ => ?_
  · cases h
    decide
  · have hpin := (hx.starts " = ADC(Pin(" (by decide) (by decide)).append (pin_oneLine hs name)
    exact (hpin.append (by decide)).filled

theorem servo_ensures (hs : s.Sound H operand) (name : String) : Ensures H (Device.servo.use (s.pin name)) IsName := by
  refine Device.use_ensures (fun used h => ?_) fun x hx _ => ?_
  · cases h
    decide
  · have hpin := (hx.starts " = PWM(Pin(" (by decide) (by decide)).append (pin_oneLine hs name)
    have hfirst := (hpin.append (by decide : OneLine ", mode=Pin.OUT))")).filled
    have hsecond := (hx.starts ".freq(50)" (by decide) (by decide)).filled
    have hcode : Device.servo.declaration x (s.pin name).toText =
        x ++ " = PWM(Pin(" ++ (s.pin name).toText ++ ", mode=Pin.OUT))" ++ "\n" ++ (x ++ ".freq(50)") := by
      rw [← String.toList_inj]
      simp [Device.servo]
    rw [hcode, outline_append_line]
    exact filled_append_of hfirst hsecond

theorem digitalRead_runs (hs : s.Sound H operand) : Ensures H s.digitalRead Texted :=
  (claimPin_ensures _ _ _ _).bind fun _ _ => (digital_ensures hs (by decide) _).bind fun _ _ =>
    .pure (texted_append (Or.inr (by decide)))

theorem analogRead_runs (hs : s.Sound H operand) : Ensures H s.analogRead Texted :=
  (claimPin_ensures _ _ _ _).bind fun _ _ => (adc_ensures hs _).bind fun _ _ =>
    .pure (texted_append (Or.inr (by decide)))

theorem servoRead_runs (hs : s.Sound H operand) : Ensures H s.servoRead Texted :=
  (claimPin_ensures _ _ _ _).bind fun _ _ => (servo_ensures hs _).bind fun _ _ => .pure (texted_closed _ _)

theorem level_runs : Ensures H s.level Texted := by
  refine (compared_ensures _ _ _).bind fun word ⟨t, ht⟩ => ?_
  have hword : word ≠ "" := by
    simp only [List.mem_cons, Prod.mk.injEq, List.not_mem_nil, or_false] at ht
    obtain ⟨-, rfl⟩ | ⟨-, rfl⟩ := ht <;> decide
  refine (importFrom_ensures (by decide) (by decide)).bind fun _ _ => ?_
  exact (declare_ensures fun _ => by decide +kernel).bind fun _ _ => .pure hword

theorem pulse_runs (hs : s.Sound H operand) (timeout : Bool) : Ensures H (s.pulse timeout) Texted := by
  refine (value_runs hs _ _ _).bind fun level _ => (claimPin_ensures _ _ _ _).bind fun _ _ => ?_
  refine (importFrom_ensures (by decide) (by decide)).bind fun _ _ => (digital_ensures hs (by decide) _).bind fun x _ => ?_
  cases timeout with
  | false => exact .pure (texted_closed _ _)
  | true => exact (value_runs hs _ _ _).bind fun _ _ => .pure (texted_closed _ _)

/-- The rules of value blocks keep the texts of the session in order, and give a text. -/
theorem standard_runs (hs : s.Sound H operand) {kind : BlockKind} (hk : kind.isValue = true) :
    Ensures H (s.standard kind) fun o => s.Says kind → Texted o := by
  have htold : ∀ {r : Run Output}, Ensures H r Texted → Ensures H r fun o => s.Says kind → Texted o :=
    fun h => h.imp fun _ ho _ => ho
  cases kind with
  | number => exact htold number_runs
  | arithmetic => exact htold (arithmetic_runs hs)
  | unary family => exact htold (unary_runs hs family)
  | constant => exact htold constant_runs
  | property => exact htold (property_runs hs)
  | modulo => exact htold (modulo_runs hs)
  | constrain => exact htold (constrain_runs hs)
  | randomWhole => exact htold (randomWhole_runs hs)
  | randomFraction => exact htold randomFraction_runs
  | compare => exact htold (compare_runs hs)
  | logic => exact htold (logic_runs hs)
  | negate => exact htold (negate_runs hs)
  | boolean => exact htold boolean_runs
  | null => exact .pure fun _ => (by decide : "None" ≠ "")
  | ternary => exact htold (ternary_runs hs)
  | text => exact htold text_runs
  | join => exact join_runs hs
  | length => exact htold (length_runs hs)
  | isEmpty => exact htold (isEmpty_runs hs)
  | variableGet => exact htold variableGet_runs
  | cast => exact htold (cast_runs hs)
  | rescale => exact htold (rescale_runs hs)
  | clockMillis => exact htold (clock_runs _)
  | clockMicros => exact htold (clock_runs _)
  | callValue => exact htold (callValue_runs hs)
  | digitalRead => exact htold (digitalRead_runs hs)
  | level => exact htold level_runs
  | analogRead => exact htold (analogRead_runs hs)
  | pulse timeout => exact htold (pulse_runs hs timeout)
  | servoRead => exact htold (servoRead_runs hs)
  | blankValue => exact .pure fun h => h.elim
  | _ => cases hk

end Scene

end BlockScript
