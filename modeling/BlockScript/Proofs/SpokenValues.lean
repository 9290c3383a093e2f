import BlockScript.Proofs.ValueRules
import BlockScript.Proofs.Voices

namespace BlockScript

open Run

variable {n : Nat} {N : String → Prop} {H E : Prop}

/-- What is written out speaks of names with the property. -/
def Output.Spoken (N : String → Prop) (H E : Prop) : Output → Prop
  | .nothing => True
  | .expression code _ => code = "" ∨ Told N E code
  | .statement code => H → Stated N code

/-- The text of a field that may stand in a line as it is. -/
def Quiet (N : String → Prop) (text : String) : Prop :=
  (∀ w ∈ NameReader.idle.heard text.toList, Utters N w) ∧ (NameReader.idle.behind text.toList).Rests (Utters N) ∧
    text.toList.head? ≠ some '='

instance [DecidablePred N] (text : String) : Decidable (Quiet N text) :=
  inferInstanceAs (Decidable (_ ∧ _))

theorem Quiet.told {text : String} (h : Quiet N text) : Told N False text :=
  ⟨h.1, h.2.1, False.elim⟩

/-- The texts of fields that the rule of a block writes as they are. -/
def Block.rawTexts (b : Block n) : BlockKind → List String
  | .repetition => ((b.field? "TIMES").map Value.toText).toList
  | .serialSetup => [Scene.uartNumber (b.fieldD "SERIAL_ID" (.text "0")).toText, (b.fieldD "SPEED" (.text "115200")).toText]
  | kind => (b.pinUseAs? kind).elim [] fun use => use.pins.map Value.toText

/-- A scene in which the blocks around are written out with names of the property. -/
structure Scene.Vocal (N : String → Prop) (H E : Prop) (s : Scene n) : Prop where
  settings : ∃ extra, s.settings = { extraReserved := extra }
  words : ∀ kind, s.block.kind? = some kind → ∀ f ∈ kind.functions, ∀ w ∈ f.words, N w
  free : Tells N H (s.emit none) fun o => o = .nothing
  below : ∀ name, Tells N H (s.emit (s.block.child? name)) (Output.Spoken N H E)
  behind : Tells N H (s.emit s.block.next) (Output.Spoken N H E)
  quiet : H → ∀ kind, s.block.kind? = some kind → ∀ text ∈ s.block.rawTexts kind, Quiet N text

theorem Told.around_field {x start pin rest : String} (hx : Told N E x) (hstart : Opens start ∧ Parted start)
    (hpin : Quiet N pin) (hrest : Fixed rest ∧ Parted rest) : Told N True (x ++ start ++ pin ++ rest) := by
  have hfront : Told N False (x ++ start ++ pin) := hx.around hpin.told hstart
  exact hfront.closed hrest

namespace Device

theorem declaration_voiced {d : Device} (hd : d ∈ all) {x pin : String} (hx : Told N E x) (hpin : Quiet N pin) :
    Voiced N (d.declaration x pin) := by
  have hdigital : ∀ mode, Fixed (", Pin." ++ mode ++ ")") ∧ Parted (", Pin." ++ mode ++ ")") →
      Voiced N ((digital mode).declaration x pin) := by
    intro mode hmode
    have heq : (digital mode).declaration x pin = x ++ " = Pin(" ++ pin ++ (", Pin." ++ mode ++ ")") := by
      simp only [digital, String.append_assoc]
    rw [heq]
    exact (hx.around_field (by decide) hpin hmode).voiced
  simp only [all, List.mem_cons, List.not_mem_nil, or_false] at hd
  obtain rfl | rfl | rfl | rfl | rfl := hd
  · exact hdigital "IN" (by decide)
  · exact hdigital "OUT" (by decide)
  · exact (hx.around_field (by decide) hpin (by decide)).voiced
  · exact (hx.around_field (by decide) hpin (by decide)).voiced
  · have hfront : Told N False (x ++ " = PWM(Pin(" ++ pin) := hx.around hpin.told (by decide)
    have hboth : Told N E (x ++ " = PWM(Pin(" ++ pin ++ ", mode=Pin.OUT))\n" ++ x) := hfront.around hx (by decide)
    have hall : Told N E (x ++ " = PWM(Pin(" ++ pin ++ ", mode=Pin.OUT))\n" ++ x ++ ".freq(50)") :=
      hboth.closed (by decide)
    exact hall.voiced

theorem use_tells {d : Device} (hd : d ∈ all) {pin : Value} (hpin : H → Quiet N pin.toText) :
    Tells N H (d.use pin) (Told N E) := by
  have hobject : Tells N H (do
      let object ← generatedName (d.object ++ pin.toText)
      let _ ← declare (d.tag ++ pin.toText) (d.declaration object pin.toText)
      return object) (Told N E) := by
    refine (identifier_tells (E := E) _ _).bind fun x hx => ?_
    exact (declare_tells fun hH => declaration_voiced hd hx (hpin hH)).bind fun _ _ => .pure hx
  have hneeds : ∀ name ∈ d.needs, "from " ++ "machine" ++ " import " ++ name ∈ importLines := by
    simp only [all, List.mem_cons, List.not_mem_nil, or_false] at hd
    obtain rfl | rfl | rfl | rfl | rfl := hd <;> decide
  unfold use
  refine (importFrom_tells (by decide)).bind fun _ _ => ?_
  cases hd : d.needs with
  | none => exact hobject
  | some name =>
    rw [hd] at hneeds
    exact (importFrom_tells (hneeds name rfl)).bind fun _ _ => hobject

end Device

namespace Scene

variable {s : Scene n}

theorem valueAt_spoken (hs : s.Vocal N H E) (name : String) (outer : Rank) (default : String) :
    Tells N H (s.valueAt name outer default) fun code => code = default ∨ Told N E code := by
  have hbelow := hs.below name
  unfold valueAt
  cases hchild : s.block.child? name with
  | none => exact .pure (Or.inl rfl)
  | some child =>
    rw [hchild] at hbelow
    refine hbelow.bind fun o ho => ?_
    cases o with
    | nothing => exact .pure (Or.inl rfl)
    | statement code => exact .throw _
    | expression code rank =>
      refine .pure ?_
      obtain rfl | hcode := ho
      · exact Or.inl rfl
      · split
        · exact Or.inl rfl
        · refine Or.inr ?_
          unfold Rank.parenthesize
          split
          · exact (hcode.behind (by decide)).closed (by decide)
          · exact hcode

theorem valueAt_tells (hs : s.Vocal N H E) (name : String) (outer : Rank) {default : String} (hd : Fixed default) :
    Tells N H (s.valueAt name outer default) (Told N E) := by
  refine (valueAt_spoken hs name outer default).imp ?_
  rintro code (rfl | hcode)
  · exact .fixed hd
  · exact hcode

theorem value_tells (hs : s.Vocal N H E) (name : String) (outer : OperatorClass) {default : String} (hd : Fixed default) :
    Tells N H (s.value name outer default) (Told N E) :=
  valueAt_tells hs name outer.rank hd

theorem select_tells {α : Type} (name default : String) (table : List (String × α)) :
    Tells N H (s.select name default table) fun a => ∃ t, (t, a) ∈ table := by
  unfold select Value.lookup
  dsimp only
  cases s.block.fieldD name (.text default) with
  | text t =>
    dsimp only
    cases hl : table.lookup t with
    | none => exact .throw _
    | some a =>
      obtain ⟨_, _, rfl, -⟩ := List.lookup_eq_some_iff.mp hl
      exact .pure ⟨t, by simp⟩
  | _ => exact .throw _

theorem compared_tells {α : Type} (name default : String) (table : List (String × α)) :
    Tells N H (s.compared name default table) fun a => ∃ t, (t, a) ∈ table := by
  unfold compared
  cases ha : s.compared? name default table with
  | none => exact .throw _
  | some a =>
    obtain ⟨t, -, ht, -⟩ := of_compared ha
    exact .pure ⟨t, ht⟩

theorem function_tells (hs : s.Vocal N H E) {kind : BlockKind} (hk : s.block.kind? = some kind) {f : FunctionText}
    (hf : f ∈ kind.functions) : Tells N H (s.function f) (Told N E) := by
  obtain ⟨extra, hsettings⟩ := hs.settings
  unfold function provide
  rw [hsettings]
  exact provide_tells fun _ x hx hN =>
    (FunctionText.proper_of_mem (kind.functions_subset hf)).voiced hx hN (hs.words kind hk f hf)

/-- A value with its text. -/
def Values (N : String → Prop) (E : Prop) (o : Output) : Prop :=
  ∃ code rank, o = .expression code rank ∧ (code = "" ∨ Told N E code)

theorem values {code : String} (h : Told N E code) (c : OperatorClass) : Values N E (Output.ofClass code c) :=
  ⟨code, c.rank, rfl, Or.inr h⟩

section Values

theorem number_tells : Tells N H s.number (Values N E) := by
  unfold number
  split
  · exact .pure (values (.literal _) _)
  · exact .throw _

theorem arithmetic_tells (hs : s.Vocal N H E) : Tells N H s.arithmetic (Values N E) := by
  have hsymbols : ∀ e ∈ arithmeticOperators, Opens e.2.symbol ∧ Parted e.2.symbol := by decide
  refine (select_tells _ _ _).bind fun op ⟨t, hop⟩ => ?_
  refine (valueAt_tells hs _ _ fixed_zero).bind fun left hleft => ?_
  refine (valueAt_tells hs _ _ fixed_zero).bind fun right hright => ?_
  exact .pure (values (hleft.around hright (hsymbols _ hop)) _)

/-- What stands in front of the argument of a function. -/
def UnaryFunction.opening : UnaryFunction → String
  | .negate => "-"
  | .powerOfTen => "10 ** "
  | .builtin name | .library name | .ofDegrees name | .toDegrees name => name ++ "("

theorem unary_tells (hs : s.Vocal N H E) (family : UnaryFamily) : Tells N H (s.unary family) (Values N E) := by
  have hopens : ∀ e ∈ unaryFunctions, Opens e.2.opening := by decide
  have hargument : ∀ outer, Tells N H (s.value "NUM" outer "0") (Told N E) := fun outer => value_tells hs _ _ fixed_zero
  refine (select_tells _ _ _).bind fun f ⟨t, hf⟩ => ?_
  have hopen := hopens _ hf
  cases f with
  | negate | powerOfTen => exact (hargument _).bind fun code hcode => .pure (values (hcode.behind hopen) _)
  | builtin name =>
    refine (hargument _).bind fun code hcode => .pure (values ?_ _)
    exact (hcode.behind hopen).closed (by decide)
  | library name =>
    refine (hargument _).bind fun code hcode => (importModule_tells (by decide)).bind fun _ _ => .pure (values ?_ _)
    exact (hcode.behind hopen).closed (by decide)
  | ofDegrees name =>
    refine (hargument _).bind fun code hcode => (importModule_tells (by decide)).bind fun _ _ => .pure (values ?_ _)
    exact (hcode.behind hopen).closed (by decide)
  | toDegrees name =>
    refine (hargument _).bind fun code hcode => (importModule_tells (by decide)).bind fun _ _ => .pure (values ?_ _)
    exact (hcode.behind hopen).closed (by decide)

theorem constant_tells : Tells N H s.constant (Values N E) := by
  have hcodes : ∀ e ∈ namedNumbers, Fixed e.2.code := by decide
  refine (select_tells _ _ _).bind fun c ⟨t, hc⟩ => ?_
  have hcode : Values N E (Output.ofClass c.code c.kind) := values (.fixed (hcodes _ hc)) _
  dsimp only
  split
  · exact (importModule_tells (by decide)).bind fun _ _ => .pure hcode
  · exact .pure hcode

theorem told_remainderTest {number divisor result : String} (hn : Told N E number) (hd : Told N E divisor)
    (hr : Fixed result) : Values N E (remainderTest number divisor result) := by
  have hquotient : Told N E (number ++ " % " ++ divisor) := hn.around hd (by decide)
  have hresult : Told N E result := .fixed hr
  exact values (hquotient.around hresult (by decide)) _

theorem property_tells (hs : s.Vocal N H E) (hk : s.block.kind? = some .property) :
    Tells N H s.property (Values N E) := by
  have hnumber : ∀ outer, Tells N H (s.value "NUMBER_TO_CHECK" outer "0") (Told N E) :=
    fun outer => value_tells hs _ _ fixed_zero
  unfold property
  dsimp only
  cases hproperty : s.compared? "PROPERTY" "EVEN" numberProperties with
  | none => exact (hnumber _).bind fun _ _ => .throw _
  | some property =>
    obtain ⟨t, -, hmem, -⟩ := of_compared hproperty
    cases property with
    | prime =>
      refine (hnumber _).bind fun x hx => (importModule_tells (by decide)).bind fun _ _ => ?_
      refine (function_tells hs hk List.mem_cons_self).bind fun f hf => .pure (values ?_ _)
      have hcall : Told N E (f ++ "(" ++ x) := hf.around hx (by decide)
      exact hcall.closed (by decide)
    | comparison symbol =>
      have hsymbol : symbol = ">" ∨ symbol = "<" := by
        simp only [numberProperties, List.mem_cons, Prod.mk.injEq, NumberProperty.comparison.injEq, reduceCtorEq, and_false,
          List.not_mem_nil, or_false, false_or] at hmem
        exact hmem.imp And.right And.right
      have hclosing : Fixed (" " ++ symbol ++ " 0") ∧ Parted (" " ++ symbol ++ " 0") := by
        obtain rfl | rfl := hsymbol <;> decide
      refine (hnumber _).bind fun x hx => .pure (values ?_ _)
      have heq : x ++ " " ++ symbol ++ " 0" = x ++ (" " ++ symbol ++ " 0") := by
        simp only [String.append_assoc]
      rw [heq]
      exact hx.closed hclosing
    | remainder divisor result =>
      have htexts : Fixed divisor ∧ Fixed result := by
        simp only [numberProperties, List.mem_cons, Prod.mk.injEq, NumberProperty.remainder.injEq, reduceCtorEq, and_false,
          List.not_mem_nil, or_false, false_or] at hmem
        obtain ⟨-, rfl, rfl⟩ | ⟨-, rfl, rfl⟩ | ⟨-, rfl, rfl⟩ := hmem <;> decide
      exact (hnumber _).bind fun x hx => .pure (told_remainderTest hx (.fixed htexts.1) htexts.2)
    | divisible =>
      refine (hnumber _).bind fun x hx => (valueAt_tells hs _ _ fixed_zero).bind fun divisor hdivisor => ?_
      exact .pure (told_remainderTest hx hdivisor (by decide))

theorem modulo_tells (hs : s.Vocal N H E) : Tells N H s.modulo (Values N E) := by
  refine (value_tells hs _ _ fixed_zero).bind fun a ha => (valueAt_tells hs _ _ fixed_zero).bind fun b hb => ?_
  exact .pure (values (ha.around hb (by decide)) _)

theorem constrain_tells (hs : s.Vocal N H E) : Tells N H s.constrain (Values N E) := by
  refine (value_tells hs _ _ fixed_zero).bind fun value hvalue => ?_
  refine (value_tells hs _ _ fixed_zero).bind fun low hlow => ?_
  refine (value_tells hs _ _ (by decide)).bind fun high hhigh => .pure (values ?_ _)
  have hinner : Told N E ("min(max(" ++ value) := hvalue.behind (by decide)
  have hmax : Told N E ("min(max(" ++ value ++ ", " ++ low) := hinner.around hlow (by decide)
  have hmin : Told N E ("min(max(" ++ value ++ ", " ++ low ++ "), " ++ high) := hmax.around hhigh (by decide)
  exact hmin.closed (by decide)

theorem randomWhole_tells (hs : s.Vocal N H E) (hk : s.block.kind? = some .randomWhole) :
    Tells N H s.randomWhole (Values N E) := by
  refine (importModule_tells (by decide)).bind fun _ _ => ?_
  refine (value_tells hs _ _ fixed_zero).bind fun low hlow => (value_tells hs _ _ fixed_zero).bind fun high hhigh => ?_
  refine (function_tells hs hk List.mem_cons_self).bind fun f hf => .pure (values ?_ _)
  have hfirst : Told N E (f ++ "(" ++ low) := hf.around hlow (by decide)
  have hboth : Told N E (f ++ "(" ++ low ++ ", " ++ high) := hfirst.around hhigh (by decide)
  exact hboth.closed (by decide)

theorem randomFraction_tells : Tells N H randomFraction (Values N E) :=
  (importModule_tells (by decide)).bind fun _ _ => .pure (values (.fixed (by decide)) _)

theorem rescale_tells (hs : s.Vocal N H E) (hk : s.block.kind? = some .rescale) :
    Tells N H s.rescale (Values N E) := by
  refine (value_tells hs _ _ fixed_zero).bind fun value hvalue => (value_tells hs _ _ fixed_zero).bind fun top htop => ?_
  refine (function_tells hs hk List.mem_cons_self).bind fun f hf => .pure (values ?_ _)
  have hfirst : Told N E (f ++ "(" ++ value) := hf.around hvalue (by decide)
  have hboth : Told N E (f ++ "(" ++ value ++ ", 0, 1024, 0, " ++ top) := hfirst.around htop (by decide)
  exact hboth.closed (by decide)

/-- An operator that stands between spaces. -/
theorem told_spaced {left right word : String} (hl : Told N E left) (hr : Told N E right)
    (hw : Opens (" " ++ word ++ " ") ∧ Parted (" " ++ word ++ " ")) : Told N E (left ++ " " ++ word ++ " " ++ right) := by
  have heq : left ++ " " ++ word ++ " " ++ right = left ++ (" " ++ word ++ " ") ++ right := by
    simp only [String.append_assoc]
  rw [heq]
  exact hl.around hr hw

theorem compare_tells (hs : s.Vocal N H E) : Tells N H s.compare (Values N E) := by
  have hwords : ∀ e ∈ comparisons, Opens (" " ++ e.2 ++ " ") ∧ Parted (" " ++ e.2 ++ " ") := by decide
  refine (select_tells _ _ _).bind fun op ⟨t, hop⟩ => ?_
  refine (value_tells hs _ _ fixed_zero).bind fun a ha => (value_tells hs _ _ fixed_zero).bind fun b hb => ?_
  exact .pure (values (told_spaced ha hb (hwords _ hop)) _)

theorem logic_tells (hs : s.Vocal N H E) : Tells N H s.logic (Values N E) := by
  have hwords : ∀ e ∈ connectives, (Opens (" " ++ e.2.word ++ " ") ∧ Parted (" " ++ e.2.word ++ " ")) ∧ Fixed e.2.neutral := by
    decide
  have hfalse : Fixed "False" := by decide
  refine (compared_tells _ _ _).bind fun op ⟨t, hop⟩ => ?_
  obtain ⟨hword, hneutral⟩ := hwords _ hop
  refine (valueAt_spoken hs "A" _ "").bind fun left hleft => (valueAt_spoken hs "B" _ "").bind fun right hright => ?_
  have hmissing : Fixed (if left.isEmpty && right.isEmpty then "False" else op.neutral) := by
    split
    · exact hfalse
    · exact hneutral
  have hoperand : ∀ code, code = "" ∨ Told N E code → Told N E
      (if code.isEmpty then (if left.isEmpty && right.isEmpty then "False" else op.neutral) else code) := by
    rintro code (rfl | hcode)
    · exact .fixed hmissing
    · split
      · exact .fixed hmissing
      · exact hcode
  exact .pure (values (told_spaced (hoperand left hleft) (hoperand right hright) hword) _)

theorem negate_tells (hs : s.Vocal N H E) : Tells N H s.negate (Values N E) :=
  (value_tells hs _ _ (by decide)).bind fun _ hcode => .pure (values (hcode.behind (by decide)) _)

theorem boolean_tells : Tells N H s.boolean (Values N E) := by
  refine (compared_tells _ _ _).bind fun code ⟨t, hcode⟩ => .pure (values (.fixed ?_) _)
  have hwords : code = "True" ∨ code = "False" := by
    simp only [List.mem_cons, Prod.mk.injEq, List.not_mem_nil, or_false] at hcode
    exact hcode.imp And.right And.right
  obtain rfl | rfl := hwords <;> decide

theorem ternary_tells (hs : s.Vocal N H E) : Tells N H s.ternary (Values N E) := by
  refine (value_tells hs _ _ (by decide)).bind fun condition hcondition => ?_
  refine (value_tells hs _ _ (by decide)).bind fun first hfirst => ?_
  refine (value_tells hs _ _ (by decide)).bind fun second hsecond => .pure (values ?_ _)
  have hif : Told N E (first ++ " if " ++ condition) := hfirst.around hcondition (by decide)
  exact hif.around hsecond (by decide)

theorem text_tells : Tells N H s.text (Values N E) :=
  .pure (values (.quote _) _)

theorem join_tells (hs : s.Vocal N H E) : Tells N H s.join (Values N E) := by
  unfold join
  split
  · exact .throw _
  · rename_i count _
    have hpieces : Tells N H ((List.range count.toNat).mapM fun k => do
        return "str(" ++ (← s.value ("ADD" ++ toString k) .none "''") ++ ")")
        fun pieces => pieces.length = (List.range count.toNat).length ∧ ∀ piece ∈ pieces, Told N E piece := by
      refine .mapM _ fun k _ => (value_tells hs _ _ (by decide)).bind fun code hcode => .pure ?_
      exact (hcode.behind (by decide)).closed (by decide)
    refine hpieces.bind fun pieces ⟨hlength, htold⟩ => ?_
    rw [List.length_range] at hlength
    split
    · exact .pure (values (.fixed (by decide)) _)
    · rename_i hzero
      -- a negative number of pieces joins to nothing
      have hjoined : Text.joined " + " pieces = "" ∨ Told N E (Text.joined " + " pieces) := by
        by_cases hne : pieces = []
        · exact Or.inl (by rw [hne]; rfl)
        · exact Or.inr (.joined (by decide) hne htold)
      split
      · exact .pure ⟨_, _, rfl, hjoined⟩
      · exact .pure ⟨_, _, rfl, hjoined⟩

theorem length_tells (hs : s.Vocal N H E) : Tells N H s.length (Values N E) := by
  refine (value_tells hs _ _ (by decide)).bind fun code hcode => .pure (values ?_ _)
  exact (hcode.behind (by decide)).closed (by decide)

theorem isEmpty_tells (hs : s.Vocal N H E) : Tells N H s.isEmpty (Values N E) := by
  refine (value_tells hs _ _ (by decide)).bind fun code hcode => .pure (values ?_ _)
  exact (hcode.behind (by decide)).closed (by decide)

theorem variableGet_tells : Tells N H s.variableGet (Values N E) :=
  (identifier_tells _ _).bind fun _ hx => .pure (values hx _)

theorem cast_tells (hs : s.Vocal N H E) : Tells N H s.cast (Values N E) := by
  have hopens : ∀ e ∈ casts, Opens (e.2 ++ "(") := by decide
  refine (select_tells _ _ _).bind fun function ⟨t, hf⟩ => ?_
  refine (value_tells hs _ _ fixed_zero).bind fun code hcode => .pure (values ?_ _)
  exact (hcode.behind (hopens _ hf)).closed (by decide)

theorem clock_tells {function : String} (h : Fixed ("time." ++ function ++ "()")) :
    Tells N H (clock function) (Values N E) :=
  (importModule_tells (by decide)).bind fun _ _ => .pure (values (.fixed h) _)

theorem arguments_tells : Tells N H s.arguments fun _ => True := by
  unfold arguments
  split
  · exact .pure trivial
  · exact .throw _

theorem call_tells (hs : s.Vocal N H E) : Tells N H s.call (Told N E) := by
  refine (identifier_tells (E := E) _ _).bind fun name hname => ?_
  refine arguments_tells.bind fun names _ => ?_
  have hgiven : Tells N H ((List.range names.length).mapM fun k => s.value ("ARG" ++ toString k) .none "None")
      fun given => given.length = (List.range names.length).length ∧ ∀ code ∈ given, Told N E code :=
    .mapM _ fun k _ => value_tells hs _ _ (by decide)
  exact hgiven.bind fun given hcodes => .pure (hname.call hcodes.2)

theorem callValue_tells (hs : s.Vocal N H E) : Tells N H s.callValue (Values N E) :=
  (call_tells hs).bind fun _ hcode => .pure (values hcode _)

end Values

section Devices

theorem pin_quiet (hs : s.Vocal N H E) {kind : BlockKind} (hk : s.block.kind? = some kind) {pin : Value} {task : PinTask}
    {tag : String} (huse : s.block.pinUseAs? kind = some ⟨[pin], task, tag⟩) (hH : H) : Quiet N pin.toText := by
  have hraw : s.block.rawTexts kind = [pin.toText] := by
    cases kind with
    | repetition | serialSetup => cases huse
    | _ =>
      simp only [Block.rawTexts, huse]
      rfl
  apply hs.quiet hH kind hk
  rw [hraw]
  exact List.mem_singleton_self _

theorem digitalRead_tells (hs : s.Vocal N H E) (hk : s.block.kind? = some .digitalRead) :
    Tells N H s.digitalRead (Values N E) := by
  refine (claimPin_tells _ _ _ _).bind fun _ _ => ?_
  refine (Device.use_tells (E := E) (by simp [Device.all]) (pin_quiet hs hk rfl)).bind fun x hx => .pure (values ?_ _)
  exact hx.closed (by decide)

theorem level_tells : Tells N H s.level (Values N E) := by
  refine (compared_tells _ _ _).bind fun code ⟨t, hcode⟩ => ?_
  have hwords : code = "HIGH" ∨ code = "LOW" := by
    simp only [List.mem_cons, Prod.mk.injEq, List.not_mem_nil, or_false] at hcode
    exact hcode.imp And.right And.right
  refine (importFrom_tells (by decide)).bind fun _ _ => (declare_tells fun _ => ?_).bind fun _ _ => .pure (values ?_ _)
  · have hconstants : Told N True "HIGH = const(1)\nLOW = const(0)" := .fixed (by decide)
    exact hconstants.voiced
  · obtain rfl | rfl := hwords <;> exact .fixed (by decide)

theorem analogRead_tells (hs : s.Vocal N H E) (hk : s.block.kind? = some .analogRead) :
    Tells N H s.analogRead (Values N E) := by
  refine (claimPin_tells _ _ _ _).bind fun _ _ => ?_
  refine (Device.use_tells (E := E) (by simp [Device.all]) (pin_quiet hs hk rfl)).bind fun x hx => .pure (values ?_ _)
  exact hx.closed (by decide)

theorem pulse_tells (hs : s.Vocal N H E) {timeout : Bool} (hk : s.block.kind? = some (.pulse timeout)) :
    Tells N H (s.pulse timeout) (Values N E) := by
  unfold pulse
  dsimp only
  refine (value_tells hs _ _ (by decide)).bind fun level hlevel => (claimPin_tells _ _ _ _).bind fun _ _ => ?_
  refine (importFrom_tells (by decide)).bind fun _ _ => ?_
  refine (Device.use_tells (E := E) (by simp [Device.all]) (pin_quiet hs hk rfl)).bind fun x hx => ?_
  have hfirst : Told N E ("time_pulse_us(" ++ x) := hx.behind (by decide)
  have hboth : Told N E ("time_pulse_us(" ++ x ++ ", " ++ level) := hfirst.around hlevel (by decide)
  have hlimit : ∀ limit, limit = "" ∨ Told N E limit ∧ Parted limit →
      Tells N H (pure (Output.call ("time_pulse_us(" ++ x ++ ", " ++ level ++ limit ++ ")")) : Run Output) (Values N E) := by
    rintro limit (rfl | ⟨hlimit, hparted⟩)
    · rw [String.append_empty]
      exact .pure (values (hboth.closed (by decide)) _)
    · exact .pure (values ((hboth.append hlimit hparted).closed (by decide)) _)
  split
  · refine (value_tells hs _ _ (by decide)).bind fun code hcode => hlimit _ (Or.inr ⟨hcode.behind (by decide), ?_⟩)
    exact Parted.append (by decide) code
  · exact hlimit _ (Or.inl rfl)

theorem servoRead_tells (hs : s.Vocal N H E) (hk : s.block.kind? = some .servoRead) :
    Tells N H s.servoRead (Values N E) := by
  refine (claimPin_tells _ _ _ _).bind fun _ _ => ?_
  refine (Device.use_tells (E := E) (by simp [Device.all]) (pin_quiet hs hk rfl)).bind fun x hx => .pure (values ?_ _)
  have hx : Told N E ("int((" ++ x) := hx.behind (by decide)
  have hmin : Told N E ("int((" ++ x ++ ".duty() - " ++ toString dutyMin) := hx.around (.int _) (by decide)
  have hangle : Told N E ("int((" ++ x ++ ".duty() - " ++ toString dutyMin ++ ") * " ++ toString maxAngle) :=
    hmin.around (.int _) (by decide)
  have hspan : Told N E ("int((" ++ x ++ ".duty() - " ++ toString dutyMin ++ ") * " ++ toString maxAngle ++ " / " ++
    toString dutySpan) := hangle.around (.int _) (by decide)
  exact hspan.closed (by decide)

end Devices

/-- The rules of value blocks. -/
theorem valueRule_tells (hs : s.Vocal N H E) {kind : BlockKind} (hk : s.block.kind? = some kind)
    (hv : kind.isValue = true) : Tells N H (s.standard kind) (Values N E) := by
  cases kind with
  | number => exact number_tells
  | arithmetic => exact arithmetic_tells hs
  | unary family => exact unary_tells hs family
  | constant => exact constant_tells
  | property => exact property_tells hs hk
  | modulo => exact modulo_tells hs
  | constrain => exact constrain_tells hs
  | randomWhole => exact randomWhole_tells hs hk
  | randomFraction => exact randomFraction_tells
  | compare => exact compare_tells hs
  | logic => exact logic_tells hs
  | negate => exact negate_tells hs
  | boolean => exact boolean_tells
  | null => exact .pure (values (.fixed (by decide)) _)
  | ternary => exact ternary_tells hs
  | text => exact text_tells
  | join => exact join_tells hs
  | length => exact length_tells hs
  | isEmpty => exact isEmpty_tells hs
  | variableGet => exact variableGet_tells
  | cast => exact cast_tells hs
  | rescale => exact rescale_tells hs hk
  | clockMillis => exact clock_tells (by decide)
  | clockMicros => exact clock_tells (by decide)
  | callValue => exact callValue_tells hs
  | digitalRead => exact digitalRead_tells hs hk
  | level => exact level_tells
  | analogRead => exact analogRead_tells hs hk
  | pulse timeout => exact pulse_tells hs hk
  | servoRead => exact servoRead_tells hs hk
  | blankValue => exact .pure ⟨"", _, rfl, Or.inl rfl⟩
  | _ => cases hv

end Scene

end BlockScript
