import BlockScript.Proofs.Chains
import BlockScript.Proofs.Phrases
import BlockScript.Proofs.SceneViews
import BlockScript.Proofs.Suites
import BlockScript.Proofs.ValueBlocks

namespace BlockScript

/-- A text that ends in something to see. -/
def Ended (code : String) : Prop :=
  code.toList.getLast?.any (!Text.isBlank ·) = true

instance (code : String) : Decidable (Ended code) :=
  inferInstanceAs (Decidable (_ = true))

variable {n : Nat} {α β : Type} {a b : String}

theorem Ended.append (h : Ended b) (a : String) : Ended (a ++ b) := by
  unfold Ended
  rw [String.toList_append]
  exact getLast_any_append h

theorem Ended.firm (h : Ended a) : Firm (a ++ "\n") :=
  Or.inr ⟨a, rfl, h⟩

/-- A fixed end is enough. -/
theorem Ended.firm_behind (h : Ended b) (a : String) : Firm (a ++ (b ++ "\n")) := by
  rw [← String.append_assoc]
  exact (h.append a).firm

theorem Ended.ne_empty (h : Ended a) : a ≠ "" := by
  rintro rfl
  cases h

theorem IsName.ended (h : IsName a) : Ended a :=
  (Told.name (N := fun _ => True) h.1 trivial).ended trivial

theorem Ended.joined {codes : List String} (hne : codes ≠ []) (h : ∀ code ∈ codes, Ended code) (separator : String) :
    Ended (Text.joined separator codes) := by
  induction codes with
  | nil => exact absurd rfl hne
  | cons code codes ih =>
    rw [List.forall_mem_cons] at h
    cases codes with
    | nil => exact h.1
    | cons next codes => exact (ih (List.cons_ne_nil _ _) h.2).append _

namespace Output

/-- A value is empty or ends in something to see. -/
def Closed : Output → Prop
  | .expression code _ => code = "" ∨ Ended code
  | _ => True

/-- A value is empty or ends in something to see, and so do the last lines of a statement. -/
def Shut : Output → Prop
  | .statement code => Firm code
  | o => o.Closed

theorem Shut.closed {o : Output} (h : o.Shut) : o.Closed := by
  cases o with
  | statement => trivial
  | nothing | expression => exact h

/-- No value. -/
def Valueless : Output → Bool
  | .expression _ _ => false
  | _ => true

theorem closed_of_valueless {o : Output} (h : o.Valueless) : o.Closed := by
  cases o with
  | expression => cases h
  | nothing | statement => trivial

theorem shut_ofClass (h : Ended a) (c : OperatorClass) : (ofClass a c).Shut :=
  Or.inr h

theorem shut_before (a : String) (h : Ended b) (c : OperatorClass) : (ofClass (a ++ b) c).Shut :=
  Or.inr (h.append a)

theorem shut_call (a : String) : (statement (a ++ ")\n")).Shut :=
  (by decide : Ended ")").firm_behind a

end Output

namespace Run

/-- What comes back has the property, whatever the session. -/
def Always (r : Run α) (P : α → Prop) : Prop :=
  ∀ s t a, r.run s = (.ok a, t) → P a

namespace Always

variable {P : α → Prop} {Q : β → Prop} {r : Run α} {f : α → Run β}

theorem give {a : α} (h : P a) : Always (Pure.pure a) P := by
  intro s t b hb
  rwa [← (ok_of_run_pure hb).1]

theorem throw (f : Fault) : Always (throw f) P :=
  fun _ _ _ hr => (not_ok_of_run_throw hr).elim

theorem bind (h : ∀ a, Always (f a) Q) : Always (r >>= f) Q := by
  intro s t b hb
  obtain ⟨a, u, -, hb⟩ := ok_of_run_bind hb
  exact h a _ _ _ hb

end Always

end Run

namespace Run.Gives

variable {u : Session} {P : α → Prop} {Q : β → Prop} {r : Run α} {f : α → Run β}

theorem give {a : α} (h : P a) : Gives u (Pure.pure a) P :=
  (pure a).imp fun _ hb => hb ▸ h

/-- What the first step gives may be used behind the second one. -/
theorem next (hr : Gives u r P) (hf : ∀ a, Gives u (f a) fun b => P a → Q b) : Gives u (r >>= f) Q :=
  (hr.bind hf).imp fun _ ⟨_, ha, hb⟩ => hb ha

/-- The first step only has to keep the identifiers. -/
theorem last (hr : r.Within Session.Grows) (hf : ∀ a, Gives u (f a) Q) : Gives u (r >>= f) Q :=
  ((skip hr).bind hf).imp fun _ ⟨_, _, hb⟩ => hb

theorem all_mapM {l : List α} (hf : ∀ a ∈ l, Gives u (f a) Q) : Gives u (l.mapM f) fun bs => ∀ b ∈ bs, Q b := by
  refine (mapM (Q := fun _ => Q) l hf).imp fun bs hbs => ?_
  induction hbs with
  | nil => exact List.forall_mem_nil _
  | cons hb _ ih => exact List.forall_mem_cons.mpr ⟨hb, ih fun a ha => hf a (List.mem_cons_of_mem _ ha)⟩

end Run.Gives

namespace Scene

open Run Output

variable {s : Scene n} {u : Session}

theorem importModule_grows (source : String) : (importModule source).Within Session.Grows :=
  Session.grows_steps.fragment _ _ _ _

theorem importFrom_grows (source name : String) : (importFrom source name).Within Session.Grows :=
  Session.grows_steps.fragment _ _ _ _

theorem claimPin_grows (pin : Value) (task : PinTask) (tag : String) : (s.claimPin pin task tag).Within Session.Grows :=
  Session.grows_steps.pin _ _ _ _

theorem function_grows (f : FunctionText) : (s.function f).Within Session.Grows :=
  Session.grows_steps.provide _ _

theorem use_grows (d : Device) (pin : Value) : (d.use pin).Within Session.Grows :=
  (d.use_gives (u := {}) pin).grows

theorem select_grows (name default : String) (table : List (String × α)) :
    (s.select name default table).Within Session.Grows :=
  (select_gives (u := {}) name default table).grows

/-- The texts of a table have ends to see, and so has the one that a field selects. -/
theorem select_ended {name default : String} {table : List (String × α)} {text : α → String}
    (h : ∀ e ∈ table, Ended (text e.2)) : Gives u (s.select name default table) fun a => Ended (text a) := by
  refine (select_gives name default table).imp fun a ha => ?_
  obtain ⟨t, -, hmem, -⟩ := of_compared ha
  exact h _ hmem

theorem compared_ended {name default : String} {table : List (String × α)} {text : α → String}
    (h : ∀ e ∈ table, Ended (text e.2)) : Gives u (s.compared name default table) fun a => Ended (text a) := by
  refine (compared_gives name default table).imp fun a ha => ?_
  obtain ⟨t, -, hmem, -⟩ := of_compared ha
  exact h _ hmem

theorem number_shut : Gives u s.number Shut := by
  unfold number
  cases (s.block.fieldD "NUM" (.int 0)).toDouble with
  | error f => exact .throw _ _
  | ok d => exact .give (shut_ofClass ((Told.literal (N := fun _ => True) (E := True) d).ended trivial) _)

theorem constant_shut : Gives u s.constant Shut := by
  have hcodes : ∀ e ∈ namedNumbers, Ended e.2.code := by decide
  refine (select_ended hcodes).next fun c => ?_
  dsimp only
  split
  · exact .last (importModule_grows _) fun _ => .give fun hc => shut_ofClass hc _
  · exact .give fun hc => shut_ofClass hc _

theorem level_shut : Gives u s.level Shut := by
  have hwords : ∀ e ∈ [("HIGH", "HIGH"), ("LOW", "LOW")], Ended (id e.2) := by decide
  refine (compared_ended hwords).next fun word => .last (importFrom_grows _ _) fun _ => ?_
  exact .last (Session.grows_steps.fragment _ _ _ _) fun _ => .give fun hword => shut_ofClass hword _

theorem boolean_shut : Gives u s.boolean Shut := by
  have hwords : ∀ e ∈ [("TRUE", "True"), ("FALSE", "False")], Ended (id e.2) := by decide
  exact (compared_ended hwords).next fun word => .give fun hword => shut_ofClass hword _

theorem flow_shut : Gives u s.flow Shut := by
  have hlines : ∀ e ∈ [("BREAK", "break\n"), ("CONTINUE", "continue\n")], Firm e.2 := by
    rw [List.forall_mem_cons, List.forall_mem_singleton]
    exact ⟨(by decide : Ended "break").firm, (by decide : Ended "continue").firm⟩
  refine (compared_gives _ _ _).next fun line => .give fun hline => ?_
  obtain ⟨t, -, hmem, -⟩ := of_compared hline
  exact hlines _ hmem

section

variable (hs : ∀ name, Gives u (s.emit (s.block.child? name)) Closed)

include hs

theorem valueAt_closed (name : String) (outer : Rank) (default : String) :
    Gives u (s.valueAt name outer default) fun code => code = default ∨ Ended code := by
  have hbelow := hs name
  unfold valueAt
  cases hchild : s.block.child? name with
  | none => exact .give (Or.inl rfl)
  | some child =>
    rw [hchild] at hbelow
    refine hbelow.next fun o => ?_
    cases o with
    | nothing => exact .give fun _ => Or.inl rfl
    | statement code => exact .throw _ _
    | expression code rank =>
      refine .give fun hcode => ?_
      split
      · exact Or.inl rfl
      · rename_i hne
        refine Or.inr ?_
        unfold Rank.parenthesize
        split
        · exact Ended.append (by decide) _
        · exact hcode.resolve_left (by simpa using hne)

theorem valueAt_ended (name : String) (outer : Rank) {default : String} (hd : Ended default) :
    Gives u (s.valueAt name outer default) Ended := by
  refine (valueAt_closed hs name outer default).imp ?_
  rintro code (rfl | hcode)
  · exact hd
  · exact hcode

theorem value_ended (name : String) (outer : OperatorClass) {default : String} (hd : Ended default) :
    Gives u (s.value name outer default) Ended :=
  valueAt_ended hs name outer.rank hd

theorem valueAt_grows (name : String) (outer : Rank) (default : String) :
    (s.valueAt name outer default).Within Session.Grows :=
  (valueAt_closed hs name outer default).grows

theorem value_grows (name : String) (outer : OperatorClass) (default : String) :
    (s.value name outer default).Within Session.Grows :=
  valueAt_grows hs name outer.rank default

theorem property_shut : Gives u s.property Shut := by
  have hresults : ∀ e ∈ numberProperties, ∀ d r, e.2 = .remainder d r → Ended r := by
    simp [numberProperties]
    decide
  unfold property
  cases hp : s.compared? "PROPERTY" "EVEN" numberProperties with
  | none => exact .last (value_grows hs _ _ _) fun _ => .throw _ _
  | some p =>
    cases p with
    | prime =>
      refine .last (value_grows hs _ _ _) fun _ => .last (importModule_grows _) fun _ => ?_
      exact .last (function_grows _) fun _ => .give (shut_before _ (by decide) _)
    | comparison symbol => exact .last (value_grows hs _ _ _) fun _ => .give (shut_before _ (by decide) _)
    | remainder divisor result =>
      obtain ⟨t, -, hmem, -⟩ := of_compared hp
      exact .last (value_grows hs _ _ _) fun _ => .give (shut_before _ (hresults _ hmem _ _ rfl) _)
    | divisible =>
      refine .last (value_grows hs _ _ _) fun _ => .last (valueAt_grows hs _ _ _) fun _ => ?_
      exact .give (shut_before _ (by decide) _)

theorem unary_shut (family : UnaryFamily) : Gives u (s.unary family) Shut := by
  refine .last (select_grows _ _ _) fun f => ?_
  cases f with
  | negate | powerOfTen => exact (value_ended hs _ _ (by decide)).next fun _ => .give fun h => shut_before _ h _
  | builtin => exact .last (value_grows hs _ _ _) fun _ => .give (shut_before _ (by decide) _)
  | library | ofDegrees | toDegrees =>
    refine .last (value_grows hs _ _ _) fun _ => .last (importModule_grows _) fun _ => ?_
    exact .give (shut_before _ (by decide) _)

theorem logic_shut : Gives u s.logic Shut := by
  have hneutral : ∀ e ∈ connectives, Ended e.2.neutral := by decide
  refine (compared_ended hneutral).next fun op => .last (value_grows hs _ _ _) fun left => ?_
  refine (valueAt_closed hs _ _ _).next fun right => .give fun hright hop => shut_before _ ?_ _
  have hneutral : Ended (if left.isEmpty && right.isEmpty then "False" else op.neutral) := by
    split
    · decide
    · exact hop
  dsimp only
  split
  · exact hneutral
  · next hne => exact hright.resolve_left (by simpa using hne)

theorem join_shut : Gives u s.join Shut := by
  unfold join
  cases s.pieceCount with
  | error f => exact .throw _ _
  | ok count =>
    have hpieces : ∀ k ∈ List.range count.toNat, Gives u (do
        return "str(" ++ (← s.value ("ADD" ++ toString k) .none "''") ++ ")" : Run String) fun code => Ended code :=
      fun k _ => .last (value_grows hs _ _ _) fun _ => .give (Ended.append (by decide) _)
    refine (Gives.all_mapM hpieces).next fun codes => ?_
    have hjoined : ∀ c, (∀ code ∈ codes, Ended code) → (ofClass (Text.joined " + " codes) c).Shut := by
      intro c hcodes
      by_cases hne : codes = []
      · exact Or.inl (by rw [hne]; rfl)
      · exact shut_ofClass (.joined hne hcodes _) _
    split
    · exact .give fun _ => shut_ofClass (by decide) _
    · split
      · exact .give (hjoined _)
      · exact .give (hjoined _)

theorem call_ended : Gives u s.call Ended := by
  refine .last (Session.identifier_within _ _) fun _ => .last (arguments_gives (u := u)).grows fun _ => ?_
  exact .last (Session.grows_joins.mapM _ fun k _ => value_grows hs _ _ _) fun _ => .give (Ended.append (by decide) _)

theorem pulse_shut (timeout : Bool) : Gives u (s.pulse timeout) Shut := by
  refine .last (value_grows hs _ _ _) fun _ => .last (claimPin_grows _ _ _) fun _ => .last (importFrom_grows _ _) fun _ => ?_
  refine .last (use_grows _ _) fun _ => ?_
  cases timeout with
  | false => exact .give (shut_before _ (by decide) _)
  | true => exact .last (value_grows hs _ _ _) fun _ => .give (shut_before _ (by decide) _)

/-- Every value has an end to see. -/
theorem value_shut {kind : BlockKind} (hvalue : kind.isValue = true) : Gives u (s.standard kind) Shut := by
  cases kind with
  | number => exact number_shut
  | arithmetic =>
    refine .last (select_grows _ _ _) fun _ => .last (valueAt_grows hs _ _ _) fun _ => ?_
    exact (valueAt_ended hs _ _ (by decide)).next fun _ => .give fun h => shut_before _ h _
  | unary family => exact unary_shut hs family
  | constant => exact constant_shut
  | property => exact property_shut hs
  | modulo =>
    refine .last (value_grows hs _ _ _) fun _ => (valueAt_ended hs _ _ (by decide)).next fun _ => ?_
    exact .give fun h => shut_before _ h _
  | constrain =>
    refine .last (value_grows hs _ _ _) fun _ => .last (value_grows hs _ _ _) fun _ => ?_
    exact .last (value_grows hs _ _ _) fun _ => .give (shut_before _ (by decide) _)
  | randomWhole =>
    refine .last (importModule_grows _) fun _ => .last (value_grows hs _ _ _) fun _ => .last (value_grows hs _ _ _) fun _ => ?_
    exact .last (function_grows _) fun _ => .give (shut_before _ (by decide) _)
  | randomFraction => exact .last (importModule_grows _) fun _ => .give (shut_ofClass (by decide) _)
  | compare =>
    refine .last (select_grows _ _ _) fun _ => .last (value_grows hs _ _ _) fun _ => ?_
    exact (value_ended hs _ _ (by decide)).next fun _ => .give fun h => shut_before _ h _
  | logic => exact logic_shut hs
  | negate => exact (value_ended hs _ _ (by decide)).next fun _ => .give fun h => shut_before _ h _
  | boolean => exact boolean_shut
  | null => exact .give (shut_ofClass (by decide) _)
  | ternary =>
    refine .last (value_grows hs _ _ _) fun _ => .last (value_grows hs _ _ _) fun _ => ?_
    exact (value_ended hs _ _ (by decide)).next fun _ => .give fun h => shut_before _ h _
  | text => exact .give (shut_ofClass ((Told.quote (N := fun _ => True) (E := True) _).ended trivial) _)
  | join => exact join_shut hs
  | length | isEmpty => exact .last (value_grows hs _ _ _) fun _ => .give (shut_before _ (by decide) _)
  | variableGet => exact (identifier_gives _ _).next fun _ => .give fun hx => shut_ofClass hx.2.ended _
  | cast =>
    refine .last (select_grows _ _ _) fun _ => .last (value_grows hs _ _ _) fun _ => ?_
    exact .give (shut_before _ (by decide) _)
  | rescale =>
    refine .last (value_grows hs _ _ _) fun _ => .last (value_grows hs _ _ _) fun _ => ?_
    exact .last (function_grows _) fun _ => .give (shut_before _ (by decide) _)
  | clockMillis | clockMicros => exact .last (importModule_grows _) fun _ => .give (shut_before _ (by decide) _)
  | callValue => exact (call_ended hs).next fun _ => .give fun h => shut_ofClass h _
  | digitalRead | analogRead | servoRead =>
    exact .last (claimPin_grows _ _ _) fun _ => .last (use_grows _ _) fun _ => .give (shut_before _ (by decide) _)
  | level => exact level_shut
  | pulse timeout => exact pulse_shut hs timeout
  | blankValue => exact .give (Or.inl rfl)
  | _ => cases hvalue

theorem returnIf_shut : Gives u s.returnIf Shut := by
  refine .last (value_grows hs _ _ _) fun _ => ?_
  split
  · exact (value_ended hs _ _ (by decide)).next fun _ => .give fun h => ((h.append " ").append _).firm
  · exact .give (Ended.firm (by rw [String.append_empty]; exact Ended.append (by decide) _))

theorem stepperSetup_shut : Gives u s.stepperSetup Shut := by
  refine .last (select_grows _ _ _) fun _ => .last (value_grows hs _ _ _) fun _ => .last (valueAt_grows hs _ _ _) fun _ => ?_
  have hclaims : ∀ pins : List Value, (pins.forM fun pin => do
      let _ ← s.claimPin pin .stepper "Stepper" : Run PUnit).Within Session.Grows := fun pins =>
    Session.grows_joins.forM pins fun pin _ => Session.grows_joins.bind (claimPin_grows _ _ _) fun _ => Session.grows_joins.pure _
  refine .last (hclaims _) fun _ => .last (importFrom_grows _ _) fun _ => .last (Session.identifier_within _ _) fun _ => ?_
  split
  · exact .throw _ _
  · exact .last (Session.grows_steps.fragment _ _ _ _) fun _ => .give (Or.inl rfl)

theorem analogWrite_shut : Gives u s.analogWrite Shut := by
  refine .last (value_grows hs _ _ _) fun _ => .last (claimPin_grows _ _ _) fun _ => ?_
  dsimp only
  split
  · exact .last (Session.grows_joins.throw _) fun _ => .last (use_grows _ _) fun _ => .give (shut_call _)
  · refine .last (Session.grows_steps.warn _ _ _) fun _ => .last (use_grows _ _) fun _ => .give (shut_call _)

theorem servoWrite_shut : Gives u s.servoWrite Shut := by
  have hduty : ∀ angle, (s.duty angle).Within Session.Grows := by
    intro angle
    unfold duty
    split
    · exact Session.grows_joins.throw _
    · split
      · exact Session.grows_joins.throw _
      · exact Session.grows_joins.pure _
    · exact Session.grows_joins.bind (function_grows _) fun _ => Session.grows_joins.pure _
  refine .last (value_grows hs _ _ _) fun _ => .last (claimPin_grows _ _ _) fun _ => .last (use_grows _ _) fun _ => ?_
  exact .last (hduty _) fun _ => .give (shut_call _)

/-- Every line that a rule writes by itself has an end to see. -/
theorem line_shut (hempty : Ended s.settings.emptySuite) {kind : BlockKind} (hvalue : kind.isValue = false)
    (hlines : kind.holdsLines = false) : Gives u (s.standard kind) Shut := by
  cases kind with
  | change | variableSet =>
    refine (value_ended hs _ _ (by decide)).next fun _ => .last (Session.identifier_within _ _) fun _ => ?_
    exact .give fun h => (h.append _).firm
  | flow => exact flow_shut
  | delayMillis | delayMicros =>
    exact .last (value_grows hs _ _ _) fun _ => .last (importModule_grows _) fun _ => .give (shut_call _)
  | halt =>
    refine .give ?_
    rw [Settings.emptyLine, ← String.append_assoc]
    exact ((hempty.append _).append _).firm
  | callLine => exact (call_ended hs).next fun _ => .give fun h => h.firm
  | returnIf => exact returnIf_shut hs
  | digitalWrite =>
    refine .last (value_grows hs _ _ _) fun _ => .last (claimPin_grows _ _ _) fun _ => ?_
    exact .last (use_grows _ _) fun _ => .give (shut_call _)
  | builtinLed =>
    refine .last (value_grows hs _ _ _) fun _ => .last (claimPin_grows _ _ _) fun _ => .last (importFrom_grows _ _) fun _ => ?_
    exact .last (Session.grows_steps.fragment _ _ _ _) fun _ => .last (use_grows _ _) fun _ => .give (shut_call _)
  | analogWrite => exact analogWrite_shut hs
  | tone =>
    refine .last (value_grows hs _ _ _) fun _ => .last (claimPin_grows _ _ _) fun _ => ?_
    exact .last (use_grows _ _) fun _ => .give (shut_call _)
  | silence =>
    refine .last (claimPin_grows _ _ _) fun _ => .last (use_grows _ _) fun pwm => .give ?_
    exact (by decide : Ended ".duty(0)").firm_behind pwm
  | servoWrite => exact servoWrite_shut hs
  | stepperSetup => exact stepperSetup_shut hs
  | stepperMove =>
    refine .last (value_grows hs _ _ _) fun _ => .last (importModule_grows _) fun _ => .last (function_grows _) fun _ => ?_
    exact .last (Session.identifier_within _ _) fun _ => .give (shut_call _)
  | serialPrint => exact .last (value_grows hs _ _ _) fun _ => .give (shut_call _)
  | serialSetup =>
    refine .last (importFrom_grows _ _) fun _ => .last (Session.identifier_within _ _) fun _ => ?_
    exact .last (Session.grows_steps.fragment _ _ _ _) fun _ => .give (Or.inl rfl)
  | blankLine => exact .give (Or.inl rfl)
  | conditional | repetition | whileUntil | counting | forEach | entry | procedure => cases hlines
  | _ => cases hvalue

end

/-- Only the rules of value blocks write out a value. -/
theorem line_valueless {kind : BlockKind} (hvalue : kind.isValue = false) : Always (s.standard kind) fun o => o.Valueless := by
  cases kind with
  | change | variableSet => exact .bind fun _ => .bind fun _ => .give rfl
  | conditional alwaysElse =>
    refine .bind fun _ => ?_
    dsimp only
    split
    · exact .bind fun _ => .give rfl
    · exact .give rfl
  | repetition =>
    have hrepeated : ∀ times, Always (s.repeated times) fun o => o.Valueless := by
      intro times
      unfold repeated
      split
      · exact .throw _
      · exact .bind fun _ => .bind fun _ => .give rfl
    rw [standard, repetition]
    split
    · exact hrepeated _
    · exact .bind hrepeated
  | whileUntil | forEach => exact .bind fun _ => .bind fun _ => .bind fun _ => .give rfl
  | counting =>
    refine .bind fun _ => .bind fun _ => .bind fun _ => .bind fun _ => .bind fun _ => ?_
    dsimp only
    split
    · exact .throw _
    · exact .bind fun _ => .give rfl
    · exact .bind fun _ => .bind fun _ => .bind fun _ => .bind fun _ => .give rfl
  | flow | callLine | serialPrint => exact .bind fun _ => .give rfl
  | delayMillis | delayMicros => exact .bind fun _ => .bind fun _ => .give rfl
  | halt | blankLine => exact .give rfl
  | procedure returns =>
    refine .bind fun _ => .bind fun _ => .bind fun _ => .bind fun _ => .bind fun _ => .bind fun _ => .bind fun _ => ?_
    exact .bind fun _ => .give rfl
  | returnIf =>
    refine .bind fun _ => ?_
    split
    · exact .bind fun _ => .give rfl
    · exact .give rfl
  | entry =>
    refine .bind fun _ => ?_
    dsimp only
    split
    · exact .bind fun _ => .bind fun _ => .give rfl
    · exact .bind fun _ => .give rfl
  | digitalWrite | tone => exact .bind fun _ => .bind fun _ => .bind fun _ => .give rfl
  | builtinLed => exact .bind fun _ => .bind fun _ => .bind fun _ => .bind fun _ => .bind fun _ => .give rfl
  | analogWrite =>
    refine .bind fun _ => .bind fun _ => ?_
    dsimp only
    split
    · exact .bind fun _ => .bind fun _ => .give rfl
    · exact .bind fun _ => .bind fun _ => .give rfl
  | silence => exact .bind fun _ => .bind fun _ => .give rfl
  | servoWrite | stepperMove => exact .bind fun _ => .bind fun _ => .bind fun _ => .bind fun _ => .give rfl
  | stepperSetup =>
    refine .bind fun _ => .bind fun _ => .bind fun _ => .bind fun _ => .bind fun _ => .bind fun _ => ?_
    split
    · exact .throw _
    · exact .bind fun _ => .give rfl
  | serialSetup => exact .bind fun _ => .bind fun _ => .bind fun _ => .give rfl
  | _ => cases hvalue

/-- What a rule without value gives is closed. -/
theorem line_closed {kind : BlockKind} (hk : s.block.kind? = some kind) (hvalue : kind.isValue = false)
    (hgrows : ∀ p, (s.emit (s.block.at? p)).Within Session.Grows) : Gives u (s.standard kind) fun o => o.Valueless := by
  obtain ⟨ps, -, hscript⟩ : s.Asks s.emit (s.standard kind) ((s.withEmit s.emit).standard kind) := standard_asks hk
  have hwithin := hscript.within Session.grows_joins (fun d _ => d.within Session.grows_steps) hgrows
  exact ⟨hwithin, fun hr _ _ => line_valueless hvalue _ _ _ hr⟩

theorem ruleOutput_closed (hr : s.job.rules = {}) (hgrows : ∀ p, (s.emit (s.block.at? p)).Within Session.Grows)
    (hs : ∀ name, Gives u (s.emit (s.block.child? name)) Closed) :
    Gives u s.ruleOutput fun o => o.Closed ∧ (s.block.isValue = false → o.Valueless) := by
  rw [ruleOutput_eq hr]
  cases hk : s.block.kind? with
  | some kind =>
    have hkind : s.block.isValue = kind.isValue := by
      rw [Block.isValue, hk]
    rw [hkind]
    cases hvalue : kind.isValue with
    | true => exact (value_shut hs hvalue).imp fun o ho => ⟨ho.closed, fun h => by cases h⟩
    | false => exact (line_closed hk hvalue hgrows).imp fun o ho => ⟨closed_of_valueless ho, fun _ => ho⟩
  | none =>
    have hkind : s.block.isValue = s.block.hasOutput := by
      rw [Block.isValue, hk]
    rw [hkind]
    refine .last (Session.grows_steps.record _) fun _ => .give ?_
    cases s.block.hasOutput with
    | true => exact ⟨Or.inl rfl, fun h => by cases h⟩
    | false => exact ⟨trivial, fun _ => rfl⟩

/-- A value with no comments in front of it and nothing behind it is that of its rule. -/
theorem output_closed (hr : s.job.rules = {}) (hcomments : s.comments = "")
    (halone : s.block.isValue = true → s.block.next = none) (hgrows : ∀ p, (s.emit (s.block.at? p)).Within Session.Grows)
    (hnone : Gives u (s.emit none) fun o => o = .nothing)
    (hs : ∀ name, Gives u (s.emit (s.block.child? name)) Closed) : Gives u s.output Closed := by
  have hplaced : ∀ code, (s.placed code).Within Session.Grows := placed_within Session.grows_joins hgrows
  refine (ruleOutput_closed hr hgrows hs).next fun o => ?_
  cases o with
  | nothing => exact .give fun _ => trivial
  | statement code => exact .last (hplaced _) fun _ => .give fun _ => trivial
  | expression code rank =>
    cases hvalue : s.block.isValue with
    | false => exact .last (hplaced _) fun _ => .give fun ho => (Bool.false_ne_true (ho.2 rfl)).elim
    | true =>
      refine (placed_gives (halone hvalue) hnone code).next fun text => .give fun htext ho => ?_
      rw [htext, hcomments, String.empty_append]
      exact ho.1

end Scene

/-- Blocks that are closed under children, without comments, written out by the standard rules. Nothing follows a value. -/
structure Job.Sparse (job : Job n) (R : Fin n → Prop) : Prop where
  rules : job.rules = {}
  closed : ∀ i, R i → ∀ j ∈ job.diagram.childrenOf i, R j
  silent : ∀ i, R i → (job.diagram.block i).comment? = none
  alone : ∀ i, R i → (job.diagram.block i).isValue = true → (job.diagram.block i).next = none

namespace Job.Sparse

variable {job : Job n} {R : Fin n → Prop} {i : Fin n} {o : Option (Fin n)}

theorem below (hj : job.Sparse R) (hi : R i) (p : Place) : ∀ j, (job.diagram.block i).at? p = some j → R j :=
  fun j hp => hj.closed i hi j (Diagram.mem_childrenOf hp)

theorem comments_eq (hj : job.Sparse R) (hi : R i) (emit : Option (Fin n) → Run Output) :
    Scene.comments ⟨job, i, emit⟩ = "" := by
  refine Scene.comments_eq_empty (hj.silent i hi) fun slot hslot j hchild k hk => hj.silent k ?_
  refine Diagram.descendants_closed hj.closed (hj.closed i hi j ?_) k hk
  refine List.mem_map.mpr ⟨(slot.name, j), List.mem_append_left _ ?_, rfl⟩
  exact List.mem_filterMap.mpr ⟨slot, hslot, by rw [hchild]; rfl⟩

/-- Every value that is written out ends in something to see. -/
theorem emitWithin_closed (hj : job.Sparse R) (u : Session) (depth : Nat) (ho : ∀ i, o = some i → R i) :
    Run.Gives u (job.emitWithin depth o) Output.Closed := by
  have hnone : ∀ depth, Run.Gives u (job.emitWithin depth none) Output.Closed := fun depth =>
    (job.emitWithin_none_gives depth).imp fun o ho => ho ▸ trivial
  induction depth generalizing o with
  | zero =>
    cases o with
    | none => exact hnone 0
    | some i => exact .throw _ _
  | succ depth ih =>
    cases o with
    | none => exact hnone _
    | some i =>
      have hi := ho i rfl
      have hbelow : ∀ p, Run.Gives u (job.emitWithin depth ((job.diagram.block i).at? p)) Output.Closed :=
        fun p => ih (hj.below hi p)
      refine .last Session.grows_steps.checkOpen fun _ => ?_
      dsimp only
      split
      · exact hbelow .next
      · exact Scene.output_closed hj.rules (hj.comments_eq hi _) (hj.alone i hi) (fun p => (hbelow p).grows)
          (job.emitWithin_none_gives depth) fun name => hbelow (.slot name)

end Job.Sparse

end BlockScript
