import BlockScript.Proofs.Identifiers
import BlockScript.Proofs.Scripts

namespace BlockScript.Scene

variable {n : Nat} {s : Scene n} {emit : Option (Fin n) → Run Output}

section Values

theorem number_scripted : Scripted s emit [] (fun _ => True) s.number s.number := by
  unfold number
  split
  · exact .done _
  · exact .throw _

theorem constant_scripted : Scripted s emit [] (fun _ => True) s.constant s.constant := by
  refine (select_scripted _ _ _).first fun c _ => ?_
  dsimp only
  split
  · exact (Scripted.importModule _ (by decide)).first fun _ _ => .done _
  · exact .done _

theorem boolean_scripted : Scripted s emit [] (fun _ => True) s.boolean s.boolean :=
  (compared_scripted _ _ _).first fun _ _ => .done _

theorem variableGet_scripted (h : s.block.usesVariable) : Scripted s emit [] (fun _ => True) s.variableGet s.variableGet :=
  (variableOf_scripted h _).first fun _ _ => .done _

theorem level_scripted : Scripted s emit [] (fun _ => True) s.level s.level := by
  refine (compared_scripted _ _ _).first fun _ _ => (Scripted.importFrom _ _ (by decide)).first fun _ _ => ?_
  exact (Scripted.constant .levels _).first fun _ _ => .done _

theorem clock_scripted (function : String) : Scripted s emit [] (fun _ => True) (clock function) (clock function) :=
  (Scripted.importModule _ (by decide)).first fun _ _ => .done _

theorem randomFraction_scripted : Scripted s emit [] (fun _ => True) randomFraction randomFraction :=
  (Scripted.importModule _ (by decide)).first fun _ _ => .done _

theorem arithmetic_scripted :
    Scripted s emit [.slot "A", .slot "B"] (fun _ => True) s.arithmetic (s.withEmit emit).arithmetic := by
  refine (select_scripted _ _ _).first fun _ _ => ?_
  exact (valueAt_scripted "A" _ _).bind fun _ _ => (valueAt_scripted "B" _ _).last fun _ _ => .done _

theorem unary_scripted (family : UnaryFamily) :
    Scripted s emit [.slot "NUM"] (fun _ => True) (s.unary family) ((s.withEmit emit).unary family) := by
  refine (select_scripted _ _ _).first fun f _ => ?_
  cases f with
  | negate | powerOfTen | builtin name => exact (value_scripted "NUM" _ _).last fun _ _ => .done _
  | library name | ofDegrees name | toDegrees name =>
    exact (value_scripted "NUM" _ _).last fun _ _ => (Scripted.importModule _ (by decide)).first fun _ _ => .done _

theorem property_scripted :
    Scripted s emit [.slot "NUMBER_TO_CHECK", .slot "DIVISOR"] (fun _ => True) s.property (s.withEmit emit).property := by
  have hnumber : ∀ outer, Scripted s emit [.slot "NUMBER_TO_CHECK"] (fun _ => True) (s.value "NUMBER_TO_CHECK" outer "0")
      ((s.withEmit emit).value "NUMBER_TO_CHECK" outer "0") := fun outer => value_scripted _ _ _
  have hsub : [Place.slot "NUMBER_TO_CHECK"].Sublist [.slot "NUMBER_TO_CHECK", .slot "DIVISOR"] := by simp
  unfold property
  rw [show (s.withEmit emit).compared? "PROPERTY" "EVEN" numberProperties =
    s.compared? "PROPERTY" "EVEN" numberProperties from rfl]
  dsimp only
  split
  · refine ((hnumber _).asking hsub).last fun _ _ => (Scripted.importModule _ (by decide)).first fun _ _ => ?_
    exact (function_scripted (by simp [FunctionText.all])).first fun _ _ => .done _
  · exact ((hnumber _).asking hsub).last fun _ _ => .done _
  · exact ((hnumber _).asking hsub).last fun _ _ => .done _
  · exact (hnumber _).bind fun _ _ => (valueAt_scripted "DIVISOR" _ _).last fun _ _ => .done _
  · exact ((hnumber _).asking hsub).last fun _ _ => .throw _

theorem modulo_scripted :
    Scripted s emit [.slot "DIVIDEND", .slot "DIVISOR"] (fun _ => True) s.modulo (s.withEmit emit).modulo :=
  (value_scripted "DIVIDEND" _ _).bind fun _ _ => (valueAt_scripted "DIVISOR" _ _).last fun _ _ => .done _

theorem constrain_scripted :
    Scripted s emit [.slot "VALUE", .slot "LOW", .slot "HIGH"] (fun _ => True) s.constrain (s.withEmit emit).constrain := by
  refine (value_scripted "VALUE" _ _).bind fun _ _ => (value_scripted "LOW" _ _).bind fun _ _ => ?_
  exact (value_scripted "HIGH" _ _).last fun _ _ => .done _

theorem randomWhole_scripted :
    Scripted s emit [.slot "FROM", .slot "TO"] (fun _ => True) s.randomWhole (s.withEmit emit).randomWhole := by
  refine (Scripted.importModule _ (by decide)).first fun _ _ => (value_scripted "FROM" _ _).bind fun _ _ => ?_
  exact (value_scripted "TO" _ _).last fun _ _ => (function_scripted (by simp [FunctionText.all])).first fun _ _ => .done _

theorem rescale_scripted :
    Scripted s emit [.slot "NUM", .slot "DMAX"] (fun _ => True) s.rescale (s.withEmit emit).rescale := by
  refine (value_scripted "NUM" _ _).bind fun _ _ => (value_scripted "DMAX" _ _).last fun _ _ => ?_
  exact (function_scripted (by simp [FunctionText.all])).first fun _ _ => .done _

theorem compare_scripted :
    Scripted s emit [.slot "A", .slot "B"] (fun _ => True) s.compare (s.withEmit emit).compare := by
  refine (select_scripted _ _ _).first fun _ _ => ?_
  exact (value_scripted "A" _ _).bind fun _ _ => (value_scripted "B" _ _).last fun _ _ => .done _

theorem logic_scripted :
    Scripted s emit [.slot "A", .slot "B"] (fun _ => True) s.logic (s.withEmit emit).logic := by
  refine (compared_scripted _ _ _).first fun _ _ => ?_
  exact (value_scripted "A" _ _).bind fun _ _ => (value_scripted "B" _ _).last fun _ _ => .done _

theorem negate_scripted : Scripted s emit [.slot "BOOL"] (fun _ => True) s.negate (s.withEmit emit).negate :=
  (value_scripted "BOOL" _ _).last fun _ _ => .done _

theorem ternary_scripted :
    Scripted s emit [.slot "IF", .slot "THEN", .slot "ELSE"] (fun _ => True) s.ternary (s.withEmit emit).ternary := by
  refine (value_scripted "IF" _ _).bind fun _ _ => (value_scripted "THEN" _ _).bind fun _ _ => ?_
  exact (value_scripted "ELSE" _ _).last fun _ _ => .done _

theorem length_scripted : Scripted s emit [.slot "VALUE"] (fun _ => True) s.length (s.withEmit emit).length :=
  (value_scripted "VALUE" _ _).last fun _ _ => .done _

theorem isEmpty_scripted : Scripted s emit [.slot "VALUE"] (fun _ => True) s.isEmpty (s.withEmit emit).isEmpty :=
  (value_scripted "VALUE" _ _).last fun _ _ => .done _

theorem cast_scripted :
    Scripted s emit [.slot "VARIABLE_SETTYPE_INPUT"] (fun _ => True) s.cast (s.withEmit emit).cast :=
  (select_scripted _ _ _).first fun _ _ => (value_scripted _ _ _).last fun _ _ => .done _

/-- Slots that have a number behind a common name. -/
def numbered (name : String) (count : Nat) : List Place :=
  (List.range count).map fun k => .slot (name ++ toString k)

theorem join_scripted (s : Scene n) (emit : Option (Fin n) → Run Output) :
    ∃ count, Scripted s emit (numbered "ADD" count) (fun _ => True) s.join (s.withEmit emit).join := by
  unfold join
  rw [show (s.withEmit emit).pieceCount = s.pieceCount from rfl]
  cases s.pieceCount with
  | error f => exact ⟨0, .throw _⟩
  | ok count =>
    refine ⟨count.toNat, Scripted.last (P := fun _ => True) ?_ fun pieces _ => ?_⟩
    · unfold numbered
      rw [List.map_eq_flatMap]
      exact Scripted.mapM _ fun k _ => (value_scripted _ _ _).last fun _ _ => .done _
    · split
      · exact .done _
      · split
        · exact .done _
        · exact .done _

theorem call_scripted (s : Scene n) (emit : Option (Fin n) → Run Output) :
    ∃ count, Scripted s emit (numbered "ARG" count) (fun _ => True) s.call (s.withEmit emit).call := by
  cases harguments : s.block.arguments with
  | error f =>
    refine ⟨0, (Scripted.procedureName _).first fun _ _ => ?_⟩
    refine arguments_scripted.first fun names hnames => ?_
    rw [harguments] at hnames
    cases hnames
  | ok names =>
    refine ⟨names.length, (Scripted.procedureName _).first fun _ _ => ?_⟩
    refine arguments_scripted.first fun names' hnames => ?_
    rw [harguments] at hnames
    cases hnames
    refine Scripted.last (P := fun _ => True) ?_ fun _ _ => .done _
    unfold numbered
    rw [List.map_eq_flatMap]
    exact Scripted.mapM _ fun k _ => value_scripted _ _ _

end Values

section Statements

theorem flow_scripted : Scripted s emit [] (fun _ => True) s.flow s.flow :=
  (compared_scripted _ _ _).first fun _ _ => .done _

theorem serialSetup_scripted : Scripted s emit [] (fun _ => True) s.serialSetup s.serialSetup := by
  refine (Scripted.importFrom _ _ (by decide)).first fun _ _ => (Scripted.partName ⟨_, Or.inr rfl⟩).first fun _ _ => ?_
  exact (Scripted.setup (fun htag => absurd (congrArg String.toList htag) (by simp [userSetupTag])) _).first fun _ _ => .done _

theorem variableSet_scripted (h : s.block.usesVariable) :
    Scripted s emit [.slot "VALUE"] (fun _ => True) s.variableSet (s.withEmit emit).variableSet :=
  (value_scripted "VALUE" _ _).last fun _ _ => (variableOf_scripted h _).first fun _ _ => .done _

theorem change_scripted (h : s.block.usesVariable) :
    Scripted s emit [.slot "DELTA"] (fun _ => True) s.change (s.withEmit emit).change :=
  (value_scripted "DELTA" _ _).last fun _ _ => (variableOf_scripted h _).first fun _ _ => .done _

theorem delay_scripted (function slot : String) :
    Scripted s emit [.slot slot] (fun _ => True) (s.delay function slot) ((s.withEmit emit).delay function slot) :=
  (value_scripted slot _ _).last fun _ _ => (Scripted.importModule _ (by decide)).first fun _ _ => .done _

theorem branch_scripted (k : Nat) : Scripted s emit [.slot ("IF" ++ toString k), .slot ("DO" ++ toString k)] (fun _ => True)
    (s.branch k) ((s.withEmit emit).branch k) :=
  (value_scripted _ _ _).bind fun _ _ => (suite_scripted _).last fun _ _ => .done _

theorem conditional_scripted (alwaysElse : Bool) : Scripted s emit
    ((s.branchNumbers.flatMap fun k => [.slot ("IF" ++ toString k), .slot ("DO" ++ toString k)]) ++ [.slot "ELSE"])
    (fun _ => True) (s.conditional alwaysElse) ((s.withEmit emit).conditional alwaysElse) := by
  refine (Scripted.mapM s.branchNumbers fun k _ => branch_scripted k).bind fun _ _ => ?_
  dsimp only
  rw [withEmit_block]
  split
  · exact (suite_scripted "ELSE").last fun _ _ => .done _
  · exact (Scripted.done _).unasked

theorem repeated_scripted (times : String) :
    Scripted s emit [.slot "DO"] (fun _ => True) (s.repeated times) ((s.withEmit emit).repeated times) := by
  unfold repeated
  split
  · exact (Scripted.throw _).unasked
  · exact (Scripted.distinctName _).first fun _ _ => loopBody_scripted.last fun _ _ => .done _

theorem repetition_scripted :
    Scripted s emit [.slot "TIMES", .slot "DO"] (fun _ => True) s.repetition (s.withEmit emit).repetition := by
  unfold repetition
  rw [withEmit_block]
  split
  · exact (Scripted.done _).first fun times _ => (repeated_scripted times).asking (by simp)
  · exact (value_scripted "TIMES" _ _).bind fun times _ => repeated_scripted times

theorem whileUntil_scripted :
    Scripted s emit [.slot "BOOL", .slot "DO"] (fun _ => True) s.whileUntil (s.withEmit emit).whileUntil := by
  refine (compared_scripted _ _ _).first fun _ _ => (value_scripted "BOOL" _ _).bind fun _ _ => ?_
  exact loopBody_scripted.last fun _ _ => .done _

theorem forEach_scripted (h : s.block.usesVariable) :
    Scripted s emit [.slot "LIST", .slot "DO"] (fun _ => True) s.forEach (s.withEmit emit).forEach := by
  refine (variableOf_scripted h _).first fun _ _ => (value_scripted "LIST" _ _).bind fun _ _ => ?_
  exact loopBody_scripted.last fun _ _ => .done _

theorem counting_scripted (h : s.block.usesVariable) :
    Scripted s emit [.slot "FROM", .slot "TO", .slot "BY", .slot "DO"] (fun _ => True) s.counting
      (s.withEmit emit).counting := by
  refine (variableOf_scripted h _).first fun _ _ => (value_scripted "FROM" _ _).bind fun _ _ => ?_
  refine (value_scripted "TO" _ _).bind fun _ _ => (value_scripted "BY" _ _).bind fun _ _ => ?_
  refine loopBody_scripted.last fun _ _ => ?_
  dsimp only
  split
  · exact .throw _
  · exact (knownSequence_scripted _ _ _).first fun _ _ => .done _
  · refine (keepBound_scripted _ _ _).first fun _ _ => (keepBound_scripted _ _ _).first fun _ _ => ?_
    exact (keepBound_scripted _ _ _).first fun _ _ => (boundSequence_scripted _ _ _).first fun _ _ => .done _

theorem entry_scripted :
    Scripted s emit [.slot "SETUP_FUNC", .slot "LOOP_FUNC"] (fun _ => True) s.entry (s.withEmit emit).entry := by
  refine (lines_scripted "SETUP_FUNC").bind fun _ _ => ?_
  have hloop : Scripted s emit [.slot "LOOP_FUNC"] (fun _ => True) (s.suite "LOOP_FUNC")
      ((s.withEmit emit).suite "LOOP_FUNC") := suite_scripted _
  dsimp only
  split
  · exact (Scripted.setup (fun _ => rfl) _).first fun _ _ => hloop.last fun _ _ => .done _
  · exact hloop.last fun _ _ => .done _

/-- A definition has the blocks behind it written out by itself and leaves nothing. -/
theorem procedure_scripted (h : Workspace.isProcedure s.block) :
    Scripted s emit [.slot "STACK", .slot "RETURN", .next] (· = .nothing) s.procedure (s.withEmit emit).procedure := by
  refine (Scripted.procedureName _).first fun _ _ => (suite_scripted "STACK").bind fun _ _ => ?_
  refine (value_scripted "RETURN" _ _).bind fun _ _ => assignedGlobals_scripted.first fun _ _ => ?_
  refine arguments_scripted.first fun names hnames => ?_
  have hparameters : Scripted s emit [] (fun _ => True) (names.mapM Run.variableName) (names.mapM Run.variableName) := by
    have hplaces : (names.flatMap fun _ => ([] : List Place)) = [] := by simp
    rw [← hplaces]
    exact Scripted.mapM names fun name hname => .variableName (.argument h hnames hname)
  refine hparameters.first fun _ _ => (placed_scripted _).last fun _ _ => ?_
  exact (Scripted.addProcedure h _ _).first fun _ _ => .pure _ rfl

theorem returnIf_scripted :
    Scripted s emit [.slot "CONDITION", .slot "VALUE"] (fun _ => True) s.returnIf (s.withEmit emit).returnIf := by
  refine (value_scripted "CONDITION" _ _).bind fun _ _ => ?_
  dsimp only
  rw [withEmit_block]
  split
  · exact (value_scripted "VALUE" _ _).last fun _ _ => .done _
  · exact (Scripted.done _).unasked

theorem stepperMove_scripted :
    Scripted s emit [.slot "STEPPER_STEPS"] (fun _ => True) s.stepperMove (s.withEmit emit).stepperMove := by
  refine (value_scripted "STEPPER_STEPS" _ _).last fun _ _ => (Scripted.importModule _ (by decide)).first fun _ _ => ?_
  refine (function_scripted (by simp [FunctionText.all])).first fun _ _ => ?_
  exact (Scripted.partName ⟨_, Or.inl rfl⟩).first fun _ _ => .done _

theorem serialPrint_scripted :
    Scripted s emit [.slot "CONTENT"] (fun _ => True) s.serialPrint (s.withEmit emit).serialPrint :=
  (value_scripted "CONTENT" _ _).last fun _ _ => .done _

end Statements

section Devices

theorem digitalWrite_scripted (hk : s.block.kind? = some .digitalWrite) :
    Scripted s emit [.slot "STATE"] (fun _ => True) s.digitalWrite (s.withEmit emit).digitalWrite := by
  refine (value_scripted "STATE" _ _).last fun _ _ => (Scripted.claimPin hk rfl).first fun _ _ => ?_
  exact (Scripted.use (by simp [Device.all]) hk rfl).first fun _ _ => .done _

theorem digitalRead_scripted (hk : s.block.kind? = some .digitalRead) :
    Scripted s emit [] (fun _ => True) s.digitalRead s.digitalRead :=
  (Scripted.claimPin hk rfl).first fun _ _ => (Scripted.use (by simp [Device.all]) hk rfl).first fun _ _ => .done _

theorem builtinLed_scripted (hk : s.block.kind? = some .builtinLed) :
    Scripted s emit [.slot "STATE"] (fun _ => True) s.builtinLed (s.withEmit emit).builtinLed := by
  refine (value_scripted "STATE" _ _).last fun _ _ => (Scripted.claimPin hk rfl).first fun _ _ => ?_
  refine (Scripted.importFrom _ _ (by decide)).first fun _ _ => ?_
  have huse := Block.pinUse?_of_kind hk
  refine (Scripted.constant (.led huse (List.mem_singleton_self _)) _).first fun _ _ => ?_
  exact (Scripted.use (by simp [Device.all]) hk rfl).first fun _ _ => .done _

theorem analogWrite_scripted (hk : s.block.kind? = some .analogWrite) :
    Scripted s emit [.slot "NUM"] (fun _ => True) s.analogWrite (s.withEmit emit).analogWrite := by
  refine (value_scripted "NUM" _ _).last fun _ _ => (Scripted.claimPin hk rfl).first fun _ _ => ?_
  dsimp only
  rw [withEmit_settings]
  split
  · exact (Scripted.throw (P := fun _ => False) _).first fun _ h => h.elim
  · exact (Scripted.warnDuty _).first fun _ _ => (Scripted.use (by simp [Device.all]) hk rfl).first fun _ _ => .done _

theorem analogRead_scripted (hk : s.block.kind? = some .analogRead) :
    Scripted s emit [] (fun _ => True) s.analogRead s.analogRead :=
  (Scripted.claimPin hk rfl).first fun _ _ => (Scripted.use (by simp [Device.all]) hk rfl).first fun _ _ => .done _

theorem pulse_scripted {timeout : Bool} (hk : s.block.kind? = some (.pulse timeout)) :
    Scripted s emit [.slot "PULSETYPE", .slot "TIMEOUT"] (fun _ => True) (s.pulse timeout)
      ((s.withEmit emit).pulse timeout) := by
  refine (value_scripted "PULSETYPE" _ _).bind fun _ _ => (Scripted.claimPin hk rfl).first fun _ _ => ?_
  refine (Scripted.importFrom _ _ (by decide)).first fun _ _ => (Scripted.use (by simp [Device.all]) hk rfl).first fun _ _ => ?_
  cases timeout
  · exact (Scripted.done _).unasked
  · exact (value_scripted "TIMEOUT" _ _).last fun _ _ => .done _

theorem tone_scripted (hk : s.block.kind? = some .tone) :
    Scripted s emit [.slot "FREQUENCY"] (fun _ => True) s.tone (s.withEmit emit).tone := by
  refine (value_scripted "FREQUENCY" _ _).last fun _ _ => (Scripted.claimPin hk rfl).first fun _ _ => ?_
  exact (Scripted.use (by simp [Device.all]) hk rfl).first fun _ _ => .done _

theorem silence_scripted (hk : s.block.kind? = some .silence) :
    Scripted s emit [] (fun _ => True) s.silence s.silence :=
  (Scripted.claimPin hk rfl).first fun _ _ => (Scripted.use (by simp [Device.all]) hk rfl).first fun _ _ => .done _

theorem servoWrite_scripted (hk : s.block.kind? = some .servoWrite) :
    Scripted s emit [.slot "SERVO_ANGLE"] (fun _ => True) s.servoWrite (s.withEmit emit).servoWrite := by
  refine (value_scripted "SERVO_ANGLE" _ _).last fun _ _ => (Scripted.claimPin hk rfl).first fun _ _ => ?_
  exact (Scripted.use (by simp [Device.all]) hk rfl).first fun _ _ => (duty_scripted _).first fun _ _ => .done _

theorem servoRead_scripted (hk : s.block.kind? = some .servoRead) :
    Scripted s emit [] (fun _ => True) s.servoRead s.servoRead :=
  (Scripted.claimPin hk rfl).first fun _ _ => (Scripted.use (by simp [Device.all]) hk rfl).first fun _ _ => .done _

theorem stepperSetup_scripted (hk : s.block.kind? = some .stepperSetup) :
    Scripted s emit [.slot "STEPPER_STEPS", .slot "STEPPER_SPEED"] (fun _ => True) s.stepperSetup
      (s.withEmit emit).stepperSetup := by
  refine (select_scripted _ _ _).first fun count hcount => (value_scripted "STEPPER_STEPS" _ _).bind fun _ _ => ?_
  refine (valueAt_scripted "STEPPER_SPEED" _ _).last fun _ _ => ?_
  have huse : s.block.pinUse? = some ⟨s.motorPins count, .stepper, "Stepper"⟩ := by
    rw [Block.pinUse?_of_kind hk, Block.pinUseAs?, Block.wires?, hcount]
    rfl
  refine (Scripted.deed (.claims s.block.id (s.motorPins count) .stepper "Stepper") ⟨rfl, huse⟩).first fun _ _ => ?_
  refine (Scripted.importFrom _ _ (by decide)).first fun _ _ => ?_
  rename_i steps _ speed _ _ _ _ _
  cases hdelay : stepDelay (.text steps) (.text speed) with
  | error f => exact (Scripted.partName ⟨_, Or.inl rfl⟩).first fun _ _ => .throw _
  | ok delay =>
    have hobject : s.block.DeclaresObject s.motorTag s.motorTag _ true := .motor _ huse hdelay
    have hdeclared : Scripted s emit [] _ _ _ := .object hobject
    have hmotor := hdeclared.first fun _ _ => .done Output.blankLine
    simp only [Deed.run, bind_assoc, pure_bind] at hmotor
    exact hmotor

end Devices

section Emission

theorem numbered_injective (name : String) : Function.Injective fun k : Nat => Place.slot (name ++ toString k) := by
  intro k j h
  injection h with h
  exact toString_injective (String.append_right_inj name |>.mp h)

theorem numbered_nodup (name : String) (count : Nat) : (numbered name count).Nodup :=
  List.nodup_range.map (numbered_injective name)

theorem next_not_mem_numbered (name : String) (count : Nat) : Place.next ∉ numbered name count := by
  simp [numbered]

theorem branches_nodup (s : Scene n) :
    ((s.branchNumbers.flatMap fun k => [Place.slot ("IF" ++ toString k), .slot ("DO" ++ toString k)]) ++
      [Place.slot "ELSE"]).Nodup := by
  have hif : ∀ k j : Nat, "IF" ++ toString k ≠ "DO" ++ toString j := by
    intro k j h
    simpa using congrArg String.toList h
  have helse : ∀ k : Nat, "ELSE" ≠ "IF" ++ toString k ∧ "ELSE" ≠ "DO" ++ toString k := by
    intro k
    constructor
    · intro h
      simpa using congrArg String.toList h
    · intro h
      simpa using congrArg String.toList h
  have hnumbers : s.branchNumbers.Nodup := List.nodup_range.sublist (List.takeWhile_sublist _)
  refine List.Nodup.append (List.nodup_flatMap.mpr ⟨fun k _ => by simp, hnumbers.imp fun {k j} hkj => ?_⟩) (by simp) ?_
  · have hifs := (numbered_injective "IF").ne hkj
    have hdos := (numbered_injective "DO").ne hkj
    simp_all [Function.onFun, Ne.symm]
  · simpa using fun k (_ : k ∈ s.branchNumbers) => helse k

variable (s emit) in
/-- Two runs that have each place of their block written out at most once. What follows the block is left to others, unless
nothing is left. -/
def Asks (r r' : Run Output) : Prop :=
  ∃ ps : List Place, ps.Nodup ∧ Scripted s emit ps (fun o => .next ∈ ps → o = .nothing) r r'

theorem Asks.of_slots {ps : List Place} {r r' : Run Output} (h : Scripted s emit ps (fun _ => True) r r') (hps : ps.Nodup)
    (hnext : .next ∉ ps) : s.Asks emit r r' :=
  ⟨ps, hps, h.weaken (.refl _) fun _ _ hmem => absurd hmem hnext⟩

theorem standard_asks {kind : BlockKind} (hk : s.block.kind? = some kind) :
    s.Asks emit (s.standard kind) ((s.withEmit emit).standard kind) := by
  cases kind with
  | number => exact .of_slots number_scripted (by decide) (by decide)
  | arithmetic => exact .of_slots arithmetic_scripted (by decide) (by decide)
  | unary family => exact .of_slots (unary_scripted family) (by decide) (by decide)
  | constant => exact .of_slots constant_scripted (by decide) (by decide)
  | property => exact .of_slots property_scripted (by decide) (by decide)
  | change => exact .of_slots (change_scripted (Block.usesVariable_of_kind hk rfl)) (by decide) (by decide)
  | modulo => exact .of_slots modulo_scripted (by decide) (by decide)
  | constrain => exact .of_slots constrain_scripted (by decide) (by decide)
  | randomWhole => exact .of_slots randomWhole_scripted (by decide) (by decide)
  | randomFraction => exact .of_slots randomFraction_scripted (by decide) (by decide)
  | compare => exact .of_slots compare_scripted (by decide) (by decide)
  | logic => exact .of_slots logic_scripted (by decide) (by decide)
  | negate => exact .of_slots negate_scripted (by decide) (by decide)
  | boolean => exact .of_slots boolean_scripted (by decide) (by decide)
  | ternary => exact .of_slots ternary_scripted (by decide) (by decide)
  | join =>
    obtain ⟨count, h⟩ := join_scripted s emit
    exact .of_slots h (numbered_nodup _ _) (next_not_mem_numbered _ _)
  | length => exact .of_slots length_scripted (by decide) (by decide)
  | isEmpty => exact .of_slots isEmpty_scripted (by decide) (by decide)
  | variableGet => exact .of_slots (variableGet_scripted (Block.usesVariable_of_kind hk rfl)) (by decide) (by decide)
  | variableSet =>
    exact .of_slots (variableSet_scripted (Block.usesVariable_of_kind hk rfl)) (by decide) (by decide)
  | cast => exact .of_slots cast_scripted (by decide) (by decide)
  | rescale => exact .of_slots rescale_scripted (by decide) (by decide)
  | conditional alwaysElse => exact .of_slots (conditional_scripted alwaysElse) (branches_nodup s) (by simp)
  | repetition => exact .of_slots repetition_scripted (by decide) (by decide)
  | whileUntil => exact .of_slots whileUntil_scripted (by decide) (by decide)
  | counting => exact .of_slots (counting_scripted (Block.usesVariable_of_kind hk rfl)) (by decide) (by decide)
  | forEach => exact .of_slots (forEach_scripted (Block.usesVariable_of_kind hk rfl)) (by decide) (by decide)
  | flow => exact .of_slots flow_scripted (by decide) (by decide)
  | delayMillis | delayMicros => exact .of_slots (delay_scripted _ _) (by simp) (by simp)
  | clockMillis | clockMicros => exact .of_slots (clock_scripted _) (by decide) (by decide)
  | procedure returns =>
    exact ⟨_, by decide, (procedure_scripted (by simp [Workspace.isProcedure, hk])).weaken (.refl _) fun _ h _ => h⟩
  | callValue =>
    obtain ⟨count, h⟩ := call_scripted s emit
    exact .of_slots (h.last fun _ _ => .done _) (numbered_nodup _ _) (next_not_mem_numbered _ _)
  | callLine =>
    obtain ⟨count, h⟩ := call_scripted s emit
    exact .of_slots (h.last fun _ _ => .done _) (numbered_nodup _ _) (next_not_mem_numbered _ _)
  | returnIf => exact .of_slots returnIf_scripted (by decide) (by decide)
  | entry => exact .of_slots entry_scripted (by decide) (by decide)
  | digitalWrite => exact .of_slots (digitalWrite_scripted hk) (by decide) (by decide)
  | digitalRead => exact .of_slots (digitalRead_scripted hk) (by decide) (by decide)
  | builtinLed => exact .of_slots (builtinLed_scripted hk) (by decide) (by decide)
  | level => exact .of_slots level_scripted (by decide) (by decide)
  | analogWrite => exact .of_slots (analogWrite_scripted hk) (by decide) (by decide)
  | analogRead => exact .of_slots (analogRead_scripted hk) (by decide) (by decide)
  | pulse timeout => exact .of_slots (pulse_scripted hk) (by decide) (by decide)
  | tone => exact .of_slots (tone_scripted hk) (by decide) (by decide)
  | silence => exact .of_slots (silence_scripted hk) (by decide) (by decide)
  | servoWrite => exact .of_slots (servoWrite_scripted hk) (by decide) (by decide)
  | servoRead => exact .of_slots (servoRead_scripted hk) (by decide) (by decide)
  | stepperSetup => exact .of_slots (stepperSetup_scripted hk) (by decide) (by decide)
  | stepperMove => exact .of_slots stepperMove_scripted (by decide) (by decide)
  | serialPrint => exact .of_slots serialPrint_scripted (by decide) (by decide)
  | serialSetup => exact .of_slots serialSetup_scripted (by decide) (by decide)
  | null | text | halt | blankValue | blankLine => exact .of_slots (.done _) (by decide) (by decide)

/-- The standard rule of a block is that of its kind. -/
theorem kind?_of_rule {kind : BlockKind} (h : s.job.rules.rule? s.block.type = some (.standard kind)) :
    s.block.kind? = some kind := by
  unfold RuleBook.rule? at h
  split at h
  · cases h
  · split at h
    · obtain ⟨found, hfound, heq⟩ := Option.map_eq_some_iff.mp h
      cases heq
      exact hfound
    · cases h

theorem ruleOutput_asks (s : Scene n) (emit : Option (Fin n) → Run Output) :
    s.Asks emit s.ruleOutput (s.withEmit emit).ruleOutput := by
  unfold ruleOutput
  rw [withEmit_block, show (s.withEmit emit).job = s.job from rfl]
  split
  · rename_i kind hrule
    exact standard_asks (kind?_of_rule hrule)
  · exact .of_slots (.done _) (by decide) (by decide)
  · exact .of_slots (.throw _) (by decide) (by decide)
  · exact .of_slots ((Scripted.warning _).first fun _ _ => .done _) (by decide) (by decide)

/-- The rule of a block makes allowed changes only and has every place of the block written out at most once. -/
theorem output_scripted (s : Scene n) (emit : Option (Fin n) → Run Output) :
    ∃ ps : List Place, ps.Nodup ∧ Scripted s emit ps (fun _ => True) s.output (s.withEmit emit).output := by
  obtain ⟨ps, hps, hrule⟩ := ruleOutput_asks s emit
  unfold output
  by_cases hnext : Place.next ∈ ps
  · refine ⟨ps, hps, hrule.last fun output houtput => ?_⟩
    rw [houtput hnext]
    exact .done _
  · refine ⟨ps ++ [.next], hps.append (by simp) (by simpa using hnext), hrule.bind fun output _ => ?_⟩
    cases output with
    | nothing => exact (Scripted.done _).unasked
    | expression code rank => exact (placed_scripted _).last fun _ _ => .done _
    | statement code => exact (placed_scripted _).last fun _ _ => .done _

end Emission

end BlockScript.Scene
