import BlockScript.Emission.Job
import BlockScript.Proofs.Runs

namespace BlockScript

variable {n : Nat}

/-- Where a child hangs at its parent. -/
inductive Place where
  | slot (name : String)
  | next
deriving DecidableEq

def Block.at? (b : Block n) : Place → Option (Fin n)
  | .slot name => b.child? name
  | .next => b.next

/-- What a block claims pins for, and under which tag. -/
structure PinUse where
  pins : List Value
  task : PinTask
  tag : String

namespace Block

/-- The number of wires of a motor. -/
def wires? (b : Block n) : Option Nat :=
  match (b.fieldD "STEPPER_NUMBER_OF_PINS" (.text "TWO")).lookup [("TWO", 2), ("FOUR", 4)] with
  | .ok count => count
  | .error _ => none

/-- What a block of that kind claims pins for. -/
def pinUseAs? (b : Block n) : BlockKind → Option PinUse
  | .digitalWrite => some ⟨[b.fieldD "PIN" (.text "2")], .output, "Digital Write"⟩
  | .digitalRead => some ⟨[b.fieldD "PIN" (.text "2")], .input, "Digital Read"⟩
  | .builtinLed => some ⟨[b.fieldD "BUILT_IN_LED" (.text "2")], .output, "Set LED"⟩
  | .analogWrite => some ⟨[b.fieldD "PIN" (.text "2")], .pwm, "Analogue Write"⟩
  | .analogRead => some ⟨[b.fieldD "PIN" (.text "2")], .input, "Analogue Read"⟩
  | .pulse _ => some ⟨[b.fieldD "PULSEPIN" (.text "2")], .input, "Pulse Pin"⟩
  | .tone | .silence => some ⟨[b.fieldD "TONEPIN" (.text "2")], .pwm, "Tone Pin"⟩
  | .servoWrite => some ⟨[b.fieldD "SERVO_PIN" (.text "2")], .servo, "Servo Write"⟩
  | .servoRead => some ⟨[b.fieldD "SERVO_PIN" (.text "2")], .servo, "Servo Read"⟩
  | .stepperSetup => b.wires?.map fun count =>
      ⟨(List.range count).map fun k => b.fieldD ("STEPPER_PIN" ++ toString (k + 1)) (.text (toString (k + 1))),
        .stepper, "Stepper"⟩
  | _ => none

def pinUse? (b : Block n) : Option PinUse :=
  b.kind?.bind b.pinUseAs?

/-- The blocks that read or write the variable of their field. -/
def usesVariable (b : Block n) : Bool :=
  b.kind?.any fun kind => kind = .variableGet || kind.assigns

theorem pinUse?_of_kind {b : Block n} {kind : BlockKind} (hk : b.kind? = some kind) : b.pinUse? = b.pinUseAs? kind := by
  rw [pinUse?, hk, Option.bind_some]

theorem usesVariable_of_kind {b : Block n} {kind : BlockKind} (hk : b.kind? = some kind)
    (h : (kind = .variableGet || kind.assigns) = true) : b.usesVariable := by
  rw [usesVariable, hk]
  exact h

end Block

/-- The variables that the code of a block speaks of. -/
inductive Diagram.Mentions (d : Diagram n) (i : Fin n) : Value → Prop where
  | own (default : String) : (d.block i).usesVariable →
      d.Mentions i ((d.block i).fieldD Block.variableField (.text default))
  | argument {names : List Value} {name : Value} : Workspace.isProcedure (d.block i) →
      (d.block i).arguments = .ok names → name ∈ names → d.Mentions i name
  | assigned {body j : Fin n} {name : Value} : (d.block i).child? "STACK" = some body → j ∈ d.descendants body →
      (d.block j).usesVariable → (d.block j).namedVariable? = some name → d.Mentions i name

/-- The devices that have objects. -/
def Device.all : List Device :=
  [.digital "IN", .digital "OUT", .pwm, .adc, .servo]

namespace FunctionText

/-- The functions that rules provide. -/
def all : List FunctionText :=
  [isPrime, randomWhole, upRange, downRange, mapRange, servoDuty, stepperMove]

/-- The text of a function, still without its name. -/
def text (f : FunctionText) (indent : String) : String :=
  Text.joined "\n" (f.lines.map fun (depth, line) => Text.repeated indent depth ++ line)

end FunctionText

namespace Block

/-- The constants that a block declares. -/
inductive DeclaresConstant (b : Block n) : Value → String → Prop where
  | levels : b.DeclaresConstant (.text "highlow") "HIGH = const(1)\nLOW = const(0)"
  | led {use : PinUse} {pin : Value} : b.pinUse? = some use → pin ∈ use.pins →
      b.DeclaresConstant (.text "builtin_led") ("BUILT_IN_LED = const(" ++ pin.toText ++ ")")

/-- The objects that a block declares: what they are named after, their tag, their declaration by name, and whether it
takes the place of an earlier one. -/
inductive DeclaresObject (b : Block n) : String → String → (String → String) → Bool → Prop where
  | device {d : Device} {use : PinUse} {pin : Value} : d ∈ Device.all → b.pinUse? = some use → pin ∈ use.pins →
      b.DeclaresObject (d.object ++ pin.toText) (d.tag ++ pin.toText) (d.declaration · pin.toText) false
  | motor {use : PinUse} {steps speed delay : String} (name : String) : b.pinUse? = some use →
      stepDelay (.text steps) (.text speed) = .ok delay →
      b.DeclaresObject ("stepper_" ++ name) ("stepper_" ++ name)
        (fun object => object ++ " = " ++ Scene.motorObject use.pins delay) true

end Block

/-- What motors and uarts are named after. -/
def IsPartName (name : Value) : Prop :=
  ∃ rest, name = .text ("stepper_" ++ rest) ∨ name = .text ("uart" ++ rest)

/-- What rules bring in, by tag and line: a name from a module, or a module. -/
inductive BringsIn : Value → String → Prop where
  | name (source name : String) : '.' ∉ source.toList →
      BringsIn (.text (source ++ "." ++ name)) ("from " ++ source ++ " import " ++ name)
  | module (source : String) : '.' ∉ source.toList → BringsIn (.text source) ("import " ++ source)

/-- The single changes that rules make to a session. -/
inductive Deed : Type → Type where
  | record (r : LogRecord) : Deed Unit
  | fragment (part : Section) (tag : Value) (code : String) (overwrite : Bool) : Deed Bool
  | identifier (realm : Realm) (name : Value) : Deed String
  | distinct (realm : Realm) (name : Value) : Deed String
  | object (label tag : String) (declaration : String → String) (overwrite : Bool) : Deed String
  | provide (preferred text : String) : Deed String
  | procedure (name code : String) : Deed Unit
  | warn (id tag : String) (text : Option String) : Deed Unit
  | claim (id : String) (pin : Value) (task : PinTask) (tag : String) : Deed Bool
  | claims (id : String) (pins : List Value) (task : PinTask) (tag : String) : Deed PUnit

namespace Deed

variable {α : Type}

def run : Deed α → Run α
  | record r => Run.record r
  | fragment part tag code overwrite => Run.addFragment part tag code overwrite
  | identifier realm name => Run.identifier realm name
  | distinct realm name => Run.distinctIdentifier realm name
  | object label tag declaration overwrite => do
    let name ← Run.generatedName label
    let _ ← Run.declare tag (declaration name) overwrite
    return name
  | provide preferred text => Run.provide preferred text
  | procedure name code => Run.addProcedure name code
  | warn id tag text => Run.warn id tag text
  | claim id pin task tag => Run.claimPin id pin task tag
  | claims id pins task tag => pins.forM fun pin => do
    let _ ← Run.claimPin id pin task tag

/-- What the rule of a block may do. -/
def Allowed (job : Job n) (i : Fin n) : Deed α → Prop
  | record r => r.level ≠ .info
  | fragment part tag code overwrite =>
    part ≠ .globals ∧ (part = .declarations → (job.diagram.block i).DeclaresConstant tag code) ∧
      (part = .setups → tag = .text Scene.userSetupTag → overwrite = false) ∧
      (part = .imports → BringsIn tag code ∧ overwrite = false)
  | identifier realm name =>
    (realm = .variable → job.diagram.Mentions i name) ∧ (realm = .generated → IsPartName name)
  | distinct realm _ => realm = .generated
  | object label tag declaration overwrite =>
    (job.diagram.block i).DeclaresObject label tag declaration overwrite
  | provide preferred text => ∃ f ∈ FunctionText.all, preferred = f.preferred ∧ text = f.text job.settings.indent
  | procedure _ _ => Workspace.isProcedure (job.diagram.block i)
  | warn id tag _ => id = (job.diagram.block i).id ∧ tag = "pwm_value"
  | claim id pin task tag =>
    id = (job.diagram.block i).id ∧ (job.diagram.block i).pinUse? = some ⟨[pin], task, tag⟩
  | claims id pins task tag =>
    id = (job.diagram.block i).id ∧ (job.diagram.block i).pinUse? = some ⟨pins, task, tag⟩

end Deed

def Scene.withEmit (s : Scene n) (emit : Option (Fin n) → Run Output) : Scene n :=
  { s with emit }

/-- Two runs that differ in how they write other blocks out only. They make allowed changes, and they have blocks written
out at the listed places of their own block, each at most as often as it is listed. What comes back has the property. -/
inductive Scripted (s : Scene n) (emit : Option (Fin n) → Run Output) :
    {α : Type} → List Place → (α → Prop) → Run α → Run α → Prop where
  | pure {α : Type} {P : α → Prop} (a : α) : P a → Scripted s emit [] P (pure a) (pure a)
  | throw {α : Type} {P : α → Prop} (f : Fault) : Scripted s emit [] P (throw f) (throw f)
  | deed {α : Type} (d : Deed α) : d.Allowed s.job s.index →
      Scripted s emit [] (fun _ => True) d.run d.run
  | ask (p : Place) : Scripted s emit [p] (fun _ => True) (s.emit (s.block.at? p)) (emit (s.block.at? p))
  | bind {α β : Type} {ps qs : List Place} {P : α → Prop} {Q : β → Prop} {r r' : Run α}
      {next next' : α → Run β} :
      Scripted s emit ps P r r' → (∀ a, P a → Scripted s emit qs Q (next a) (next' a)) →
      Scripted s emit (ps ++ qs) Q (r >>= next) (r' >>= next')
  | weaken {α : Type} {ps qs : List Place} {P Q : α → Prop} {r r' : Run α} :
      Scripted s emit ps P r r' → ps.Sublist qs → (∀ a, P a → Q a) → Scripted s emit qs Q r r'

variable {s : Scene n} {emit : Option (Fin n) → Run Output} {α β : Type}

namespace Scripted

variable {ps qs : List Place} {P : α → Prop} {r r' : Run α}

theorem asking (h : Scripted s emit ps P r r') (hsub : ps.Sublist qs) : Scripted s emit qs P r r' :=
  h.weaken hsub fun _ ha => ha

theorem unasked (h : Scripted s emit [] P r r') : Scripted s emit ps P r r' :=
  h.asking (List.nil_sublist ps)

theorem done (a : α) : Scripted s emit [] (fun _ => True) (Pure.pure a) (Pure.pure a) :=
  .pure a trivial

/-- Goes on after a part that has no blocks written out. -/
theorem first {P : α → Prop} {Q : β → Prop} {next next' : α → Run β} (h : Scripted s emit [] P r r')
    (hnext : ∀ a, P a → Scripted s emit ps Q (next a) (next' a)) : Scripted s emit ps Q (r >>= next) (r' >>= next') :=
  h.bind hnext

/-- Ends with a part that has no blocks written out. -/
theorem last {P : α → Prop} {Q : β → Prop} {next next' : α → Run β} (h : Scripted s emit ps P r r')
    (hnext : ∀ a, P a → Scripted s emit [] Q (next a) (next' a)) : Scripted s emit ps Q (r >>= next) (r' >>= next') :=
  (h.bind hnext).asking (by simp)

theorem mapM {f f' : α → Run β} {ps : α → List Place} (l : List α)
    (h : ∀ a ∈ l, Scripted s emit (ps a) (fun _ => True) (f a) (f' a)) :
    Scripted s emit (l.flatMap ps) (fun _ => True) (l.mapM f) (l.mapM f') := by
  induction l with
  | nil => exact done []
  | cons a l ih =>
    rw [List.mapM_cons, List.mapM_cons]
    refine (h a (by simp)).bind fun b _ => ?_
    exact (ih fun a ha => h a (by simp [ha])).last fun bs _ => done (b :: bs)

theorem foldlM {f : β → α → Run β} (l : List α) (b : β)
    (h : ∀ b, ∀ a ∈ l, Scripted s emit [] (fun _ => True) (f b a) (f b a)) :
    Scripted s emit [] (fun _ => True) (l.foldlM f b) (l.foldlM f b) := by
  induction l generalizing b with
  | nil => exact done b
  | cons a l ih =>
    rw [List.foldlM_cons]
    exact (h b a (by simp)).first fun c _ => ih c fun b a ha => h b a (by simp [ha])

theorem importFrom (source name : String) (h : '.' ∉ source.toList) :
    Scripted s emit [] (fun _ => True) (Run.importFrom source name) (Run.importFrom source name) :=
  .deed (.fragment .imports (.text (source ++ "." ++ name)) ("from " ++ source ++ " import " ++ name) false)
    ⟨nofun, nofun, nofun, fun _ => ⟨.name source name h, rfl⟩⟩

theorem importModule (source : String) (h : '.' ∉ source.toList) :
    Scripted s emit [] (fun _ => True) (Run.importModule source) (Run.importModule source) :=
  .deed (.fragment .imports (.text source) ("import " ++ source) false)
    ⟨nofun, nofun, nofun, fun _ => ⟨.module source h, rfl⟩⟩

theorem setup {tag : String} {overwrite : Bool} (h : tag = Scene.userSetupTag → overwrite = false) (code : String) :
    Scripted s emit [] (fun _ => True) (Run.addSetup tag code overwrite) (Run.addSetup tag code overwrite) := by
  refine .deed (.fragment .setups (.text tag) code overwrite) ⟨nofun, nofun, fun _ htag => h ?_, nofun⟩
  injection htag

theorem constant {tag : Value} {code : String} (h : s.block.DeclaresConstant tag code) (overwrite : Bool) :
    Scripted s emit [] (fun _ => True) (Run.addFragment .declarations tag code overwrite)
      (Run.addFragment .declarations tag code overwrite) :=
  .deed (.fragment .declarations tag code overwrite) ⟨nofun, fun _ => h, nofun, nofun⟩

theorem warning (text : String) :
    Scripted s emit [] (fun _ => True) (Run.record (.warning text)) (Run.record (.warning text)) :=
  .deed (.record (.warning text)) (by simp [Deed.Allowed, LogRecord.warning])

theorem procedureName (name : Value) :
    Scripted s emit [] (fun _ => True) (Run.procedureName name) (Run.procedureName name) :=
  .deed (.identifier .procedure name) ⟨nofun, nofun⟩

theorem partName {name : String} (h : IsPartName (.text name)) :
    Scripted s emit [] (fun _ => True) (Run.generatedName name) (Run.generatedName name) :=
  .deed (.identifier .generated (.text name)) ⟨nofun, fun _ => h⟩

theorem variableName {name : Value} (h : s.job.diagram.Mentions s.index name) :
    Scripted s emit [] (fun _ => True) (Run.variableName name) (Run.variableName name) :=
  .deed (.identifier .variable name) ⟨fun _ => h, nofun⟩

theorem distinctName (name : String) :
    Scripted s emit [] (fun _ => True) (Run.distinctName name) (Run.distinctName name) :=
  .deed (.distinct .generated (.text name)) rfl

theorem claimPin {kind : BlockKind} {pin : Value} {task : PinTask} {tag : String} (hk : s.block.kind? = some kind)
    (h : s.block.pinUseAs? kind = some ⟨[pin], task, tag⟩) :
    Scripted s emit [] (fun _ => True) (s.claimPin pin task tag) (s.claimPin pin task tag) :=
  .deed (.claim s.block.id pin task tag) ⟨rfl, (Block.pinUse?_of_kind hk).trans h⟩

theorem addProcedure (h : Workspace.isProcedure s.block) (name code : String) :
    Scripted s emit [] (fun _ => True) (Run.addProcedure name code) (Run.addProcedure name code) :=
  .deed (.procedure name code) h

theorem warnDuty (text : Option String) :
    Scripted s emit [] (fun _ => True) (s.warn "pwm_value" text) (s.warn "pwm_value" text) :=
  .deed (.warn s.block.id "pwm_value" text) ⟨rfl, rfl⟩

theorem object {label tag : String} {declaration : String → String} {overwrite : Bool}
    (h : s.block.DeclaresObject label tag declaration overwrite) : Scripted s emit [] (fun _ => True)
      (Deed.object label tag declaration overwrite).run (Deed.object label tag declaration overwrite).run :=
  .deed (.object label tag declaration overwrite) h

theorem use {d : Device} (hd : d ∈ Device.all) {kind : BlockKind} {pin : Value} {task : PinTask} {tag : String}
    (hk : s.block.kind? = some kind) (h : s.block.pinUseAs? kind = some ⟨[pin], task, tag⟩) :
    Scripted s emit [] (fun _ => True) (d.use pin) (d.use pin) := by
  have hobject : s.block.DeclaresObject (d.object ++ pin.toText) (d.tag ++ pin.toText) (d.declaration · pin.toText) false :=
    .device hd ((Block.pinUse?_of_kind hk).trans h) (List.mem_singleton_self pin)
  unfold Device.use
  refine (importFrom _ _ (by decide)).first fun _ _ => ?_
  cases d.needs with
  | none => exact object hobject
  | some name => exact (importFrom _ _ (by decide)).first fun _ _ => object hobject

end Scripted

namespace Scene

@[simp] theorem withEmit_block : (s.withEmit emit).block = s.block := rfl

@[simp] theorem withEmit_settings : (s.withEmit emit).settings = s.settings := rfl

theorem select_scripted (name default : String) (table : List (String × α)) :
    Scripted s emit [] (fun a => (s.block.fieldD name (.text default)).lookup table = .ok (some a))
      (s.select name default table) (s.select name default table) := by
  unfold select
  dsimp only
  split
  · exact .throw _
  · rename_i a ha
    exact .pure a ha
  · exact .throw _

theorem compared_scripted (name default : String) (table : List (String × α)) :
    Scripted s emit [] (fun _ => True) (s.compared name default table) (s.compared name default table) := by
  unfold compared
  split
  · exact .done _
  · exact .throw _

theorem function_scripted {f : FunctionText} (hf : f ∈ FunctionText.all) :
    Scripted s emit [] (fun _ => True) (s.function f) (s.function f) :=
  .deed (.provide f.preferred (f.text s.settings.indent)) ⟨f, hf, rfl, rfl⟩

theorem arguments_scripted :
    Scripted s emit [] (fun names => s.block.arguments = .ok names) s.arguments s.arguments := by
  unfold arguments
  split
  · rename_i names hnames
    exact .pure names hnames
  · exact .throw _

theorem variableOf_scripted (h : s.block.usesVariable) (default : String) :
    Scripted s emit [] (fun _ => True) (s.variableOf default) (s.variableOf default) :=
  .variableName (.own default h)

theorem keepBound_scripted (name suffix code : String) :
    Scripted s emit [] (fun _ => True) (keepBound name suffix code) (keepBound name suffix code) := by
  unfold keepBound
  split
  · exact .throw _
  · split
    · exact .throw _
    · exact .done _
  · split
    · exact .done _
    · exact (Scripted.distinctName _).first fun _ _ => .done _

theorem directedRange_scripted (first last : Number) :
    Scripted s emit [] (fun _ => True) (s.directedRange first last) (s.directedRange first last) := by
  unfold directedRange
  split
  · exact function_scripted (by simp [FunctionText.all])
  · exact function_scripted (by simp [FunctionText.all])

theorem knownSequence_scripted (first last step : Number) :
    Scripted s emit [] (fun _ => True) (s.knownSequence first last step) (s.knownSequence first last step) := by
  unfold knownSequence
  split
  · exact .done _
  · exact (directedRange_scripted _ _).first fun _ _ => .done _

theorem boundSequence_scripted (first last step : Bound) :
    Scripted s emit [] (fun _ => True) (s.boundSequence first last step) (s.boundSequence first last step) := by
  unfold boundSequence
  dsimp only
  split
  · exact (directedRange_scripted _ _).first fun _ _ => .done _
  · exact (function_scripted (by simp [FunctionText.all])).first fun _ _ => (function_scripted (by simp [FunctionText.all])).first fun _ _ => .done _

theorem duty_scripted (angle : String) : Scripted s emit [] (fun _ => True) (s.duty angle) (s.duty angle) := by
  unfold duty
  split
  · exact .throw _
  · split
    · exact .throw _
    · exact .done _
  · exact (function_scripted (by simp [FunctionText.all])).first fun _ _ => .done _

theorem addAssigned_scripted {name : Value} (h : s.job.diagram.Mentions s.index name) (arguments : List Value)
    (found : List String) :
    Scripted s emit [] (fun _ => True) (addAssigned arguments found name) (addAssigned arguments found name) := by
  unfold addAssigned
  by_cases hkey : name.isKey
  · simp only [hkey]
    by_cases hmem : arguments.contains name
    · simp only [hmem]
      exact .done _
    · simp only [hmem]
      exact (Scripted.variableName h).first fun _ _ => .done _
  · simp only [hkey]
    exact (Scripted.throw (P := fun _ => False) .unsuitable).first fun _ h => h.elim

theorem mentions_assigned {body : Fin n} (hstack : s.block.child? "STACK" = some body) {name : Value}
    (hname : name ∈ (s.job.diagram.descendants body).filterMap s.assigned?) :
    s.job.diagram.Mentions s.index name := by
  obtain ⟨j, hj, hassigned⟩ := List.mem_filterMap.mp hname
  unfold assigned? at hassigned
  dsimp only at hassigned
  split at hassigned
  · rename_i hkind
    refine .assigned hstack hj ?_ hassigned
    cases hk : (s.job.diagram.block j).kind? with
    | none => simp [hk] at hkind
    | some kind =>
      apply Block.usesVariable_of_kind hk
      simp_all
  · cases hassigned

theorem argumentKeys_scripted : Scripted s emit [] (fun _ => True) s.argumentKeys s.argumentKeys := by
  refine arguments_scripted.first fun names _ => ?_
  split
  · exact .done _
  · exact .throw _

theorem assignedGlobals_scripted :
    Scripted s emit [] (fun _ => True) s.assignedGlobals s.assignedGlobals := by
  unfold assignedGlobals
  cases hstack : s.block.child? "STACK" with
  | none => exact .done _
  | some body =>
    refine argumentKeys_scripted.first fun arguments _ => Scripted.foldlM _ _ fun found name hname => ?_
    exact addAssigned_scripted (mentions_assigned hstack hname) arguments found

theorem valueAt_scripted (name : String) (outer : Rank) (default : String) :
    Scripted s emit [.slot name] (fun _ => True) (s.valueAt name outer default)
      ((s.withEmit emit).valueAt name outer default) := by
  unfold valueAt
  rw [withEmit_block]
  cases hchild : s.block.child? name with
  | none => exact (Scripted.done default).unasked
  | some child =>
    have hask : Scripted s emit [.slot name] (fun _ => True) (s.emit (some child)) (emit (some child)) := by
      rw [← hchild]
      exact .ask (.slot name)
    refine hask.bind fun output _ => ?_
    cases output with
    | statement code => exact .throw _
    | expression code rank => exact .done _
    | nothing => exact .done _

theorem value_scripted (name : String) (outer : OperatorClass) (default : String) :
    Scripted s emit [.slot name] (fun _ => True) (s.value name outer default) ((s.withEmit emit).value name outer default) :=
  valueAt_scripted _ _ _

theorem lines_scripted (name : String) :
    Scripted s emit [.slot name] (fun _ => True) (s.lines name) ((s.withEmit emit).lines name) := by
  unfold lines
  rw [withEmit_block]
  refine (Scripted.ask (.slot name)).last fun output _ => ?_
  split
  · exact .throw _
  · exact .done _

theorem suite_scripted (name : String) :
    Scripted s emit [.slot name] (fun _ => True) (s.suite name) ((s.withEmit emit).suite name) :=
  (lines_scripted name).last fun _ _ => .done _

theorem loopBody_scripted : Scripted s emit [.slot "DO"] (fun _ => True) s.loopBody (s.withEmit emit).loopBody :=
  (suite_scripted "DO").last fun _ _ => .done _

theorem nextLines_scripted : Scripted s emit [.next] (fun _ => True) s.nextLines (s.withEmit emit).nextLines := by
  unfold nextLines
  rw [withEmit_block]
  refine (Scripted.ask .next).last fun output _ => ?_
  split
  · exact .throw _
  · exact .done _

theorem placed_scripted (code : String) :
    Scripted s emit [.next] (fun _ => True) (s.placed code) ((s.withEmit emit).placed code) :=
  nextLines_scripted.last fun _ _ => .done _

end Scene

end BlockScript
