import BlockScript.Proofs.DeclaredTexts
import BlockScript.Proofs.FilledSuites

namespace BlockScript

variable {n : Nat}

namespace Device

/-- What the object of a device on a pin is named for. -/
def label (d : Device) (pin : String) : Label :=
  ⟨.generated, .text (d.object ++ pin)⟩

/-- What its declaration is filed under. -/
def key (d : Device) (pin : String) : Value :=
  .text (d.tag ++ pin)

variable {d d' : Device} {pin pin' : String}

end Device

namespace Fragments

variable {κ : Type} [BEq κ] {f : Fragments κ} {tag : κ} {code : String}

end Fragments

namespace Functions

variable {f : Functions} {names : Names} {preferred text : String}

end Functions

namespace Session

variable {s t : Session}

/-- What has an identifier has a text that binds it, and no text needs what it does not bind itself. -/
structure Orderly (s : Session) : Prop where
  isOpen : s.isOpen = true
  plain : s.Plain
  helpers : ∀ p, Option.Rel Defines (s.functions.identifier? p) (s.functions.texts.get? p)
  functions : ∀ code ∈ s.functions.values, ∃ x, Defines x code
  procedures : ∀ x code, s.functions.procedures.get? x = some code → Defines x code
  declarations : ∀ code ∈ s.declarations.values, ComputesDelay code ∨ SelfContained code
  devices : ∀ d ∈ Device.all, ∀ pin,
    Option.Rel Introduces (s.names.find? (d.label pin)) (s.declarations.get? (d.key pin))

namespace Orderly

/-- New names for other things than devices. -/
theorem renamed (hs : s.Orderly) (hopen : t.isOpen = s.isOpen) (hplain : t.Plain) (hf : t.functions = s.functions)
    (hd : t.declarations = s.declarations)
    (hn : ∀ d ∈ Device.all, ∀ pin, t.names.find? (d.label pin) = s.names.find? (d.label pin)) : t.Orderly where
  isOpen := hopen.trans hs.isOpen
  plain := hplain
  helpers := by
    rw [hf]
    exact hs.helpers
  functions := by
    rw [hf]
    exact hs.functions
  procedures := by
    rw [hf]
    exact hs.procedures
  declarations := by
    rw [hd]
    exact hs.declarations
  devices d hmem pin := by
    rw [hn d hmem pin, hd]
    exact hs.devices d hmem pin

theorem of_same (hs : s.Orderly) (hopen : t.isOpen = s.isOpen) (hn : t.names = s.names) (hf : t.functions = s.functions)
    (hd : t.declarations = s.declarations) : t.Orderly :=
  hs.renamed hopen ((Grows.of_same hn (by rw [hf])).2 hs.plain) hf hd fun _ _ _ => by rw [hn]

/-- One more declaration. -/
theorem declared (hs : s.Orderly) (hopen : t.isOpen = s.isOpen) (hplain : t.Plain) (hf : t.functions = s.functions)
    {tag : Value} {code : String} {overwrite : Bool} (hd : t.declarations = (s.declarations.add tag code overwrite).2)
    (hcode : ComputesDelay code ∨ SelfContained code) (hdevices : ∀ d ∈ Device.all, ∀ pin,
      Option.Rel Introduces (t.names.find? (d.label pin)) (t.declarations.get? (d.key pin))) : t.Orderly where
  isOpen := hopen.trans hs.isOpen
  plain := hplain
  helpers := by
    rw [hf]
    exact hs.helpers
  functions := by
    rw [hf]
    exact hs.functions
  procedures := by
    rw [hf]
    exact hs.procedures
  declarations := by
    rw [hd]
    intro b hb
    obtain rfl | hb := Fragments.mem_values_add hb
    · exact hcode
    · exact hs.declarations b hb
  devices := hdevices

end Orderly

@[simp] theorem recordIf_declarations (p : Bool) (r : LogRecord) (s : Session) :
    (Run.recordIf p r s).declarations = s.declarations := by
  cases p <;> rfl

end Session

namespace Job

variable {job : Job n} {R : Fin n → Prop}

end Job

namespace Generator

variable {g : Generator} {w : Workspace n} {σ : Session}

end Generator

end BlockScript
