import BlockScript.Proofs.Forests
import BlockScript.Proofs.Naming
import BlockScript.Proofs.SceneViews
import BlockScript.Proofs.SortedPlaces
import BlockScript.Proofs.Twins

namespace BlockScript

variable {n m : Nat} {R : Fin n → Fin m → Prop}

/-- Two blocks that say the same and have related blocks in their slots. -/
structure Block.SameForm (R : Fin n → Fin m → Prop) (b : Block n) (b' : Block m) : Prop where
  id : b.id = b'.id
  fields : b.fields = b'.fields
  shape : b.shape = b'.shape
  hasOutput : b.hasOutput = b'.hasOutput
  comment : b.comment = b'.comment
  isInline : b.isInline = b'.isInline
  slots : List.Forall₂ (fun t t' => t.name = t'.name ∧ t.kind = t'.kind ∧ Option.Rel R t.child t'.child) b.slots b'.slots

theorem Block.SameForm.child? {b : Block n} {b' : Block m} (h : b.SameForm R b') (name : String) :
    Option.Rel R (b.child? name) (b'.child? name) := by
  have hslots := h.slots
  unfold Block.child? Block.slot?
  generalize b.slots = l at hslots
  generalize b'.slots = l' at hslots
  induction hslots with
  | nil => exact .none
  | cons hslot _ ih =>
    obtain ⟨hname, -, hchild⟩ := hslot
    rw [List.find?_cons, List.find?_cons, ← hname]
    split
    · exact hchild
    · exact ih

namespace Diagram

/-- The comments below a value slot. -/
def slotComments (d : Diagram n) (t : Slot n) : String :=
  match t.kind, t.child with
  | .value, some child => d.nestedComments child
  | _, _ => ""

/-- The variables that the body of a definition assigns. -/
def assignedBelow (d : Diagram n) (i : Fin n) : List Value :=
  match (d.block i).child? "STACK" with
  | none => []
  | some body => (d.descendants body).filterMap fun j =>
      if ((d.block j).kind?.map BlockKind.assigns).getD false && !(d.block j).disabled then (d.block j).namedVariable?
      else none

end Diagram

namespace Workspace

/-- Two drawings that differ in what disabled blocks hold only. The relation leads from the top blocks to the blocks that
follow and, if it starts at an enabled block, to those in its slots. -/
structure SameEnabled (R : Fin n → Fin m → Prop) (w : Workspace n) (w' : Workspace m) : Prop where
  tops : List.Forall₂ R w.tops w'.tops
  x : ∀ {i j}, R i j → (w.block i).x = (w'.block j).x
  y : ∀ {i j}, R i j → (w.block i).y = (w'.block j).y
  type : ∀ {i j}, R i j → (w.block i).type = (w'.block j).type
  disabled : ∀ {i j}, R i j → (w.block i).disabled = (w'.block j).disabled
  next : ∀ {i j}, R i j → Option.Rel R (w.block i).next (w'.block j).next
  form : ∀ {i j}, R i j → (w.block i).disabled = false → (w.block i).SameForm R (w'.block j)

variable {w : Workspace n} {w' : Workspace m}

theorem SameEnabled.orderedTops (h : w.SameEnabled R w') : List.Forall₂ R w.orderedTops w'.orderedTops := by
  refine runSort_forall₂ ?_ h.tops
  intro i j i' j' hi hj
  rw [standsBefore, standsBefore, h.x hi, h.x hj, h.y hi, h.y hj]

end Workspace

open Workspace

namespace Scene

end Scene

namespace Workspace

variable {w : Workspace n} {w' : Workspace m}

end Workspace

namespace Run

variable {α : Type}

end Run

namespace Generator

variable {w : Workspace n} {w' : Workspace m}

/-- The session of a drawing before its variables are declared. -/
def opening (g : Generator) (w : Workspace n) (found : Inference) : Session where
  names := { reserved := g.settings.reserved }
  events := found.events
  kinds := found.kinds
  log := openingLog w :: found.log

end Generator

end BlockScript
