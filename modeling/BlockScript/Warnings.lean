import BlockScript.Log
import BlockScript.Workspace.Basic

namespace BlockScript

/-- Sets a warning at a block, or clears it. -/
structure WarningEvent where
  blockId : String
  tag : String
  text : Option String
deriving DecidableEq, Inhabited

namespace WarningEvent

def apply (active : Ledger (String × String) String) (e : WarningEvent) :
    Ledger (String × String) String :=
  match e.text with
  | some text => active.put (e.blockId, e.tag) text
  | none => active.erase (e.blockId, e.tag)

/-- The latest text for each block and tag; cleared ones are left out. -/
def active (events : List WarningEvent) : Ledger (String × String) String :=
  events.foldl apply {}

end WarningEvent

namespace Workspace

variable {n : Nat}

/-- The block that warnings for an id go to: the last one among `blocks`. -/
def addressee? (w : Workspace n) (blocks : List (Fin n)) (id : String) : Option (Fin n) :=
  blocks.reverse.find? fun i => (w.block i).id == id

def applyWarning (blocks : List (Fin n)) (w : Workspace n) (e : WarningEvent) :
    Workspace n × List LogRecord :=
  match w.addressee? blocks e.blockId with
  | some i => ({ w with diagram := w.diagram.update i (·.setWarning e.tag e.text) }, [])
  | none => (w, [.debug ("Warning for unknown block " ++ e.blockId ++ " dropped")])

/-- Replays events on the blocks, in order. -/
def applyWarnings (w : Workspace n) (events : List WarningEvent) : Workspace n × List LogRecord :=
  let blocks := w.allBlocks
  events.foldl (fun (w, log) e =>
    let (w, more) := applyWarning blocks w e
    (w, log ++ more)) (w, [])

/-- The blocks with a warning, and its text. -/
def shownWarnings (w : Workspace n) : List (String × String) :=
  w.allBlocks.filterMap fun i =>
    let b := w.block i
    b.warningText?.map (b.id, ·)

end Workspace

end BlockScript
