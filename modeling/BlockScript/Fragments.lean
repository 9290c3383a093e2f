import BlockScript.Ledger

namespace BlockScript

/-- Code fragments by tag, in order of first entry. -/
abbrev Fragments (κ : Type) := Ledger κ String

/-- Stores a fragment and says whether anything changed. The first fragment of a tag stays, unless
it is to be overwritten. -/
def Fragments.add {κ : Type} [BEq κ] (f : Fragments κ) (tag : κ) (code : String)
    (overwrite : Bool) : Bool × Fragments κ :=
  match f.get? tag with
  | some old => if !overwrite || old == code then (false, f) else (true, f.put tag code)
  | none => (true, f.put tag code)

end BlockScript
