import BlockScript.Proofs.Faults
import BlockScript.Proofs.Keys
import BlockScript.Rules.Procedures
import BlockScript.Workspace.Basic

namespace BlockScript.Workspace

variable {n : Nat} {w : Workspace n} {p : Procedures n}

/-- The name that a definition gives its procedure. -/
def definedName (w : Workspace n) (i : Fin n) : Value :=
  (w.block i).fieldD "NAME" .null

/-- The definitions of procedures, in the order of the top blocks. -/
def definitions (w : Workspace n) : List (Fin n) :=
  w.orderedTops.filter fun i => isProcedure (w.block i)

theorem Procedures.add_get? {name : Value} {i : Fin n} {out : Procedures n} (h : p.add name i = .ok out) (v : Value) :
    out.definitions.get? v = (p.definitions.get? v).or (if (name == v) = true then some i else none) := by
  unfold Procedures.add at h
  split at h
  · cases h
  · have hcontains := p.definitions.contains_eq name
    split at h
    · rename_i hold
      obtain rfl := Except.ok.inj h
      split
      · rename_i hname
        rw [hold, p.definitions.get?_congr hname] at hcontains
        obtain ⟨j, hj⟩ := Option.isSome_iff_exists.mp hcontains.symm
        rw [hj, Option.some_or]
      · rw [Option.or_none]
    · rename_i hnew
      obtain rfl := Except.ok.inj h
      rw [Ledger.get?_put]
      split
      · rename_i hname
        rw [Bool.not_eq_true] at hnew
        rw [hnew, p.definitions.get?_congr hname] at hcontains
        rw [Option.isSome_eq_false_iff.mp hcontains.symm |> Option.isNone_iff_eq_none.mp, Option.none_or]
      · rw [Option.or_none]

/-- The first definition of a name counts. -/
theorem procedures_get? (h : w.procedures = .ok p) (v : Value) :
    p.definitions.get? v = w.definitions.find? fun i => w.definedName i == v := by
  have hrun : ∀ (is : List (Fin n)) (found : Procedures n),
      is.foldlM (fun p i => p.add (w.definedName i) i) found = .ok p →
        p.definitions.get? v = (found.definitions.get? v).or (is.find? fun i => w.definedName i == v) := by
    intro is
    induction is with
    | nil =>
      intro found h
      obtain rfl := Except.ok.inj h
      simp
    | cons i is ih =>
      intro found h
      rw [List.foldlM_cons] at h
      obtain ⟨next, hnext, h⟩ := ok_of_bind h
      rw [ih next h, Procedures.add_get? hnext, Option.or_assoc, List.find?_cons]
      split <;> simp_all
  exact hrun w.definitions {} h

theorem definedName_isKey (h : w.procedures = .ok p) {i : Fin n} (hi : i ∈ w.definitions) :
    (w.definedName i).isKey = true := by
  obtain ⟨found, out, hadd⟩ := ok_of_foldlM h i hi
  unfold Procedures.add at hadd
  split at hadd
  · cases hadd
  · rename_i hkey
    simpa [definedName] using hkey

theorem procedures_total (h : ∀ i ∈ w.definitions, (w.definedName i).isKey = true) : ∃ p, w.procedures = .ok p := by
  apply foldlM_total
  intro i hi found
  have hkey : ((w.block i).fieldD "NAME" .null).isKey = true := h i hi
  unfold Procedures.add
  rw [hkey]
  simp only [Bool.not_true, Bool.false_eq_true, ↓reduceIte]
  split
  · exact ⟨_, rfl⟩
  · exact ⟨_, rfl⟩

end BlockScript.Workspace

namespace BlockScript.Scene

variable {n : Nat}

/-- What a procedure is called in the drawing. -/
def procedureLabel (s : Scene n) : Label :=
  ⟨.procedure, s.block.fieldD "NAME" (.text "procedure")⟩

/-- The text of a definition under an identifier. -/
def definitionUnder (s : Scene n) (name : String) : Run String := do
  let body := s.bodyMarks ++ (← s.suite "STACK")
  let result ← s.value "RETURN" .none ""
  let returnLine := if result.isEmpty then "" else s.settings.indent ++ "return " ++ result ++ "\n"
  let body := if result.isEmpty then s.orEmptySuite body else body
  let globals ← s.assignedGlobals
  let globalLine := if globals.isEmpty then "" else
    s.settings.indent ++ "global " ++ Text.joined ", " globals ++ "\n"
  let parameters ← (← s.arguments).mapM Run.variableName
  s.placed ("def " ++ name ++ "(" ++ Text.joined ", " parameters ++ "):\n" ++ globalLine ++ body ++ returnLine)

/-- The identifier of a definition and its text. -/
def definition (s : Scene n) : Run (String × String) := do
  let name ← s.procedureOf
  return (name, ← s.definitionUnder name)

theorem procedure_eq (s : Scene n) : s.procedure = do
    let d ← s.definition
    Run.addProcedure d.1 d.2
    return .nothing := by
  simp only [procedure, definition, definitionUnder, bind_assoc, pure_bind]

end BlockScript.Scene
