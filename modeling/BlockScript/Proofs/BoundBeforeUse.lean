import BlockScript.Proofs.BoundNames

namespace BlockScript

variable {n : Nat}

/-- Behind other lines, a name is bound where lines outside of functions use it, lines that are set apart excepted. -/
def BoundBehind (x : String) (apart : List Char → Prop) (before lines : List (List Char)) : Prop :=
  ∀ first line rest, lines = first ++ line :: rest → insideFunction (before ++ first) line = false →
    x ∈ usedNames line → (∃ l ∈ before ++ first, boundName? l = some x) ∨ apart line

section Lines

variable {x : String} {apart : List Char → Prop} {before lines more : List (List Char)}

theorem BoundBehind.append (h : BoundBehind x apart before lines) (hmore : BoundBehind x apart (before ++ lines) more) :
    BoundBehind x apart before (lines ++ more) := by
  intro first line rest hsplit hout huse
  obtain ⟨first', rfl, hrest⟩ | ⟨rest', hlines, hrest⟩ := List.append_eq_append_iff.mp hsplit
  · rw [← List.append_assoc] at hout ⊢
    exact hmore first' line rest hrest hout huse
  · cases rest' with
    | nil =>
      rw [List.append_nil] at hlines
      rw [← hlines, ← List.append_nil (before ++ lines)] at hout ⊢
      exact hmore [] line rest hrest.symm hout huse
    | cons line' rest' =>
      obtain ⟨rfl, -⟩ := List.cons.inj hrest
      exact h first line rest' hlines hout huse

end Lines

namespace Session

variable {s t : Session} {x : String}

theorem Defines.bound {code : String} (h : Defines x code) : ∃ l ∈ codeLines code, boundName? l = some x := by
  obtain ⟨header, suite, hlines, -, hbound, -⟩ := h
  exact ⟨header, by rw [hlines]; exact List.mem_cons_self, hbound⟩

end Session

namespace Generator

variable {w : Workspace n} {σ τ : Session} {body : String}

end Generator

end BlockScript
