import BlockScript.Proofs.BlockRuns
import BlockScript.Proofs.NameUses
import BlockScript.Proofs.ProcedureTexts

namespace BlockScript

variable {n : Nat}

/-- The declaration of a motor with a delay that is computed where the program runs. -/
def ComputesDelay (code : String) : Prop :=
  ∃ object steps speed, ∃ pins : List Value, IsName object ∧
    code = object ++ " = " ++ Scene.motorObject pins ("int(60000000 / (" ++ steps ++ " * " ++ speed ++ "))")

/-- A declaration that needs only names which it has bound before. -/
def SelfContained (code : String) : Prop :=
  ∀ before line after, codeLines code = before ++ line :: after → ∀ x, IsName x → x ∈ usedNames line →
    ∃ l ∈ before, boundName? l = some x

/-- A declaration that binds a name. -/
def Introduces (x code : String) : Prop :=
  ∃ line ∈ codeLines code, boundName? line = some x

theorem selfContained_line {code : String} {line : List Char} (hlines : codeLines code = [line])
    (hforeign : ∀ word ∈ usedNames line, Foreign word) : SelfContained code := by
  intro before l after hsplit x hx huse
  rw [hlines] at hsplit
  cases before with
  | nil =>
    obtain ⟨rfl, -⟩ := List.cons.inj hsplit
    exact absurd (hforeign x huse) hx.not_foreign
  | cons first before => simp at hsplit

section Assignments

open NameReader

variable {x pin : String}

theorem getLast_append_any {a b : List Char} {p : Char → Bool} (h : b.getLast?.any p = true) :
    (a ++ b).getLast?.any p = true := by
  rw [List.getLast?_append]
  cases hb : b.getLast? with
  | none => simp [hb] at h
  | some c => simpa [hb] using h

theorem assignment_bound (hx : IsName x) {value : String} (hv : OneLine value)
    (hlast : value.toList.getLast?.any (!Text.isBlank ·) = true) (hforeign : ∀ word ∈ textNames value.toList, Foreign word) :
    Introduces x (x ++ " = " ++ value) ∧ SelfContained (x ++ " = " ++ value) := by
  have hlines := codeLines_assignment hx hv hlast
  constructor
  · refine ⟨_, ?_, boundName_assignment hx value⟩
    rw [hlines]
    exact List.mem_singleton_self _
  · refine selfContained_line hlines ?_
    rwa [usedNames_assignment hx.1 hx.not_bindingWord]

/-- What stands around the number of a pin on one line. -/
structure FramesPin (start rest : String) : Prop where
  opens : Passes idle start.toList idle
  closes : Passes idle rest.toList idle
  lines : OneLine start ∧ OneLine rest
  head : rest.toList.head?.any (fun c => c = ',' ∨ c = ')') = true
  last : rest.toList.getLast?.any (!Text.isBlank ·) = true

theorem FramesPin.value {start rest : String} (h : FramesPin start rest) (hpin : Nameless pin) :
    OneLine (start ++ (pin ++ rest)) ∧ (start ++ (pin ++ rest)).toList.getLast?.any (!Text.isBlank ·) = true ∧
      Passes idle (start ++ (pin ++ rest)).toList idle := by
  refine ⟨?_, ?_, h.opens.append_string (hpin.passes h.head h.closes)⟩
  · rw [oneLine_append, oneLine_append]
    exact ⟨h.lines.1, hpin.oneLine, h.lines.2⟩
  · rw [String.toList_append, String.toList_append]
    exact getLast_append_any (getLast_append_any h.last)

theorem FramesPin.bound {start rest : String} (h : FramesPin start rest) (hx : IsName x)
    (hpin : Nameless pin) {code : String} (hcode : code = x ++ " = " ++ (start ++ (pin ++ rest))) :
    Introduces x code ∧ SelfContained code := by
  obtain ⟨hv, hlast, hpasses⟩ := h.value hpin
  rw [hcode]
  exact assignment_bound hx hv hlast hpasses.textNames

end Assignments

namespace FunctionText

theorem Proper.defines {f : FunctionText} (hf : f.Proper) (hdeep : ∀ l ∈ f.lines.tail, 0 < l.1) {x : String}
    (hx : IsIdentifier x) : Defines x (Functions.named x (body f.lines)) := by
  obtain ⟨args, ls, ds, hlines, hargs, hspelled, hbreaks, -, hnamed⟩ := hf.named
  rw [hlines, List.tail_cons] at hdeep
  have hplain := hspelled.plain (by decide) hbreaks
  have hsuite : ∀ line ∈ codeLines (body ls), line.head? = some ' ' := by
    intro line hline
    rw [codeLines, body, Text.readLines_joined codeLine_passesBlanks, List.mem_flatMap] at hline
    obtain ⟨code, hcode, hline⟩ := hline
    obtain ⟨⟨depth, text⟩, hl, rfl⟩ := List.mem_map.mp hcode
    refine OneLine.head (hplain _ hl) ?_ line hline
    obtain ⟨depth, rfl⟩ := Nat.exists_eq_succ_of_ne_zero (Nat.pos_iff_ne_zero.mp (hdeep _ hl))
    simp [Text.repeated]
  have hdefines := defines_of_suite .empty hx hargs hsuite
  rwa [String.empty_append, ← hnamed] at hdefines

end FunctionText

namespace Scene

variable {s : Scene n} {H : Prop} {operand : Session → Fin n → Option Expr}

theorem definitionSuite_head (hs : s.settings = {}) {globals : List String} {o : Option (Fin n)} {code result : String}
    (hglobals : ∀ x ∈ globals, IsName x) (hcode : s.job.Chain o code) (hresult : OneLine result) :
    ∀ line ∈ codeLines (s.definitionSuite globals code result), line.head? = some ' ' := by
  obtain ⟨_, hglobal, -⟩ := suited_globals hs hglobals
  obtain ⟨_, hreturn, -⟩ := suited_return hs hresult
  have hdeeper : Indented (s.settings.deeper code) (outline code) := by
    rw [hs]
    exact .deeper hcode.sheet.whole
  have hbody : ∃ ms, Indented (if result.isEmpty then s.orEmptySuite (s.settings.deeper code) else s.settings.deeper code)
      ms := by
    split
    · unfold orEmptySuite
      split
      · rw [hs]
        exact ⟨_, Indented.line (show IsLine false "pass" from ⟨by decide, by decide⟩)⟩
      · exact ⟨_, hdeeper⟩
    · exact ⟨_, hdeeper⟩
  obtain ⟨_, hbody⟩ := hbody
  exact ((hglobal.append hbody).append hreturn).head

/-- The text of a definition with no blocks behind it. -/
theorem Defined.defines (hs : s.settings = {}) (hnext : s.block.next = none) {name text : String}
    (hname : IsName name) (h : s.Defined name text) : Defines name text := by
  obtain ⟨globals, parameters, code, result, rest, hglobals, -, hcode, hresult, -, hparameters, hrest, rfl⟩ := h
  have hempty : rest = "" := by
    by_contra hne
    rw [hnext] at hrest
    exact (hrest.text.mp hne).elim Job.not_speaks_none Job.not_remarks_none
  rw [hempty, String.append_empty]
  exact defines_of_suite (Job.comments_silent hs s.index) hname.1 hparameters
    (definitionSuite_head hs hglobals hcode hresult)

end Scene

end BlockScript
