import BlockScript.Proofs.WovenSessions

namespace BlockScript

namespace Text

variable {key value cs : List Char} {indent : String} {line row : List Char}

/-- A line, some steps deep. -/
def isIndented (indent : String) (line row : List Char) : Bool :=
  (List.range (row.length + 1)).any fun depth => row = (repeated indent depth).toList ++ line

theorem le_length_repeated (h : indent ≠ "") (depth : Nat) : depth ≤ (repeated indent depth).toList.length := by
  have hlength : 0 < indent.toList.length := List.length_pos_iff.mpr (by simpa using h)
  induction depth with
  | zero => exact Nat.zero_le _
  | succ depth ih =>
    rw [repeated, String.toList_append, List.length_append]
    omega

theorem isIndented_iff : isIndented indent line row = true ↔ ∃ depth, row = (repeated indent depth).toList ++ line := by
  have hrepeated : ∀ depth, (repeated "" depth).toList = [] := by
    intro depth
    induction depth with
    | zero => rfl
    | succ depth ih => rw [repeated, String.toList_append, ih]; rfl
  simp only [isIndented, List.any_eq_true, List.mem_range, decide_eq_true_eq]
  constructor
  · rintro ⟨depth, -, hrow⟩
    exact ⟨depth, hrow⟩
  · rintro ⟨depth, hrow⟩
    by_cases hindent : indent = ""
    · refine ⟨0, Nat.succ_pos _, ?_⟩
      rw [hrow, hindent, hrepeated, hrepeated]
    · refine ⟨depth, ?_, hrow⟩
      have hdepth := le_length_repeated hindent depth
      rw [hrow, List.length_append]
      omega

theorem insertable_isIndented (hindent : OneLine indent) (hline : '\n' ∉ line) (hended : ∀ c ∈ line.getLast?, isBlank c = false)
    (hne : line ≠ []) : Insertable indent.toList fun row => isIndented indent line row where
  single row hrow := by
    obtain ⟨depth, rfl⟩ := isIndented_iff.mp hrow
    simpa using ⟨not_mem_repeated hindent depth, hline⟩
  ended row hrow := by
    obtain ⟨depth, rfl⟩ := isIndented_iff.mp hrow
    rwa [List.getLast?_append_of_ne_nil _ hne]
  deeper row hrow := by
    obtain ⟨depth, rfl⟩ := isIndented_iff.mp hrow
    refine isIndented_iff.mpr ⟨depth + 1, ?_⟩
    rw [repeated, String.toList_append, List.append_assoc]

section Substitution

theorem not_mem_substituteFrom {c : Char} (hvalue : c ∉ value) (skip : Nat) (hcs : c ∉ cs) :
    c ∉ substituteFrom key value skip cs := by
  induction skip, cs using substituteFrom.induct key with
  | case1 => simp [substituteFrom]
  | case2 skip d cs ih =>
    rw [List.mem_cons, not_or] at hcs
    rw [substituteFrom]
    exact ih hcs.2
  | case3 d cs hkey ih =>
    rw [List.mem_cons, not_or] at hcs
    rw [substituteFrom, if_pos hkey, List.mem_append, not_or]
    exact ⟨hvalue, ih hcs.2⟩
  | case4 d cs hkey ih =>
    rw [List.mem_cons, not_or] at hcs
    rw [substituteFrom, if_neg hkey, List.mem_cons, not_or]
    exact ⟨hcs.1, ih hcs.2⟩

/-- What ends in something to see still does if the value does. A key may end the text and is replaced then. -/
theorem getLast_substituteFrom (key : List Char) (hne : value ≠ []) (hvalue : ∀ c ∈ value.getLast?, isBlank c = false) (skip : Nat)
    (hcs : ∀ c ∈ cs.getLast?, isBlank c = false) :
    (∀ c ∈ (substituteFrom key value skip cs).getLast?, isBlank c = false) ∧
      (skip = 0 → cs ≠ [] → substituteFrom key value skip cs ≠ []) := by
  have htail : ∀ {d : Char} {cs : List Char}, (∀ c ∈ (d :: cs).getLast?, isBlank c = false) →
      ∀ c ∈ cs.getLast?, isBlank c = false := by
    intro d cs h c hc
    refine h c ?_
    rw [List.getLast?_cons, Option.mem_def.mp hc]
    rfl
  induction skip, cs using substituteFrom.induct key with
  | case1 => simp [substituteFrom]
  | case2 skip d cs ih =>
    rw [substituteFrom]
    exact ⟨(ih (htail hcs)).1, fun h => absurd h (Nat.succ_ne_zero skip)⟩
  | case3 d cs hkey ih =>
    rw [substituteFrom, if_pos hkey]
    refine ⟨fun c hc => ?_, fun _ _ => by simp [hne]⟩
    rw [List.getLast?_append, Option.mem_def, Option.or_eq_some_iff] at hc
    exact hc.elim ((ih (htail hcs)).1 c) fun hc => hvalue c hc.2
  | case4 d cs hkey ih =>
    rw [substituteFrom, if_neg hkey]
    refine ⟨fun c hc => ?_, fun _ _ => List.cons_ne_nil _ _⟩
    obtain ⟨hlast, hsome⟩ := ih (htail hcs)
    by_cases hnil : cs = []
    · subst hnil
      exact hcs c hc
    · obtain ⟨e, es, hes⟩ := List.exists_cons_of_ne_nil (hsome rfl hnil)
      rw [hes, List.getLast?_cons_cons, ← hes] at hc
      exact hlast c hc

/-- A line break behind the text stays behind it. -/
theorem substituteFrom_concat (hkey : '\n' ∉ key) (hne : key ≠ []) {skip : Nat} (hskip : skip ≤ cs.length) :
    substituteFrom key value skip (cs ++ ['\n']) = substituteFrom key value skip cs ++ ['\n'] := by
  have hbegins : ∀ cs : List Char, key.isPrefixOf (cs ++ ['\n']) = true ↔ key.isPrefixOf cs = true := by
    intro cs
    rw [List.isPrefixOf_iff_prefix, List.isPrefixOf_iff_prefix, List.prefix_concat_iff]
    refine or_iff_right fun h => hkey ?_
    rw [h]
    simp
  induction skip, cs using substituteFrom.induct key with
  | case1 skip =>
    obtain rfl : skip = 0 := Nat.le_zero.mp hskip
    have hnot : ¬ key.isPrefixOf ['\n'] = true := by
      rw [← List.nil_append ['\n'], hbegins, List.isPrefixOf_iff_prefix, List.prefix_nil]
      exact hne
    simp [substituteFrom, hnot]
  | case2 skip d cs ih =>
    rw [List.cons_append, substituteFrom, substituteFrom]
    exact ih (by simpa using hskip)
  | case3 d cs hmatch ih =>
    have hlength := (List.isPrefixOf_iff_prefix.mp hmatch).length_le
    have hmatch' : key.isPrefixOf (d :: (cs ++ ['\n'])) = true := (hbegins (d :: cs)).mpr hmatch
    rw [List.length_cons] at hlength
    rw [List.cons_append, substituteFrom, if_pos hmatch', substituteFrom, if_pos hmatch, ih (by omega), List.append_assoc]
  | case4 d cs hmatch ih =>
    have hmatch' : ¬ key.isPrefixOf (d :: (cs ++ ['\n'])) = true := mt (hbegins (d :: cs)).mp hmatch
    rw [List.cons_append, substituteFrom, if_neg hmatch', substituteFrom, if_neg hmatch, ih (Nat.zero_le _), List.cons_append]

end Substitution

end Text

open Text Run

variable {n : Nat}

/-- A single line with something to see at its end. It may have its line break already. -/
def IsLineTemplate (template : String) : Prop :=
  ∃ line, (template = line ∨ template = line ++ "\n") ∧ OneLine line ∧ Ended line

namespace Settings

/-- The templates that say something. -/
def templates (s : Settings) : List String :=
  s.statementMark?.toList ++ s.loopMark?.toList

/-- One line to a template, to the suite that does nothing and to a step of indentation. -/
structure LineByLine (s : Settings) : Prop where
  indent : OneLine s.indent
  emptySuite : OneLine s.emptySuite
  ended : Ended s.emptySuite
  templates : ∀ t ∈ s.templates, IsLineTemplate t

/-- A line of nothing but the suite that does nothing. -/
def isFiller (s : Settings) (row : List Char) : Bool :=
  isIndented s.indent s.emptySuite.toList row

end Settings

namespace Scene

/-- A template becomes one line. -/
theorem inject_line (s : Scene n) {template : String} (h : IsLineTemplate template) :
    ∃ line, s.inject template = line ++ "\n" ∧ OneLine line ∧ Ended line := by
  obtain ⟨line, htemplate, hline, hended⟩ := h
  have hquote : Ended (quote s.block.id) := (Told.quote (N := fun _ => True) (E := True) _).ended trivial
  have hplain : OneLine (quote s.block.id) := (Written.quote s.block.id).line.oneLine
  obtain ⟨hlast, hsome⟩ := getLast_substituteFrom blockIdMark.toList (by simpa using hquote.ne_empty) hquote.getLast 0
    hended.getLast
  have hsub : Ended (substitute blockIdMark (quote s.block.id) line) := by
    refine ended_of_getLast ?_ (by rwa [substitute, String.toList_ofList])
    have hne := hsome rfl (by simpa using hended.ne_empty)
    simpa [substitute] using hne
  refine ⟨substitute blockIdMark (quote s.block.id) line, ?_, ?_, hsub⟩
  · unfold inject endLine
    obtain rfl | rfl := htemplate
    · have hopen : (substitute blockIdMark (quote s.block.id) template).toList.getLast? ≠ some '\n' :=
        fun h => absurd (hsub.getLast _ h) (by decide)
      rw [if_neg hopen]
    · have hbreak : substitute blockIdMark (quote s.block.id) (line ++ "\n") =
          substitute blockIdMark (quote s.block.id) line ++ "\n" := by
        rw [← String.toList_inj, String.toList_append, substitute, substitute, String.toList_ofList, String.toList_ofList,
          String.toList_append]
        exact substituteFrom_concat (by decide) (by decide) (Nat.zero_le _)
      rw [hbreak, if_pos (by simp)]
  · rw [OneLine, substitute, String.toList_ofList]
    exact not_mem_substituteFrom hplain 0 hline

end Scene

namespace Job

/-- The line that a template becomes at a block. -/
def markLine (job : Job n) (i : Fin n) (template : String) : List Char :=
  ((job.scene i).inject template).toList.dropLast

/-- A line that the settings put into a program at one of the blocks. -/
def isInjected (job : Job n) (blocks : List (Fin n)) (row : List Char) : Bool :=
  blocks.any fun i => job.settings.templates.any fun t => isIndented job.settings.indent (job.markLine i t) row

/-- The lines of a program that are neither put in by the settings nor suites that do nothing. -/
def ownLines (job : Job n) (blocks : List (Fin n)) (code : String) : List (List Char) :=
  (splitAt '\n' code.toList).filter fun row => !(job.isInjected blocks row || job.settings.isFiller row)

variable {job : Job n} {blocks : List (Fin n)} {i : Fin n} {t : String}

theorem isInjected_iff {row : List Char} : job.isInjected blocks row = true ↔
    ∃ i ∈ blocks, ∃ t ∈ job.settings.templates, isIndented job.settings.indent (job.markLine i t) row = true := by
  simp [isInjected]

theorem exists_markLine (h : job.settings.LineByLine) (i : Fin n) (ht : t ∈ job.settings.templates) :
    ∃ line, (job.scene i).inject t = line ++ "\n" ∧ job.markLine i t = line.toList ∧ OneLine line ∧ Ended line := by
  obtain ⟨line, hinject, hline, hended⟩ := (job.scene i).inject_line (h.templates t ht)
  refine ⟨line, hinject, ?_, hline, hended⟩
  rw [markLine, hinject, String.toList_append]
  exact List.dropLast_concat

/-- Where every template is one line, the lines of templates and the suites that do nothing can be put in and taken out. -/
theorem seam (h : job.settings.LineByLine) (blocks : List (Fin n)) :
    Seam job.settings.indent.toList (fun row => job.isInjected blocks row) (fun row => job.settings.isFiller row) where
  indent := h.indent
  fillers := insertable_isIndented h.indent h.emptySuite h.ended.getLast (by simpa using h.ended.ne_empty)
  marks := by
    have hmark : ∀ i, ∀ t ∈ job.settings.templates,
        Insertable job.settings.indent.toList fun row => isIndented job.settings.indent (job.markLine i t) row := by
      intro i t ht
      obtain ⟨line, -, hmark, hline, hended⟩ := exists_markLine h i ht
      rw [hmark]
      exact insertable_isIndented h.indent hline hended.getLast (by simpa using hended.ne_empty)
    constructor
    · intro row hrow
      obtain ⟨i, -, t, ht, hrow⟩ := isInjected_iff.mp hrow
      exact (hmark i t ht).single row hrow
    · intro row hrow
      obtain ⟨i, -, t, ht, hrow⟩ := isInjected_iff.mp hrow
      exact (hmark i t ht).ended row hrow
    · intro row hrow
      obtain ⟨i, hi, t, ht, hrow⟩ := isInjected_iff.mp hrow
      exact isInjected_iff.mpr ⟨i, hi, t, ht, (hmark i t ht).deeper row hrow⟩

/-- The line of a template at a block of the list. -/
theorem inject_weaves (h : job.settings.LineByLine) (hi : i ∈ blocks) (ht : t ∈ job.settings.templates) :
    Weaves (fun row => job.isInjected blocks row) (fun row => job.settings.isFiller row) ((job.scene i).inject t) "" := by
  obtain ⟨line, hinject, hmark, -, hended⟩ := exists_markLine h i ht
  rw [hinject]
  refine .mark (isInjected_iff.mpr ⟨i, hi, t, ht, isIndented_iff.mpr ⟨0, ?_⟩⟩) hended
  rw [hmark]
  rfl

theorem isFiller_suite (settings : Settings) : settings.isFiller (settings.indent ++ settings.emptySuite).toList = true := by
  refine isIndented_iff.mpr ⟨1, ?_⟩
  simp [repeated]

end Job

end BlockScript
