import BlockScript.Proofs.Sheets

namespace BlockScript

/-- Lines by their nesting: a line, the lines under it, and the lines that follow it. -/
inductive Forest where
  | nil
  | cons (line : List Char) (suite rest : Forest)
deriving DecidableEq

namespace Forest

/-- The lines with their indentation. The lines under a line are four steps deeper. -/
def render (level : Nat) : Forest → List (Nat × List Char)
  | nil => []
  | cons line suite rest => (level, line) :: (render (level + 4) suite ++ render level rest)

/-- A line that has been read, with its indentation and what stands under it. -/
structure Root where
  indent : Nat
  line : List Char
  suite : Forest

def ofRoots : List Root → Forest
  | [] => nil
  | r :: rs => cons r.line r.suite (ofRoots rs)

/-- Reads a line in front of others: deeper ones that follow it stand under it. -/
def readLine (line : Nat × List Char) (behind : List Root) : List Root :=
  ⟨line.1, line.2, ofRoots (behind.takeWhile (line.1 < ·.indent))⟩ :: behind.dropWhile (line.1 < ·.indent)

/-- Reads lines by their indentation. -/
def read (lines : List (Nat × List Char)) : Forest :=
  ofRoots (lines.foldr readLine [])

def rootsAt (level : Nat) : Forest → List Root
  | nil => []
  | cons line suite rest => ⟨level, line, suite⟩ :: rootsAt level rest

theorem ofRoots_rootsAt (level : Nat) (f : Forest) : ofRoots (f.rootsAt level) = f := by
  induction f with
  | nil => rfl
  | cons line suite rest _ ih => rw [rootsAt, ofRoots, ih]

theorem indent_of_mem_rootsAt {level : Nat} {f : Forest} : ∀ r ∈ f.rootsAt level, r.indent = level := by
  induction f with
  | nil => simp [rootsAt]
  | cons line suite rest _ ih => simpa [rootsAt] using ih

/-- Deeper lines in front of others that are not are just what a line takes under it. -/
theorem readLine_append {line : Nat × List Char} {deeper others : List Root} (hd : ∀ r ∈ deeper, line.1 < r.indent)
    (ho : ∀ r ∈ others.head?, r.indent ≤ line.1) :
    readLine line (deeper ++ others) = ⟨line.1, line.2, ofRoots deeper⟩ :: others := by
  have hothers : others.takeWhile (line.1 < ·.indent) = [] ∧ others.dropWhile (line.1 < ·.indent) = others := by
    cases others with
    | nil => exact ⟨rfl, rfl⟩
    | cons r rs =>
      have hr : ¬ line.1 < r.indent := not_lt.mpr (ho r rfl)
      exact ⟨List.takeWhile_cons_of_neg (by simpa using hr), List.dropWhile_cons_of_neg (by simpa using hr)⟩
  have hdeeper : ∀ r ∈ deeper, decide (line.1 < r.indent) = true := by simpa using hd
  rw [readLine, List.takeWhile_append_of_pos hdeeper, List.dropWhile_append_of_pos hdeeper, hothers.1, hothers.2,
    List.append_nil]

/-- The lines of a forest, read in front of lines that are not deeper. -/
theorem foldr_render (f : Forest) (level : Nat) {behind : List Root} (hb : ∀ r ∈ behind.head?, r.indent ≤ level) :
    (f.render level).foldr readLine behind = f.rootsAt level ++ behind := by
  induction f generalizing level behind with
  | nil => rfl
  | cons line suite rest ihsuite ihrest =>
    have hrest : ∀ r ∈ (rest.rootsAt level ++ behind).head?, r.indent ≤ level := by
      cases hroots : rest.rootsAt level with
      | nil => exact hb
      | cons r rs =>
        have hlevel := indent_of_mem_rootsAt r (hroots ▸ List.mem_cons_self)
        simp [hlevel]
    rw [render, List.foldr_cons, List.foldr_append, ihrest level hb,
      ihsuite (level + 4) fun r hr => (hrest r hr).trans (Nat.le_add_right level 4), readLine_append ?_ hrest,
      ofRoots_rootsAt]
    · rfl
    · intro r hr
      rw [indent_of_mem_rootsAt r hr]
      exact Nat.lt_add_of_pos_right (by decide)

/-- Reading the lines of a forest gives it back. -/
theorem read_render (f : Forest) (level : Nat) : read (f.render level) = f := by
  rw [read, foldr_render f level (by simp), List.append_nil, ofRoots_rootsAt]

theorem render_deeper (f : Forest) (level : Nat) :
    f.render (level + 4) = (f.render level).map fun line => (line.1 + 4, line.2) := by
  induction f generalizing level with
  | nil => rfl
  | cons line suite rest ihsuite ihrest => simp [render, ihsuite, ihrest]

/-- A suite, or the one that does nothing. -/
def orPass : Forest → Forest
  | nil => cons "pass".toList nil nil
  | f => f

end Forest

namespace Text

/-- The lines of a text that ends with a line break, with their indentation. -/
def indented (code : String) : List (Nat × List Char) :=
  (splitAt '\n' code.toList).dropLast.map fun line => ((line.takeWhile (· = ' ')).length, line.dropWhile (· = ' '))

theorem indented_empty : indented "" = [] := rfl

theorem indented_append {a : String} (ha : Whole a) (b : String) : indented (a ++ b) = indented a ++ indented b := by
  obtain rfl | ⟨start, rfl⟩ := ha
  · rw [String.empty_append, indented_empty, List.nil_append]
  · simp only [indented, String.toList_append, show "\n".toList = ['\n'] from rfl, List.append_assoc, List.singleton_append,
      splitAt_append, ← List.map_append, List.dropLast_append_of_ne_nil (splitAt_ne_nil _ _)]
    simp [splitAt]

theorem spaces_line {opens : Bool} {a : String} (h : IsLine opens a) :
    a.toList.takeWhile (· = ' ') = [] ∧ a.toList.dropWhile (· = ' ') = a.toList := by
  have hnone : a.toList.takeWhile (· = ' ') = [] := by
    have hmark := h.mark
    unfold Mark.ofLine? at hmark
    split at hmark
    · cases hmark
    · split at hmark
      · cases hmark
      · exact List.length_eq_zero_iff.mp (congrArg Mark.depth (Option.some.inj hmark))
  have hsplit := List.takeWhile_append_dropWhile (p := (· = ' ')) (l := a.toList)
  rw [hnone, List.nil_append] at hsplit
  exact ⟨hnone, hsplit⟩

theorem indented_line {opens : Bool} {a : String} (h : IsLine opens a) : indented (a ++ "\n") = [(0, a.toList)] := by
  simp only [indented, String.toList_append, show "\n".toList = ['\n'] from rfl, splitAt_append, splitAt_single h.oneLine]
  simp [splitAt, (spaces_line h).1, (spaces_line h).2]

theorem indented_deeper_line {opens : Bool} {a : String} (h : IsLine opens a) :
    indented ("    " ++ a ++ "\n") = [(4, a.toList)] := by
  have hone : '\n' ∉ ("    " ++ a).toList := (oneLine_append "    " a).mpr ⟨by decide, h.oneLine⟩
  rw [indented, String.toList_append, show "\n".toList = ['\n'] from rfl, splitAt_append, splitAt_single hone]
  simp [splitAt, (spaces_line h).1, (spaces_line h).2]

/-- Every line gets the mark. -/
theorem splitAt_markBreaks (mark : List Char) (hm : '\n' ∉ mark) (cs : List Char) {start : List Char} (hs : '\n' ∉ start) :
    splitAt '\n' (mark ++ start ++ markBreaks mark (cs ++ ['\n'])) =
      (splitAt '\n' (start ++ cs)).map (mark ++ ·) ++ [[]] := by
  induction cs generalizing start with
  | nil =>
    rw [List.nil_append, markBreaks, splitAt_append, List.append_nil, splitAt_single hs, splitAt_single (by simp [hm, hs])]
    rfl
  | cons c cs ih =>
    obtain ⟨d, ds, hds⟩ : ∃ d ds, cs ++ ['\n'] = d :: ds := List.exists_cons_of_ne_nil (by simp)
    by_cases hc : c = '\n'
    · have hrest := ih (show '\n' ∉ ([] : List Char) by simp)
      rw [List.append_nil, List.nil_append, hds] at hrest
      rw [hc, List.cons_append, hds, markBreaks, if_pos rfl, splitAt_append, splitAt_append, splitAt_single hs,
        splitAt_single (by simp [hm, hs]), hrest]
      simp
    · have hrest := ih (show '\n' ∉ start ++ [c] by simp [hs, Ne.symm hc])
      rw [hds] at hrest
      rw [List.cons_append, hds, markBreaks, if_neg hc]
      simpa using hrest

theorem indented_deeper {a : String} (ha : Whole a) :
    indented (markLines "    " a) = (indented a).map fun line => (line.1 + 4, line.2) := by
  obtain rfl | ⟨start, rfl⟩ := ha
  · rfl
  · have hmarked := splitAt_markBreaks "    ".toList (by decide) start.toList (show '\n' ∉ ([] : List Char) by simp)
    rw [List.append_nil, List.nil_append] at hmarked
    have hne : (start ++ "\n").isEmpty = false := by simp
    rw [markLines, hne]
    simp only [Bool.false_eq_true, if_false, indented, String.toList_ofList, String.toList_append,
      show "\n".toList = ['\n'] from rfl, hmarked, splitAt_append, List.dropLast_concat]
    rw [splitAt, List.dropLast_concat, List.map_map, List.map_map]
    refine List.map_congr_left fun line _ => ?_
    simp

theorem indented_ne_nil {a : String} (ha : Whole a) (hne : a ≠ "") : indented a ≠ [] := by
  obtain rfl | ⟨start, rfl⟩ := ha
  · exact absurd rfl hne
  · simp only [indented, String.toList_append, show "\n".toList = ['\n'] from rfl, splitAt_append]
    simp [splitAt, splitAt_ne_nil]

end Text

/-- The lines of a text, read by their indentation. -/
def Forest.ofText (code : String) : Forest :=
  read (Text.indented code)

theorem Forest.ofText_eq {code : String} {f : Forest} {level : Nat} (h : Text.indented code = f.render level) :
    ofText code = f := by
  rw [ofText, h, read_render]

/-- A part of what a rule leaves at its place: a line, a line with another one under it, or a line with the chain of a slot
under it. -/
inductive Piece (α : Type) where
  | line (text : String)
  | pair (header text : String)
  | suite (header name : String) (chain : α)

/-- A piece without its texts. -/
inductive Shape where
  | line
  | pair
  | suite (name : String)
deriving DecidableEq

/-- The slot whose chain stands in a piece. -/
def Shape.slot? : Shape → Option String
  | suite name => some name
  | _ => none

namespace Piece

variable {α β : Type}

def shape : Piece α → Shape
  | line _ => .line
  | pair _ _ => .pair
  | suite _ name _ => .suite name

def map (f : α → β) : Piece α → Piece β
  | line text => line text
  | pair header text => pair header text
  | suite header name chain => suite header name (f chain)

@[simp] theorem shape_map (f : α → β) (p : Piece α) : (p.map f).shape = p.shape := by
  cases p <;> rfl

/-- Just the lines with others under them open suites. -/
def Reads : Piece α → Prop
  | line text => IsLine false text
  | pair header text => IsLine true header ∧ IsLine false text
  | suite header _ _ => IsLine true header

theorem reads_map (f : α → β) (p : Piece α) : (p.map f).Reads ↔ p.Reads := by
  cases p <;> rfl

/-- The piece in front of other lines. -/
def onto : Piece Forest → Forest → Forest
  | line text, rest => .cons text.toList .nil rest
  | pair header text, rest => .cons header.toList (.cons text.toList .nil .nil) rest
  | suite header _ chain, rest => .cons header.toList chain.orPass rest

theorem render_onto (p : Piece Forest) (rest : Forest) (level : Nat) :
    (p.onto rest).render level = (p.onto .nil).render level ++ rest.render level := by
  cases p <;> simp [onto, Forest.render]

theorem render_foldr_onto (ps : List (Piece Forest)) (rest : Forest) (level : Nat) :
    (ps.foldr onto rest).render level = (ps.flatMap fun p => (p.onto .nil).render level) ++ rest.render level := by
  induction ps with
  | nil => rfl
  | cons p ps ih => rw [List.foldr_cons, render_onto, ih, List.flatMap_cons, List.append_assoc]

end Piece

end BlockScript
