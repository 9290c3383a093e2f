import BlockScript.Program.Generation
import BlockScript.Proofs.Sheets

namespace BlockScript

namespace Text

/-- The lines of a text. A line feed ends a line, and so does a carriage return, alone or with a line feed behind it. -/
def sourceLines : List Char → List (List Char)
  | [] => [[]]
  | '\r' :: '\n' :: cs => [] :: sourceLines cs
  | c :: cs => if c = '\n' ∨ c = '\r' then [] :: sourceLines cs else (sourceLines cs).modifyHead (c :: ·)

/-- What stands in front of the first line end. -/
def firstLine (cs : List Char) : List Char :=
  cs.takeWhile fun c => c ≠ '\n' ∧ c ≠ '\r'

/-- The lines in a text that a carriage return alone opens. -/
def looseLines : List Char → List (List Char)
  | [] => []
  | c :: cs => if c = '\r' ∧ cs.head?.any (· ≠ '\n') then firstLine cs :: looseLines cs else looseLines cs

/-- The lines of a row of characters behind which a line feed stands. -/
def rowLines (row : List Char) : List (List Char) :=
  (sourceLines (row ++ ['\n'])).dropLast

def endRows (rows : List (List Char)) : List Char :=
  rows.flatMap (· ++ ['\n'])

variable {mark row cs : List Char} {rows : List (List Char)}

theorem sourceLines_nil : sourceLines [] = [[]] := rfl

theorem sourceLines_feed (cs : List Char) : sourceLines ('\n' :: cs) = [] :: sourceLines cs := rfl

theorem sourceLines_both (cs : List Char) : sourceLines ('\r' :: '\n' :: cs) = [] :: sourceLines cs := rfl

theorem sourceLines_cons {c : Char} (hn : c ≠ '\n') (hr : c ≠ '\r') (cs : List Char) :
    sourceLines (c :: cs) = (sourceLines cs).modifyHead (c :: ·) := by
  rw [sourceLines, if_neg (not_or.mpr ⟨hn, hr⟩)]
  exact fun _ hc => absurd hc hr

theorem sourceLines_return (h : cs.head? ≠ some '\n') : sourceLines ('\r' :: cs) = [] :: sourceLines cs := by
  rw [sourceLines, if_pos (Or.inr rfl)]
  rintro ds - rfl
  exact h rfl

/-- A line feed ends the lines in front of it, whatever follows. -/
theorem exists_sourceLines_append (row : List Char) :
    ∃ lines ≠ [], ∀ cs, sourceLines (row ++ '\n' :: cs) = lines ++ sourceLines cs := by
  induction row using sourceLines.induct with
  | case1 => exact ⟨[[]], by simp, sourceLines_feed⟩
  | case2 row ih =>
    obtain ⟨lines, -, hlines⟩ := ih
    exact ⟨[] :: lines, by simp, fun cs => by simp [sourceLines_both, hlines]⟩
  | case3 c row hc hbreak ih =>
    obtain ⟨lines, hne, hlines⟩ := ih
    obtain rfl | rfl := hbreak
    · exact ⟨[] :: lines, by simp, fun cs => by simp [sourceLines_feed, hlines]⟩
    cases row with
    | nil => exact ⟨[[]], by simp, sourceLines_both⟩
    | cons d row =>
      have hd : d ≠ '\n' := fun hd => hc row rfl (by rw [hd])
      refine ⟨[] :: lines, by simp, fun cs => ?_⟩
      rw [List.cons_append, sourceLines_return (by simpa using hd), hlines, List.cons_append]
  | case4 c row hc hbreak ih =>
    obtain ⟨lines, hne, hlines⟩ := ih
    obtain ⟨hn, hr⟩ := not_or.mp hbreak
    obtain ⟨line, lines, rfl⟩ := List.exists_cons_of_ne_nil hne
    exact ⟨(c :: line) :: lines, by simp, fun cs => by rw [List.cons_append, sourceLines_cons hn hr, hlines]; rfl⟩

theorem sourceLines_append (row cs : List Char) : sourceLines (row ++ '\n' :: cs) = rowLines row ++ sourceLines cs := by
  obtain ⟨lines, -, hlines⟩ := exists_sourceLines_append row
  rw [hlines, rowLines, hlines, sourceLines_nil, List.dropLast_concat]

theorem rowLines_ne_nil (row : List Char) : rowLines row ≠ [] := by
  obtain ⟨lines, hne, hlines⟩ := exists_sourceLines_append row
  rwa [rowLines, hlines, sourceLines_nil, List.dropLast_concat]

theorem rowLines_eq (row : List Char) : rowLines row ++ [[]] = sourceLines (row ++ ['\n']) :=
  (sourceLines_append row []).symm

theorem rowLines_cons {c : Char} (hn : c ≠ '\n') (hr : c ≠ '\r') (row : List Char) :
    rowLines (c :: row) = (rowLines row).modifyHead (c :: ·) := by
  have hlines := rowLines_eq (c :: row)
  rw [List.cons_append, sourceLines_cons hn hr, ← rowLines_eq] at hlines
  obtain ⟨line, lines, hrow⟩ := List.exists_cons_of_ne_nil (rowLines_ne_nil row)
  rw [hrow] at hlines ⊢
  exact List.append_cancel_right hlines

theorem rowLines_return {d : Char} (hd : d ≠ '\n') (row : List Char) :
    rowLines ('\r' :: d :: row) = [] :: rowLines (d :: row) := by
  have hlines := rowLines_eq ('\r' :: d :: row)
  rw [List.cons_append, sourceLines_return (by simpa using hd), ← rowLines_eq] at hlines
  exact List.append_cancel_right hlines

/-- What is put in front of a row stands in its first line. -/
theorem rowLines_append (hn : '\n' ∉ mark) (hr : '\r' ∉ mark) (row : List Char) :
    rowLines (mark ++ row) = (rowLines row).modifyHead (mark ++ ·) := by
  induction mark with
  | nil => cases hrow : rowLines row <;> simp [hrow]
  | cons c mark ih =>
    rw [List.mem_cons, not_or] at hn hr
    rw [List.cons_append, rowLines_cons (Ne.symm hn.1) (Ne.symm hr.1), ih hn.2 hr.2, List.modifyHead_modifyHead]
    rfl

theorem head_sourceLines (cs : List Char) : (sourceLines cs).head? = some (firstLine cs) := by
  induction cs using sourceLines.induct with
  | case1 => rfl
  | case2 cs ih => simp [sourceLines_both, firstLine]
  | case3 c cs hc hbreak ih =>
    rw [sourceLines, if_pos hbreak]
    · obtain rfl | rfl := hbreak <;> simp [firstLine]
    · exact hc
  | case4 c cs hc hbreak ih =>
    obtain ⟨hn, hr⟩ := not_or.mp hbreak
    rw [sourceLines_cons hn hr, List.head?_modifyHead, ih]
    simp [firstLine, hn, hr]

theorem firstLine_append (row cs : List Char) : firstLine (row ++ '\n' :: cs) = firstLine row := by
  induction row with
  | nil => simp [firstLine]
  | cons c row ih =>
    unfold firstLine at ih ⊢
    rw [List.cons_append, List.takeWhile_cons, List.takeWhile_cons, ih]

theorem head_rowLines (row : List Char) : (rowLines row).head? = some (firstLine row) := by
  have hhead := head_sourceLines (row ++ ['\n'])
  rwa [← rowLines_eq, List.head?_append_of_ne_nil _ (rowLines_ne_nil row), firstLine_append] at hhead

theorem sourceLines_endRows (rows : List (List Char)) (cs : List Char) :
    sourceLines (endRows rows ++ cs) = rows.flatMap rowLines ++ sourceLines cs := by
  induction rows with
  | nil => rfl
  | cons row rows ih =>
    rw [endRows, List.flatMap_cons, List.flatMap_cons, List.append_assoc, List.append_assoc, List.append_assoc,
      List.singleton_append, sourceLines_append, ← ih]
    rfl

/-! ### Rows -/

theorem endRows_splitAt (cs : List Char) : endRows (splitAt '\n' cs) = cs ++ ['\n'] := by
  induction cs with
  | nil => rfl
  | cons c cs ih =>
    by_cases hc : c = '\n'
    · rw [hc, splitAt_separator, endRows, List.flatMap_cons, List.nil_append, List.singleton_append, List.cons_append, ← ih]
      rfl
    · obtain ⟨row, rows, hrows⟩ := List.exists_cons_of_ne_nil (splitAt_ne_nil '\n' cs)
      rw [hrows] at ih
      rw [splitAt_cons hc, hrows, List.cons_append, ← ih]
      rfl

/-- The lines that a carriage return opens are those behind the first line of each row. -/
theorem looseLines_eq (cs : List Char) : looseLines cs = (splitAt '\n' cs).flatMap fun row => (rowLines row).tail := by
  induction cs with
  | nil => rfl
  | cons c cs ih =>
    obtain ⟨row, rows, hrows⟩ := List.exists_cons_of_ne_nil (splitAt_ne_nil '\n' cs)
    by_cases hn : c = '\n'
    · subst hn
      rw [looseLines, if_neg (by simp), splitAt_separator, List.flatMap_cons, ih]
      rfl
    rw [splitAt_cons hn]
    by_cases hr : c = '\r'
    · subst hr
      cases cs with
      | nil => rfl
      | cons d cs =>
        by_cases hd : d = '\n'
        · rw [hd, splitAt_separator] at hrows ih ⊢
          rw [looseLines, if_neg (by simp), ih]
          rfl
        · -- The carriage return ends an empty line, and what follows is the first line of the old row.
          have hline : firstLine (d :: cs) = firstLine row := by
            rw [← firstLine_append (d :: cs) [], ← endRows_splitAt, hrows, endRows, List.flatMap_cons, List.append_assoc,
              List.singleton_append, firstLine_append]
          have hlines : rowLines row = firstLine row :: (rowLines row).tail :=
            (List.cons_head?_tail (head_rowLines row)).symm
          obtain ⟨row, rfl⟩ : ∃ row', row = d :: row' := by
            obtain ⟨row', rows', hcs⟩ := List.exists_cons_of_ne_nil (splitAt_ne_nil '\n' cs)
            rw [splitAt_cons hd, hcs] at hrows
            exact ⟨row', (List.cons.inj hrows).1.symm⟩
          rw [looseLines, if_pos (by simp [hd]), ih, hrows, List.modifyHead_cons, List.flatMap_cons, List.flatMap_cons,
            rowLines_return hd, List.tail_cons, ← List.cons_append, hline, ← hlines]
    · rw [looseLines, if_neg (by simp [hr]), ih, hrows, List.modifyHead_cons, List.flatMap_cons, List.flatMap_cons,
        rowLines_cons hn hr, List.tail_modifyHead]

/-! ### Marks in front of rows -/

/-- The mark in front of every row of a text that has one. -/
def markRows (mark cs : List Char) : List Char :=
  if cs = [] then [] else mark ++ markBreaks mark cs

theorem toList_markLines (mark text : String) : (markLines mark text).toList = markRows mark.toList text.toList := by
  unfold markLines markRows
  by_cases htext : text = ""
  · simp [htext]
  · rw [if_neg (by simpa using htext), if_neg (by simpa using htext), String.toList_ofList]

theorem markBreaks_append (hrow : '\n' ∉ row) (mark cs : List Char) :
    markBreaks mark (row ++ '\n' :: cs) = row ++ '\n' :: markRows mark cs := by
  induction row with
  | nil => cases cs <;> simp [markBreaks, markRows]
  | cons c row ih =>
    rw [List.mem_cons, not_or] at hrow
    obtain ⟨d, ds, hds⟩ : ∃ d ds, row ++ '\n' :: cs = d :: ds := List.exists_cons_of_ne_nil (by simp)
    rw [List.cons_append, hds, markBreaks, if_neg (Ne.symm hrow.1), ← hds, ih hrow.2, List.cons_append]

theorem markBreaks_concat (h : cs.getLast? ≠ some '\n') (mark : List Char) :
    markBreaks mark (cs ++ ['\n']) = markBreaks mark cs ++ ['\n'] := by
  induction cs using markBreaks.induct with
  | case1 => rfl
  | case2 c =>
    have hc : c ≠ '\n' := by simpa using h
    simp [markBreaks, hc]
  | case3 d cs ih =>
    rw [List.cons_append, List.cons_append, markBreaks, if_pos rfl, ← List.cons_append (a := d), ih (by simpa using h),
      markBreaks, if_pos rfl]
    simp
  | case4 c d cs hc ih =>
    rw [List.cons_append, List.cons_append, markBreaks, if_neg hc, ← List.cons_append, ih (by simpa using h), markBreaks,
      if_neg hc, List.cons_append]

theorem markRows_endRows (hrows : ∀ row ∈ rows, '\n' ∉ row) (mark cs : List Char) :
    markRows mark (endRows rows ++ cs) = endRows (rows.map (mark ++ ·)) ++ markRows mark cs := by
  induction rows with
  | nil => rfl
  | cons row rows ih =>
    rw [List.forall_mem_cons] at hrows
    have hne : row ++ '\n' :: (endRows rows ++ cs) ≠ [] := by simp
    calc markRows mark (endRows (row :: rows) ++ cs)
        = markRows mark (row ++ '\n' :: (endRows rows ++ cs)) := by simp [endRows]
      _ = mark ++ (row ++ '\n' :: markRows mark (endRows rows ++ cs)) := by
          rw [markRows, if_neg hne, markBreaks_append hrows.1]
      _ = endRows ((row :: rows).map (mark ++ ·)) ++ markRows mark cs := by
          rw [ih hrows.2]
          simp [endRows]

theorem not_mem_repeated {c : Char} {text : String} (h : c ∉ text.toList) (count : Nat) : c ∉ (repeated text count).toList := by
  induction count with
  | zero => simp [repeated]
  | succ count ih => simpa [repeated] using ⟨h, ih⟩

/-- The rows of a text each get the mark, step by step. -/
theorem iterate_markLines {text : String} (hrows : ∀ row ∈ rows, '\n' ∉ row) (htext : text.toList = endRows rows)
    {indent : String} (hindent : '\n' ∉ indent.toList) (code : String) (depth : Nat) :
    ((markLines indent)^[depth] (text ++ code)).toList =
      endRows (rows.map ((repeated indent depth).toList ++ ·)) ++ ((markLines indent)^[depth] code).toList := by
  induction depth with
  | zero => simp [repeated, htext]
  | succ depth ih =>
    have hfree : ∀ row ∈ rows.map ((repeated indent depth).toList ++ ·), '\n' ∉ row := by
      simpa using fun row hrow => ⟨not_mem_repeated hindent depth, hrows row hrow⟩
    rw [Function.iterate_succ_apply', Function.iterate_succ_apply', toList_markLines, ih, markRows_endRows hfree,
      ← toList_markLines, List.map_map]
    simp [repeated, Function.comp_def]

/-! ### Remarks -/

/-- The line is empty or begins as comments do, behind the indentation. -/
def IsRemark (indentation line : List Char) : Prop :=
  line = indentation ∨ indentation ++ "# ".toList <+: line

instance (indentation line : List Char) : Decidable (IsRemark indentation line) :=
  inferInstanceAs (Decidable (_ ∨ _))

theorem IsRemark.deeper {line : List Char} (h : IsRemark [] line) (indentation : List Char) :
    IsRemark indentation (indentation ++ line) := by
  obtain rfl | hline := h
  · exact Or.inl (List.append_nil _)
  · exact Or.inr (List.prefix_append_right_inj indentation |>.mpr hline)

/-- Rows that begin as comments do, with the lines that carriage returns open in them. -/
structure RemarkRows (rows loose : List (List Char)) : Prop where
  ended : ∀ row ∈ rows, '\n' ∉ row
  first : ∀ row ∈ rows, IsRemark [] (firstLine row)
  others : rows.flatMap (fun row => (rowLines row).tail) = loose

namespace RemarkRows

variable {loose rows' loose' : List (List Char)}

theorem nil : RemarkRows [] [] :=
  ⟨by simp, by simp, rfl⟩

theorem append (h : RemarkRows rows loose) (h' : RemarkRows rows' loose') : RemarkRows (rows ++ rows') (loose ++ loose') where
  ended row hrow := (List.mem_append.mp hrow).elim (h.ended row) (h'.ended row)
  first row hrow := (List.mem_append.mp hrow).elim (h.first row) (h'.first row)
  others := by rw [List.flatMap_append, h.others, h'.others]

/-- The rows of a text behind the sign for comments. -/
theorem marked (cs : List Char) : RemarkRows ((splitAt '\n' cs).map ("# ".toList ++ ·)) (looseLines cs) := by
  have hlines : ∀ row, rowLines ("# ".toList ++ row) = (rowLines row).modifyHead ("# ".toList ++ ·) :=
    rowLines_append (by decide) (by decide)
  refine ⟨?_, ?_, ?_⟩
  · simpa using fun row hrow => separator_not_mem_splitAt hrow
  · rw [List.forall_mem_map]
    intro row _
    have hhead := head_rowLines ("# ".toList ++ row)
    rw [hlines, List.head?_modifyHead, head_rowLines] at hhead
    exact Or.inr ⟨firstLine row, Option.some.inj hhead⟩
  · simp only [List.flatMap_map, hlines, List.tail_modifyHead, looseLines_eq]

/-- All lines are remarks exactly if those are that carriage returns open. -/
theorem lines_iff (h : RemarkRows rows loose) {indentation : List Char} (hn : '\n' ∉ indentation) (hr : '\r' ∉ indentation) :
    (∀ line ∈ rows.flatMap (fun row => rowLines (indentation ++ row)), IsRemark indentation line) ↔
      ∀ line ∈ loose, IsRemark indentation line := by
  have hlines : ∀ row, rowLines (indentation ++ row) = (indentation ++ firstLine row) :: (rowLines row).tail := by
    intro row
    rw [rowLines_append hn hr, ← List.cons_head?_tail (head_rowLines row), List.modifyHead_cons, List.tail_cons]
  rw [← h.others]
  simp only [List.forall_mem_flatMap, hlines, List.forall_mem_cons]
  exact forall₂_congr fun row hrow => and_iff_right ((h.first row hrow).deeper indentation)

end RemarkRows

/-- The text of a comment, with its line ended. -/
theorem exists_markedRows {cs : List Char} (hcs : cs ≠ []) :
    ∃ rows, markRows "# ".toList cs ++ ['\n'] = endRows rows ∧ RemarkRows rows (looseLines cs) := by
  by_cases hlast : cs.getLast? = some '\n'
  · obtain ⟨ds, rfl⟩ := List.getLast?_eq_some_iff.mp hlast
    have hmarked := RemarkRows.marked ds
    have hloose : looseLines (ds ++ ['\n']) = looseLines ds ++ [] := by
      rw [looseLines_eq, looseLines_eq, splitAt_append, List.flatMap_append]
      rfl
    refine ⟨(splitAt '\n' ds).map ("# ".toList ++ ·) ++ [[]], ?_, hloose ▸ hmarked.append ?_⟩
    · have hfree : ∀ row ∈ splitAt '\n' ds, '\n' ∉ row := fun row hrow => separator_not_mem_splitAt hrow
      have hrows := markRows_endRows hfree "# ".toList []
      rw [List.append_nil, endRows_splitAt] at hrows
      rw [hrows]
      simp [endRows, markRows]
    · exact ⟨by simp, List.forall_mem_singleton.mpr (Or.inl rfl), rfl⟩
  · refine ⟨_, ?_, .marked cs⟩
    have hfree : ∀ row ∈ splitAt '\n' cs, '\n' ∉ row := fun row hrow => separator_not_mem_splitAt hrow
    have hrows := markRows_endRows hfree "# ".toList []
    rw [List.append_nil, endRows_splitAt, markRows, if_neg (by simp), markBreaks_concat hlast] at hrows
    rw [markRows, if_neg hcs, List.append_assoc, hrows]
    simp [markRows]

theorem joined_lines (codes : List String) (hne : codes ≠ []) :
    (joined "\n" codes ++ "\n").toList = endRows (codes.flatMap fun code => splitAt '\n' code.toList) := by
  induction codes with
  | nil => exact absurd rfl hne
  | cons code codes ih =>
    cases codes with
    | nil => simp [joined, endRows_splitAt]
    | cons next codes =>
      have hrest := ih (by simp)
      rw [List.flatMap_cons, endRows, List.flatMap_append, ← endRows, ← endRows, ← hrest, endRows_splitAt]
      simp [joined]

end Text

open Text Run

variable {n : Nat}

/-- The comments at a block and below it. -/
def Diagram.commentsBelow (d : Diagram n) (i : Fin n) : List String :=
  (d.descendants i).filterMap fun j => (d.block j).comment?

theorem Diagram.toList_nestedComments (d : Diagram n) (i : Fin n) :
    (d.nestedComments i).toList = endRows ((d.commentsBelow i).flatMap fun c => splitAt '\n' c.toList) := by
  unfold nestedComments commentsBelow
  split
  · rename_i hnone
    rw [hnone]
    rfl
  · rename_i comments hsome
    exact joined_lines _ fun hnone => hsome hnone

namespace Scene

/-- The comments that stand in a slot for values. -/
def commentsAt (s : Scene n) (slot : Slot n) : List String :=
  match slot.kind, slot.child with
  | .value, some child => s.job.diagram.commentsBelow child
  | _, _ => []

/-- The comments that are written in front of the block. -/
def shownComments (s : Scene n) : List String :=
  if s.block.isInline then [] else s.block.comment?.toList ++ s.block.slots.flatMap s.commentsAt

/-- The comment part of a block one step or more deeper, line by line. -/
def commentLines (s : Scene n) (indent : String) (depth : Nat) : List (List Char) :=
  (sourceLines ((markLines indent)^[depth] s.comments).toList).dropLast

variable {s : Scene n}

theorem exists_slotRows (hmark : s.settings.commentMark = "# ") (slot : Slot n) : ∃ rows,
    (s.slotComments slot).toList = endRows rows ∧ RemarkRows rows ((s.commentsAt slot).flatMap (looseLines ·.toList)) := by
  have hmarked : ∀ comments : List String, RemarkRows
      ((comments.flatMap fun c => splitAt '\n' c.toList).map ("# ".toList ++ ·)) (comments.flatMap (looseLines ·.toList)) := by
    intro comments
    induction comments with
    | nil => exact .nil
    | cons c comments ih =>
      rw [List.flatMap_cons, List.map_append, List.flatMap_cons]
      exact (RemarkRows.marked c.toList).append ih
  have hbelow : ∀ child, ∃ rows, (markLines s.settings.commentMark (s.job.diagram.nestedComments child)).toList = endRows rows ∧
      RemarkRows rows ((s.job.diagram.commentsBelow child).flatMap (looseLines ·.toList)) := by
    intro child
    refine ⟨_, ?_, hmarked _⟩
    have hfree : ∀ row ∈ (s.job.diagram.commentsBelow child).flatMap (fun c => splitAt '\n' c.toList), '\n' ∉ row := by
      intro row hrow
      obtain ⟨c, -, hrow⟩ := List.mem_flatMap.mp hrow
      exact separator_not_mem_splitAt hrow
    rw [hmark, toList_markLines, Diagram.toList_nestedComments, ← List.append_nil (endRows _), markRows_endRows hfree]
    simp [markRows]
  obtain ⟨name, kind, child⟩ := slot
  cases kind with
  | value =>
    cases child with
    | none => exact ⟨[], rfl, .nil⟩
    | some child => exact hbelow child
  | statement => exact ⟨[], rfl, .nil⟩
  | dummy => exact ⟨[], rfl, .nil⟩

theorem exists_commentRows (hmark : s.settings.commentMark = "# ") : ∃ rows,
    s.comments.toList = endRows rows ∧ RemarkRows rows (s.shownComments.flatMap (looseLines ·.toList)) := by
  have hslots : ∀ slots : List (Slot n), ∃ rows, (joined "" (slots.map s.slotComments)).toList = endRows rows ∧
      RemarkRows rows ((slots.flatMap s.commentsAt).flatMap (looseLines ·.toList)) := by
    intro slots
    induction slots with
    | nil => exact ⟨[], rfl, .nil⟩
    | cons slot slots ih =>
      obtain ⟨first, hfirst, hslot⟩ := exists_slotRows hmark slot
      obtain ⟨rows, hrows, hremarks⟩ := ih
      refine ⟨first ++ rows, ?_, ?_⟩
      · rw [List.map_cons, joined_empty_cons, String.toList_append, hfirst, hrows, endRows, endRows, endRows, List.flatMap_append]
      · rw [List.flatMap_cons, List.flatMap_append]
        exact hslot.append hremarks
  unfold comments shownComments
  split
  · exact ⟨[], rfl, .nil⟩
  obtain ⟨rows, hrows, hremarks⟩ := hslots s.block.slots
  cases hown : s.block.comment? with
  | none => exact ⟨rows, by simpa using hrows, by simpa using hremarks⟩
  | some c =>
    have hne : c.toList ≠ [] := by
      have hfilter := Option.mem_filter_iff.mp (show c ∈ s.block.comment.filter (!·.isEmpty) from hown)
      simpa using hfilter.2
    obtain ⟨first, hfirst, hc⟩ := exists_markedRows hne
    refine ⟨first ++ rows, ?_, ?_⟩
    · dsimp only
      rw [hmark, String.toList_append, String.toList_append, toList_markLines, show "\n".toList = ['\n'] from rfl, hfirst, hrows,
        endRows, endRows, endRows, List.flatMap_append]
    · rw [Option.toList_some, List.singleton_append, List.flatMap_cons]
      exact hc.append hremarks

/-- The comments in front of a block are lines of their own at every depth: behind the indentation, each of them is empty
or begins as a comment does, exactly if this holds of the lines that a carriage return alone opens in a comment. -/
theorem comments_stay_comments (s : Scene n) (hmark : s.settings.commentMark = "# ") (indent : String)
    (hn : '\n' ∉ indent.toList) (hr : '\r' ∉ indent.toList) (depth : Nat) :
    (∀ code text σ τ, (s.placed code).run σ = (.ok text, τ) → ∃ next,
      sourceLines ((markLines indent)^[depth] text).toList =
        s.commentLines indent depth ++ sourceLines ((markLines indent)^[depth] (code ++ next)).toList) ∧
    ((∀ line ∈ s.commentLines indent depth, IsRemark (Text.repeated indent depth).toList line) ↔
      ∀ c ∈ s.shownComments, ∀ line ∈ looseLines c.toList, IsRemark (Text.repeated indent depth).toList line) := by
  obtain ⟨rows, hrows, hremarks⟩ := exists_commentRows hmark
  -- Whatever text follows the comments, their rows stay rows and get the indentation of all steps.
  have hlines : ∀ code, sourceLines ((markLines indent)^[depth] (s.comments ++ code)).toList =
      rows.flatMap (fun row => rowLines ((Text.repeated indent depth).toList ++ row)) ++
        sourceLines ((markLines indent)^[depth] code).toList := by
    intro code
    rw [iterate_markLines hremarks.ended hrows hn, sourceLines_endRows, List.flatMap_map]
  have hpart : s.commentLines indent depth =
      rows.flatMap fun row => rowLines ((Text.repeated indent depth).toList ++ row) := by
    have hempty : (markLines indent)^[depth] "" = "" := Function.iterate_fixed rfl depth
    have halone := hlines ""
    rw [hempty, String.append_empty] at halone
    rw [commentLines, halone]
    exact List.dropLast_concat
  refine ⟨fun code text σ τ hrun => ?_, ?_⟩
  · rw [placed, run_bind] at hrun
    split at hrun
    · rename_i next τ' hnext
      cases hrun
      exact ⟨next, by rw [hpart, String.append_assoc, hlines]⟩
    · cases hrun
  · rw [hpart, hremarks.lines_iff (not_mem_repeated hn depth) (not_mem_repeated hr depth)]
    simp only [List.forall_mem_flatMap]

end Scene

/-- A block with comments of several lines, at itself and in a slot. -/
def remarkedPrint : Workspace 2 where
  diagram := { blocks := #v[
    { type := "serial_print", id := "p", comment := some "first\r\nsecond\r", slots := [⟨"CONTENT", .value, some 1⟩] },
    { type := "text", id := "t", comment := some "third\n\nfourth", fields := [("TEXT", .text "a")], hasOutput := true }] :
      Diagram 2 }
  tops := [0]

theorem remarkedPrint_remarks :
    (((Generator.job {} remarkedPrint).scene 0).commentLines "    " 2).length = 5 ∧
    ∀ line ∈ ((Generator.job {} remarkedPrint).scene 0).commentLines "    " 2,
      IsRemark (Text.repeated "    " 2).toList line := by
  have hloose : ∀ c ∈ ((Generator.job {} remarkedPrint).scene 0).shownComments, looseLines c.toList = [] := by
    decide +kernel
  have hlines := ((Generator.job {} remarkedPrint).scene 0).comments_stay_comments rfl "    " (by decide) (by decide) 2
  refine ⟨by decide +kernel, hlines.2.mpr fun c hc line hline => ?_⟩
  rw [hloose c hc] at hline
  cases hline

/-- A comment with a carriage return in it. -/
def returnedPrint : Workspace 1 where
  diagram := { blocks := #v[{ type := "serial_print", id := "p", comment := some "a\rprint(1)" }] : Diagram 1 }
  tops := [0]

/-- The text behind the carriage return is a line of code. -/
theorem returnedPrint_speaks : ∃ line ∈ ((Generator.job {} returnedPrint).scene 0).commentLines "    " 0,
    line = "print(1)".toList ∧ ¬ IsRemark (Text.repeated "    " 0).toList line :=
  ⟨"print(1)".toList, by decide +kernel, rfl, by decide⟩

end BlockScript
