import BlockScript.Proofs.CommentLines
import BlockScript.Proofs.LineEnds

namespace BlockScript

namespace Text

variable {M F : List Char → Prop} {indent row cs ds cs' ds' : List Char}

/-- Whole lines that two texts share, with marks in between that only the first one has, and fillers that only the second one
has. -/
inductive Woven (M F : List Char → Prop) : List Char → List Char → Prop where
  | nil : Woven M F [] []
  | line {row cs ds : List Char} : '\n' ∉ row → Woven M F cs ds → Woven M F (row ++ '\n' :: cs) (row ++ '\n' :: ds)
  | mark {row cs ds : List Char} : M row → Woven M F cs ds → Woven M F (row ++ '\n' :: cs) ds
  | filler {row cs ds : List Char} : F row → Woven M F cs ds → Woven M F cs (row ++ '\n' :: ds)

/-- Single lines that end in something to see and stay such lines one step deeper. -/
structure Insertable (indent : List Char) (L : List Char → Prop) : Prop where
  single : ∀ row, L row → '\n' ∉ row
  ended : ∀ row, L row → ∀ c ∈ row.getLast?, isBlank c = false
  deeper : ∀ row, L row → L (indent ++ row)

/-- Marks and fillers in texts with that indentation. -/
structure Seam (indent : List Char) (M F : List Char → Prop) : Prop where
  marks : Insertable indent M
  fillers : Insertable indent F
  indent : '\n' ∉ indent

theorem markRows_line (hrow : '\n' ∉ row) (cs : List Char) :
    markRows indent (row ++ '\n' :: cs) = indent ++ row ++ '\n' :: markRows indent cs := by
  rw [markRows, if_neg (by simp), markBreaks_append hrow, List.append_assoc]

/-- The blanks at the end of a line are dropped, whatever follows. -/
theorem exists_tidyLine (hrow : '\n' ∉ row) : ∃ tidy, '\n' ∉ tidy ∧ ((∀ c ∈ row.getLast?, isBlank c = false) → tidy = row) ∧
    ∀ cs, dropLineEndBlanks (row ++ '\n' :: cs) = tidy ++ '\n' :: dropLineEndBlanks cs := by
  induction row with
  | nil => exact ⟨[], by simp, fun _ => rfl, fun cs => by simp [dropLineEndBlanks]⟩
  | cons c row ih =>
    rw [List.mem_cons, not_or] at hrow
    obtain ⟨tidy, hfree, hended, htidy⟩ := ih hrow.2
    replace hended : (∀ d ∈ (c :: row).getLast?, isBlank d = false) → tidy = row := by
      refine fun h => hended fun d hd => h d ?_
      rw [List.getLast?_cons, Option.mem_def.mp hd]
      rfl
    have hhead : ∀ cs, (tidy ++ '\n' :: dropLineEndBlanks cs).head? = some '\n' ↔ tidy = [] := by
      intro cs
      cases tidy with
      | nil => simp
      | cons d tidy => simpa using fun hd : d = '\n' => hfree (by simp [hd])
    by_cases hdrop : (c = ' ' ∨ c = '\t') ∧ tidy = []
    · refine ⟨[], by simp, fun h => ?_, fun cs => ?_⟩
      · have hlast := h c (by rw [← hended h, hdrop.2]; rfl)
        obtain ⟨rfl | rfl, -⟩ := hdrop <;> exact absurd hlast (by decide)
      · rw [List.cons_append, dropLineEndBlanks, htidy, if_pos ⟨hdrop.1, (hhead cs).mpr hdrop.2⟩, hdrop.2]
    · refine ⟨c :: tidy, by simpa using ⟨hrow.1, hfree⟩, fun h => by rw [hended h], fun cs => ?_⟩
      rw [List.cons_append, dropLineEndBlanks, htidy, if_neg, List.cons_append]
      rwa [hhead cs]

theorem exists_dropLineEndBlanks_append (cs ds : List Char) :
    ∃ es, dropLineEndBlanks (cs ++ ds) = es ++ dropLineEndBlanks ds := by
  induction cs with
  | nil => exact ⟨[], rfl⟩
  | cons c cs ih =>
    obtain ⟨es, hes⟩ := ih
    rw [List.cons_append, dropLineEndBlanks, hes]
    split
    · exact ⟨es, rfl⟩
    · exact ⟨c :: es, rfl⟩

namespace Woven

theorem append (h : Woven M F cs ds) (h' : Woven M F cs' ds') : Woven M F (cs ++ cs') (ds ++ ds') := by
  induction h with
  | nil => exact h'
  | line hrow _ ih =>
    rw [List.append_assoc, List.append_assoc]
    exact .line hrow ih
  | mark hrow _ ih =>
    rw [List.append_assoc]
    exact .mark hrow ih
  | filler hrow _ ih =>
    rw [List.append_assoc]
    exact .filler hrow ih

/-- A text that ends its last line. -/
theorem whole (cs : List Char) : Woven M F (cs ++ ['\n']) (cs ++ ['\n']) := by
  have hrows : ∀ rows : List (List Char), (∀ row ∈ rows, '\n' ∉ row) → Woven M F (endRows rows) (endRows rows) := by
    intro rows hrows
    induction rows with
    | nil => exact .nil
    | cons row rows ih =>
      rw [List.forall_mem_cons] at hrows
      rw [endRows, List.flatMap_cons, List.append_assoc]
      exact .line hrows.1 (ih hrows.2)
  rw [← endRows_splitAt]
  exact hrows _ fun row hrow => separator_not_mem_splitAt hrow

theorem deeper (hs : Seam indent M F) (h : Woven M F cs ds) :
    Woven M F (markRows indent cs) (markRows indent ds) := by
  induction h with
  | nil => exact .nil
  | line hrow _ ih =>
    rw [markRows_line hrow, markRows_line hrow]
    exact .line (by simpa using ⟨hs.indent, hrow⟩) ih
  | mark hrow _ ih =>
    rw [markRows_line (hs.marks.single _ hrow)]
    exact .mark (hs.marks.deeper _ hrow) ih
  | filler hrow _ ih =>
    rw [markRows_line (hs.fillers.single _ hrow)]
    exact .filler (hs.fillers.deeper _ hrow) ih

theorem tidy (hs : Seam indent M F) (h : Woven M F cs ds) :
    Woven M F (dropLineEndBlanks cs) (dropLineEndBlanks ds) := by
  induction h with
  | nil => exact .nil
  | line hrow _ ih =>
    obtain ⟨tidy, hfree, -, htidy⟩ := exists_tidyLine hrow
    rw [htidy, htidy]
    exact .line hfree ih
  | mark hrow _ ih =>
    obtain ⟨tidy, -, hended, htidy⟩ := exists_tidyLine (hs.marks.single _ hrow)
    rw [htidy, hended (hs.marks.ended _ hrow)]
    exact .mark hrow ih
  | filler hrow _ ih =>
    obtain ⟨tidy, -, hended, htidy⟩ := exists_tidyLine (hs.fillers.single _ hrow)
    rw [htidy, hended (hs.fillers.ended _ hrow)]
    exact .filler hrow ih

/-- Without the marks and the fillers, the lines are the same. -/
theorem filter_eq (hs : Seam indent M F) {gone : List Char → Bool}
    (hmarks : ∀ row, M row → gone row = true) (hfillers : ∀ row, F row → gone row = true) (h : Woven M F cs ds) :
    (splitAt '\n' cs).filter (!gone ·) = (splitAt '\n' ds).filter (!gone ·) := by
  induction h with
  | nil => rfl
  | line hrow _ ih => rw [splitAt_append, splitAt_append, List.filter_append, List.filter_append, ih]
  | mark hrow _ ih =>
    rw [splitAt_append, splitAt_single (hs.marks.single _ hrow), List.filter_append, ih, List.filter_singleton, hmarks _ hrow]
    rfl
  | filler hrow _ ih =>
    rw [splitAt_append, splitAt_single (hs.fillers.single _ hrow), List.filter_append, ih, List.filter_singleton, hfillers _ hrow]
    rfl

end Woven

end Text

open Text

variable {a b c d indent : String} {M F : List Char → Prop}

theorem Ended.getLast (h : Ended a) : ∀ c ∈ a.toList.getLast?, isBlank c = false := by
  intro c hc
  rw [Ended, Option.mem_def.mp hc] at h
  simpa using h

theorem ended_of_getLast (hne : a ≠ "") (h : ∀ c ∈ a.toList.getLast?, isBlank c = false) : Ended a := by
  cases hlast : a.toList.getLast? with
  | none => exact absurd (List.getLast?_eq_none_iff.mp hlast) (by simpa using hne)
  | some c =>
    rw [Ended, hlast]
    simpa using h c hlast

theorem Ended.joined_append {rest : List String} (hne : rest ≠ []) (h : ∀ code ∈ rest, Ended code) (codes : List String)
    (separator : String) : Ended (Text.joined separator (codes ++ rest)) := by
  induction codes with
  | nil => exact .joined hne h separator
  | cons code codes ih =>
    obtain ⟨next, more, hmore⟩ := List.exists_cons_of_ne_nil (List.append_ne_nil_of_right_ne_nil codes hne)
    rw [List.cons_append, hmore, Text.joined, ← hmore]
    exact ih.append _

theorem Ended.trimEnd (h : Ended a) : trimEnd a = a := by
  rw [Text.trimEnd, dropBlanksEnd_of_last h, String.ofList_toList]

theorem Ended.trimEnd_line (h : Ended a) : Text.trimEnd (a ++ "\n") = a := by
  have hbreak : ∀ c ∈ "\n".toList, isBlank c = true := List.forall_mem_singleton.mpr (by decide)
  rw [Text.trimEnd, String.toList_append, dropBlanksEnd_append hbreak, dropBlanksEnd_of_last h, String.ofList_toList]

theorem Ended.isBlankText (h : Ended a) (b : String) : isBlankText (a ++ b) = false := by
  cases hlast : a.toList.getLast? with
  | none => rw [Ended, hlast] at h; cases h
  | some c =>
    rw [Text.isBlankText, List.all_eq_false]
    refine ⟨c, ?_, by simpa using h.getLast c hlast⟩
    rw [String.toList_append]
    exact List.mem_append_left _ (List.mem_of_getLast? hlast)

/-- The last line keeps its end. -/
theorem Ended.exists_tidy (h : Ended a) : ∃ tidy, tidyLineEnds (a ++ "\n") = tidy ++ "\n" ∧ Ended tidy := by
  cases hlast : a.toList.getLast? with
  | none => rw [Ended, hlast] at h; cases h
  | some c =>
    have hc := h.getLast c hlast
    obtain ⟨cs, hcs⟩ := List.getLast?_eq_some_iff.mp hlast
    obtain ⟨es, hes⟩ := exists_dropLineEndBlanks_append cs [c, '\n']
    have hrest : dropLineEndBlanks [c, '\n'] = [c, '\n'] := by
      have hspace : c ≠ ' ' := by rintro rfl; exact absurd hc (by decide)
      have htab : c ≠ '\t' := by rintro rfl; exact absurd hc (by decide)
      simp [dropLineEndBlanks, hspace, htab]
    refine ⟨String.ofList (es ++ [c]), ?_, by simp [Ended, hc]⟩
    rw [← String.toList_inj, tidyLineEnds, String.toList_ofList, String.toList_append, hcs]
    simpa [hrest] using hes

namespace Firm

theorem deeper (h : Firm a) : Firm (markLines indent a) := by
  obtain rfl | ⟨line, rfl, hline : Ended line⟩ := h
  · exact Or.inl rfl
  · have hlast : line.toList.getLast? ≠ some '\n' := fun hlast => absurd (hline.getLast _ hlast) (by decide)
    refine Or.inr ⟨String.ofList (indent.toList ++ markBreaks indent.toList line.toList), ?_, ?_⟩
    · rw [← String.toList_inj, toList_markLines, markRows, if_neg (by simp), String.toList_append,
        show "\n".toList = ['\n'] from rfl, markBreaks_concat hlast]
      simp
    · rw [String.toList_ofList]
      exact getLast_any_append (by rw [getLast_markBreaks]; exact hline)

theorem tidy (h : Firm a) : Firm (tidyLineEnds a) := by
  obtain rfl | ⟨line, rfl, hline : Ended line⟩ := h
  · exact Or.inl rfl
  · obtain ⟨tidy, htidy, hended⟩ := hline.exists_tidy
    rw [htidy]
    exact hended.firm

theorem tidy_eq_empty (h : Firm a) : tidyLineEnds a = "" ↔ a = "" := by
  obtain rfl | ⟨line, rfl, hline : Ended line⟩ := h
  · exact iff_of_true rfl rfl
  · obtain ⟨tidy, htidy, -⟩ := hline.exists_tidy
    rw [htidy, String.append_eq_empty_iff, String.append_eq_empty_iff]
    exact iff_of_false (fun h => nomatch h.2) fun h => nomatch h.2

end Firm

/-- Lines of which the last ones end in something to see, and which are the same but for marks in the first text and fillers
in the second one. -/
structure Weaves (M F : List Char → Prop) (a b : String) : Prop where
  first : Firm a
  second : Firm b
  woven : Woven M F a.toList b.toList

/-- Such lines, none in one text only if there are none in the other one. -/
structure Twined (M F : List Char → Prop) (a b : String) : Prop extends Weaves M F a b where
  empty : a = "" ↔ b = ""

theorem woven_behind (h : Woven M F a.toList b.toList) (text : String) :
    Woven M F (text ++ "\n" ++ a).toList (text ++ "\n" ++ b).toList := by
  have hparts : ∀ c : String, (text ++ "\n" ++ c).toList = (text.toList ++ ['\n']) ++ c.toList := by
    simp
  rw [hparts, hparts]
  exact (Woven.whole _).append h

namespace Weaves

theorem refl (h : Firm a) : Weaves M F a a := by
  refine ⟨h, h, ?_⟩
  obtain rfl | ⟨line, rfl, -⟩ := h
  · exact .nil
  · rw [String.toList_append]
    exact .whole _

theorem append (h : Weaves M F a b) (h' : Weaves M F c d) : Weaves M F (a ++ c) (b ++ d) := by
  refine ⟨h.first.append h'.first, h.second.append h'.second, ?_⟩
  rw [String.toList_append, String.toList_append]
  exact h.woven.append h'.woven

theorem mark (h : M a.toList) (ha : Ended a) : Weaves M F (a ++ "\n") "" := by
  refine ⟨ha.firm, Or.inl rfl, ?_⟩
  rw [String.toList_append]
  exact .mark h .nil

theorem filler (h : F a.toList) (ha : Ended a) : Weaves M F "" (a ++ "\n") := by
  refine ⟨Or.inl rfl, ha.firm, ?_⟩
  rw [String.toList_append]
  exact .filler h .nil

theorem deeper (hs : Seam indent.toList M F) (h : Weaves M F a b) : Weaves M F (markLines indent a) (markLines indent b) := by
  refine ⟨h.first.deeper, h.second.deeper, ?_⟩
  rw [toList_markLines, toList_markLines]
  exact h.woven.deeper hs

/-- Lines below other lines. -/
theorem below (h : Weaves M F a b) (hc : Firm c) : Weaves M F (c ++ a) (c ++ b) :=
  (refl hc).append h

/-- Lines behind a text that ends its last line. -/
theorem behind (h : Weaves M F a b) (ha : a ≠ "") (hb : b ≠ "") (text : String) :
    Weaves M F (text ++ "\n" ++ a) (text ++ "\n" ++ b) := by
  obtain ⟨line, rfl, hline : Ended line⟩ := h.first.resolve_left ha
  obtain ⟨line', rfl, hline' : Ended line'⟩ := h.second.resolve_left hb
  refine ⟨?_, ?_, ?_⟩
  · rw [← String.append_assoc]
    exact (hline.append _).firm
  · rw [← String.append_assoc]
    exact (hline'.append _).firm
  · exact woven_behind h.woven text

end Weaves

theorem markLines_eq_empty : markLines indent a = "" ↔ a = "" := by
  rw [← String.toList_eq_nil_iff, ← String.toList_eq_nil_iff, toList_markLines, markRows]
  split
  · exact iff_of_true rfl ‹_›
  · have hbreaks : markBreaks indent.toList a.toList = [] ↔ a.toList = [] := by
      rw [← List.getLast?_eq_none_iff, getLast_markBreaks, List.getLast?_eq_none_iff]
    rw [List.append_eq_nil_iff, hbreaks]
    exact ⟨And.right, fun h => absurd h ‹_›⟩

namespace Twined

theorem of_ne_empty (h : Weaves M F a b) (ha : a ≠ "") (hb : b ≠ "") : Twined M F a b :=
  ⟨h, iff_of_false ha hb⟩

theorem empty_refl : Twined M F "" "" :=
  ⟨.refl (Or.inl rfl), Iff.rfl⟩

theorem refl (h : Firm a) : Twined M F a a :=
  ⟨.refl h, Iff.rfl⟩

theorem append (h : Twined M F a b) (h' : Twined M F c d) : Twined M F (a ++ c) (b ++ d) :=
  ⟨h.toWeaves.append h'.toWeaves, by rw [String.append_eq_empty_iff, String.append_eq_empty_iff, h.empty, h'.empty]⟩

theorem deeper (hs : Seam indent.toList M F) (h : Twined M F a b) : Twined M F (markLines indent a) (markLines indent b) :=
  ⟨h.toWeaves.deeper hs, by rw [markLines_eq_empty, markLines_eq_empty, h.empty]⟩

theorem joined {codes codes' : List String} (h : List.Forall₂ (Twined M F) codes codes') :
    Twined M F (Text.joined "" codes) (Text.joined "" codes') := by
  induction h with
  | nil => exact .refl (Or.inl rfl)
  | cons hcode _ ih =>
    rw [joined_empty_cons, joined_empty_cons]
    exact hcode.append ih

theorem tidy (hs : Seam indent.toList M F) (h : Twined M F a b) : Twined M F (tidyLineEnds a) (tidyLineEnds b) := by
  refine ⟨⟨h.first.tidy, h.second.tidy, ?_⟩, by rw [h.first.tidy_eq_empty, h.second.tidy_eq_empty, h.empty]⟩
  rw [tidyLineEnds, tidyLineEnds, String.toList_ofList, String.toList_ofList]
  exact h.woven.tidy hs

end Twined

/-- Lines that are joined by line breaks, and by more whole lines. -/
theorem Text.Woven.joined (rest : String) (hrest : Woven M F rest.toList rest.toList) {codes codes' : List String}
    (h : List.Forall₂ (fun a b => Woven M F (a ++ "\n").toList (b ++ "\n").toList) codes codes') :
    Woven M F (Text.joined ("\n" ++ rest) codes ++ "\n").toList (Text.joined ("\n" ++ rest) codes' ++ "\n").toList := by
  induction h with
  | nil =>
    rw [String.toList_append]
    exact .whole _
  | cons hcode hcodes ih =>
    cases hcodes with
    | nil => exact hcode
    | cons hnext hcodes =>
      have hparts := hcode.append (hrest.append ih)
      simpa only [Text.joined, String.toList_append, List.append_assoc] using hparts

/-- Sections that are both blank or both not, and are the same but for marks and fillers where they are laid out. -/
structure Laid (M F : List Char → Prop) (a b : String) : Prop where
  blank : isBlankText a = isBlankText b
  woven : Woven M F (trimEnd a ++ "\n").toList (trimEnd b ++ "\n").toList

namespace Laid

theorem refl (a : String) : Laid M F a a :=
  ⟨rfl, by rw [String.toList_append]; exact .whole _⟩

theorem layOut {sections sections' : List String} (h : List.Forall₂ (Laid M F) sections sections') :
    Woven M F (layOut sections).toList (layOut sections').toList := by
  have hlaid : List.Forall₂ (fun a b => Woven M F (a ++ "\n").toList (b ++ "\n").toList)
      ((sections.filter (!isBlankText ·)).map trimEnd) ((sections'.filter (!isBlankText ·)).map trimEnd) := by
    induction h with
    | nil => exact .nil
    | @cons a b _ _ hab _ ih =>
      rw [List.filter_cons, List.filter_cons, hab.blank]
      split
      · exact .cons hab.woven ih
      · exact ih
  exact .joined "\n" (.whole []) hlaid

end Laid

/-- Texts whose last lines lack nothing but their end, the same but for marks and fillers. -/
structure Matched (M F : List Char → Prop) (a b : String) : Prop where
  first : Ended a
  second : Ended b
  woven : Woven M F (a ++ "\n").toList (b ++ "\n").toList

theorem Twined.matched (h : Twined M F a b) (hne : a ≠ "") : ∃ line line', a = line ++ "\n" ∧ b = line' ++ "\n" ∧
    Matched M F line line' := by
  obtain ⟨line, rfl, hline⟩ := h.first.resolve_left hne
  obtain ⟨line', rfl, hline'⟩ := h.second.resolve_left fun hb => hne (h.empty.mpr hb)
  exact ⟨line, line', rfl, rfl, hline, hline', h.woven⟩

namespace Matched

theorem behind (h : Matched M F a b) (text : String) : Matched M F (text ++ "\n" ++ a) (text ++ "\n" ++ b) := by
  refine ⟨h.first.append _, h.second.append _, ?_⟩
  have hparts : ∀ c : String, text ++ "\n" ++ c ++ "\n" = text ++ "\n" ++ (c ++ "\n") := fun _ => String.append_assoc
  rw [hparts, hparts]
  exact woven_behind h.woven text

theorem laid (h : Matched M F a b) : Laid M F a b := by
  refine ⟨?_, by rw [h.first.trimEnd, h.second.trimEnd]; exact h.woven⟩
  rw [← String.append_empty (s := a), ← String.append_empty (s := b), h.first.isBlankText, h.second.isBlankText]

theorem laid_lines (h : Matched M F a b) : Laid M F (a ++ "\n") (b ++ "\n") :=
  ⟨by rw [h.first.isBlankText, h.second.isBlankText], by rw [h.first.trimEnd_line, h.second.trimEnd_line]; exact h.woven⟩

theorem joined (rest : String) (hrest : Woven M F rest.toList rest.toList) (front : List String) {codes codes' : List String}
    (h : List.Forall₂ (Matched M F) codes codes') (hne : codes ≠ []) :
    Matched M F (Text.joined ("\n" ++ rest) (front ++ codes)) (Text.joined ("\n" ++ rest) (front ++ codes')) := by
  have hended : ∀ {codes codes' : List String}, List.Forall₂ (Matched M F) codes codes' →
      (∀ code ∈ codes, Ended code) ∧ ∀ code ∈ codes', Ended code := by
    intro codes codes' h
    induction h with
    | nil => exact ⟨List.forall_mem_nil _, List.forall_mem_nil _⟩
    | cons hcode _ ih =>
      exact ⟨List.forall_mem_cons.mpr ⟨hcode.first, ih.1⟩, List.forall_mem_cons.mpr ⟨hcode.second, ih.2⟩⟩
  have hne' : codes' ≠ [] := by
    rintro rfl
    exact hne (List.forall₂_nil_right_iff.mp h)
  refine ⟨.joined_append hne (hended h).1 front _, .joined_append hne' (hended h).2 front _, .joined rest hrest ?_⟩
  refine List.rel_append (List.forall₂_same.mpr fun code _ => ?_) (h.imp fun _ _ hcode => hcode.woven)
  rw [String.toList_append]
  exact .whole _

end Matched

end BlockScript
