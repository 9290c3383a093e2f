import Mathlib
import BlockScript.Names
import BlockScript.Settings
import BlockScript.Text.Blank

namespace BlockScript

/-- A line that says something: how deep it stands, and whether it opens a suite. -/
structure Mark where
  depth : Nat
  opens : Bool
deriving DecidableEq

/-- The words that open a suite. -/
def suiteWords : List String :=
  ["if", "elif", "else", "for", "while", "def", "try", "except", "finally", "with", "class"]

/-- What a line says, if it is neither blank nor a comment. -/
def Mark.ofLine? (line : List Char) : Option Mark :=
  match line.dropWhile Text.isBlank with
  | [] => none
  | c :: cs =>
    if c = '#' then none
    else some {
      depth := (line.takeWhile (· = ' ')).length
      opens := suiteWords.contains (String.ofList ((c :: cs).takeWhile isIdentifierChar)) }

/-- The lines of a program that say something. -/
def outline (code : String) : List Mark :=
  (Text.splitAt '\n' code.toList).filterMap Mark.ofLine?

/-- Behind every line that opens a suite stands a deeper one. -/
inductive Filled : List Mark → Prop
  | nil : Filled []
  | cons {m : Mark} {ms : List Mark} (next : m.opens = true → ms.head?.any (m.depth < ·.depth) = true)
      (rest : Filled ms) : Filled (m :: ms)

theorem filled_cons {m : Mark} {ms : List Mark} :
    Filled (m :: ms) ↔ (m.opens = true → ms.head?.any (m.depth < ·.depth) = true) ∧ Filled ms := by
  constructor
  · rintro (_ | ⟨hnext, hrest⟩)
    exact ⟨hnext, hrest⟩
  · rintro ⟨hnext, hrest⟩
    exact .cons hnext hrest

instance decidableFilled : DecidablePred Filled
  | [] => isTrue .nil
  | _ :: ms =>
    have : Decidable (Filled ms) := decidableFilled ms
    decidable_of_iff _ filled_cons.symm

/-- The first line is not indented. -/
def Level (ms : List Mark) : Prop :=
  ∀ m, ms.head? = some m → m.depth = 0

namespace Text

variable {c : Char}

theorem splitAt_ne_nil (c : Char) (cs : List Char) : splitAt c cs ≠ [] := by
  cases cs with
  | nil => simp [splitAt]
  | cons d cs =>
    simp only [splitAt]
    split
    · simp
    · split <;> simp

theorem splitAt_cons {d : Char} (h : d ≠ c) (cs : List Char) :
    splitAt c (d :: cs) = (splitAt c cs).modifyHead (d :: ·) := by
  simp only [splitAt, h, if_false]
  cases hs : splitAt c cs with
  | nil => exact absurd hs (splitAt_ne_nil c cs)
  | cons l ls => rfl

theorem splitAt_separator (cs : List Char) : splitAt c (c :: cs) = [] :: splitAt c cs := by
  simp [splitAt]

theorem splitAt_append (xs ys : List Char) : splitAt c (xs ++ c :: ys) = splitAt c xs ++ splitAt c ys := by
  induction xs with
  | nil => rw [List.nil_append, splitAt_separator]; rfl
  | cons x xs ih =>
    by_cases hx : x = c
    · rw [hx, List.cons_append, splitAt_separator, splitAt_separator, ih, List.cons_append]
    · rw [List.cons_append, splitAt_cons hx, splitAt_cons hx, ih]
      cases hs : splitAt c xs with
      | nil => exact absurd hs (splitAt_ne_nil c xs)
      | cons l ls => rfl

theorem splitAt_single {cs : List Char} (h : c ∉ cs) : splitAt c cs = [cs] := by
  induction cs with
  | nil => rfl
  | cons d cs ih =>
    rw [List.mem_cons, not_or] at h
    rw [splitAt_cons (Ne.symm h.1), ih h.2]
    rfl

theorem separator_not_mem_splitAt {cs piece : List Char} (h : piece ∈ splitAt c cs) : c ∉ piece := by
  induction cs generalizing piece with
  | nil => simp_all [splitAt]
  | cons d cs ih =>
    by_cases hd : d = c
    · rw [hd, splitAt_separator, List.mem_cons] at h
      obtain rfl | h := h
      · simp
      · exact ih h
    · obtain ⟨first, pieces, hpieces⟩ := List.exists_cons_of_ne_nil (splitAt_ne_nil c cs)
      rw [splitAt_cons hd, hpieces, List.modifyHead_cons, List.mem_cons] at h
      rw [hpieces] at ih
      obtain rfl | h := h
      · simpa [Ne.symm hd] using ih (by simp)
      · exact ih (by simp [h])

variable {β : Type} {mark : List Char} {f : List Char → Option β}

/-- The lines with a mark in front, to a reader who passes over the mark alone as over the empty line. -/
theorem filterMap_markBreaks (hm : '\n' ∉ mark) (hnil : f [] = none) (hmark : f mark = none) (cs : List Char)
    (hcs : cs ≠ []) {start : List Char} (hs : '\n' ∉ start) :
    (splitAt '\n' (mark ++ start ++ markBreaks mark cs)).filterMap f =
      ((splitAt '\n' (start ++ cs)).map (mark ++ ·)).filterMap f := by
  induction cs using markBreaks.induct generalizing start with
  | case1 => exact absurd rfl hcs
  | case2 c =>
    by_cases hc : c = '\n'
    · rw [hc, markBreaks, splitAt_append, splitAt_append, splitAt_single hs, splitAt_single (by simp [hm, hs])]
      simp [splitAt, List.filterMap_cons, hnil, hmark]
    · rw [markBreaks, splitAt_single (by simp [hm, hs, Ne.symm hc]), splitAt_single (by simp [hs, Ne.symm hc])]
      simp
  | case3 d cs ih =>
    have hrest := ih (by simp) (show '\n' ∉ ([] : List Char) by simp)
    rw [List.append_nil, List.nil_append] at hrest
    rw [markBreaks, if_pos rfl, splitAt_append, splitAt_append, splitAt_single hs,
      splitAt_single (by simp [hm, hs])]
    simp [List.filterMap_cons, hrest]
  | case4 c d cs hc ih =>
    have hrest := ih (by simp) (show '\n' ∉ start ++ [c] by simp [hs, Ne.symm hc])
    rw [markBreaks, if_neg hc]
    simpa using hrest

theorem filterMap_markLines {mark text : String} (hm : '\n' ∉ mark.toList) (hnil : f [] = none)
    (hmark : f mark.toList = none) : (splitAt '\n' (markLines mark text).toList).filterMap f =
      ((splitAt '\n' text.toList).map (mark.toList ++ ·)).filterMap f := by
  unfold markLines
  split
  · rename_i htext
    rw [String.isEmpty_iff.mp htext]
    simp [splitAt, hnil, hmark]
  · rename_i htext
    have hne : text.toList ≠ [] := by
      simpa [String.isEmpty_iff] using htext
    have hmarked := filterMap_markBreaks hm hnil hmark text.toList hne (show '\n' ∉ ([] : List Char) by simp)
    simpa using hmarked

theorem isIdentifierChar_bounds {c : Char} (h : isIdentifierChar c = true) : 48 ≤ c.toNat ∧ c.toNat ≤ 122 := by
  have hval : c.toNat = c.val.toNat := rfl
  simp only [isIdentifierChar, Char.isAlphanum, Char.isAlpha, Char.isUpper, Char.isLower, Char.isDigit, Bool.or_eq_true,
    Bool.and_eq_true, decide_eq_true_eq, beq_iff_eq, UInt32.le_iff_toNat_le, ge_iff_le] at h
  obtain ((h | h) | h) | rfl := h
  · obtain ⟨hlo, hhi⟩ := h
    have hlo : 65 ≤ c.val.toNat := hlo
    have hhi : c.val.toNat ≤ 90 := hhi
    omega
  · obtain ⟨hlo, hhi⟩ := h
    have hlo : 97 ≤ c.val.toNat := hlo
    have hhi : c.val.toNat ≤ 122 := hhi
    omega
  · obtain ⟨hlo, hhi⟩ := h
    have hlo : 48 ≤ c.val.toNat := hlo
    have hhi : c.val.toNat ≤ 57 := hhi
    omega
  · decide

theorem not_blank_of_identifierChar {c : Char} (h : isIdentifierChar c = true) : isBlank c = false := by
  obtain ⟨hlo, hhi⟩ := isIdentifierChar_bounds h
  rw [Bool.eq_false_iff]
  intro hb
  obtain ⟨r, hr, hrlo, hrhi⟩ := Ranges.has_iff.mp hb
  have hsides : ∀ r ∈ blankRanges, r.2 < 48 ∨ 122 < r.1 := by decide
  have := hsides r hr
  omega

/-- Blanks end a word. -/
theorem takeWhile_append_blanks (line : List Char) {blanks : List Char} (h : ∀ c ∈ blanks, isBlank c = true) :
    (line ++ blanks).takeWhile isIdentifierChar = line.takeWhile isIdentifierChar := by
  have hword : blanks.takeWhile isIdentifierChar = [] := by
    cases blanks with
    | nil => rfl
    | cons c blanks =>
      have hc : isIdentifierChar c = false := by
        by_contra hne
        have hblank := not_blank_of_identifierChar (Bool.not_eq_false _ ▸ hne)
        rw [h c (by simp)] at hblank
        cases hblank
      simp [hc]
  rw [List.takeWhile_append, hword]
  split
  · rename_i hlen
    rw [List.append_nil]
    exact ((List.takeWhile_prefix _).eq_of_length hlen).symm
  · rfl

end Text

namespace Mark

def deeper (m : Mark) : Mark := { m with depth := m.depth + 4 }

theorem ofLine_deeper (line : List Char) : ofLine? ("    ".toList ++ line) = (ofLine? line).map deeper := by
  have hdrop : ("    ".toList ++ line).dropWhile Text.isBlank = line.dropWhile Text.isBlank := by
    rw [List.dropWhile_append_of_pos (List.all_eq_true.mp (by decide))]
  have htake : ("    ".toList ++ line).takeWhile (· = ' ') = "    ".toList ++ line.takeWhile (· = ' ') := by
    rw [List.takeWhile_append_of_pos (List.all_eq_true.mp (by decide))]
  unfold ofLine?
  rw [hdrop, htake]
  split
  · rfl
  · split
    · rfl
    · simp only [deeper, List.length_append, Option.map_some, Option.some.injEq, mk.injEq, and_true]
      exact Nat.add_comm _ _

theorem ofLine_comment (line : List Char) : ofLine? ("# ".toList ++ line) = none := rfl

/-- A character that is no blank ends the indentation. -/
theorem spaces_append {line : List Char} {c : Char} {cs : List Char} (h : line.dropWhile Text.isBlank = c :: cs)
    (rest : List Char) : (line ++ rest).takeWhile (· = ' ') = line.takeWhile (· = ' ') := by
  have hc : ¬ Text.isBlank c = true := by
    have hne : line.dropWhile Text.isBlank ≠ [] := by simp [h]
    have hhead := List.head_dropWhile_not Text.isBlank hne
    simpa [h] using hhead
  have hmem : c ∈ line := (List.dropWhile_suffix Text.isBlank).mem (by simp [h])
  have hne : (line.takeWhile (· = ' ')).length ≠ line.length := by
    intro hlen
    have hall := List.takeWhile_eq_self_iff.mp ((List.takeWhile_prefix _).eq_of_length hlen)
    have hspace : c = ' ' := by simpa using hall c hmem
    exact hc (hspace ▸ by decide)
  rw [List.takeWhile_append, if_neg hne]

/-- Blanks at the end of a line say nothing. -/
theorem ofLine_append_blanks {line blanks : List Char} (h : ∀ c ∈ blanks, Text.isBlank c = true) :
    ofLine? (line ++ blanks) = ofLine? line := by
  cases hd : line.dropWhile Text.isBlank with
  | nil =>
    have hline := List.dropWhile_eq_nil_iff.mp hd
    have hleft : (line ++ blanks).dropWhile Text.isBlank = [] :=
      List.dropWhile_eq_nil_iff.mpr fun c hc => (List.mem_append.mp hc).elim (hline c) (h c)
    simp [ofLine?, hleft, hd]
  | cons c cs =>
    have hleft : (line ++ blanks).dropWhile Text.isBlank = c :: cs ++ blanks := by
      rw [List.dropWhile_append, hd]
      rfl
    have hspaces := spaces_append hd blanks
    have hwords := Text.takeWhile_append_blanks (c :: cs) h
    unfold ofLine?
    rw [hleft, hd, hspaces]
    simp only [List.cons_append] at hwords ⊢
    rw [hwords]

end Mark

/-- What a reader of lines finds in a text. -/
def Text.readLines {β : Type} (f : List Char → Option β) (code : String) : List β :=
  (splitAt '\n' code.toList).filterMap f

/-- A reader who passes over blanks at the end of a line. -/
structure Text.PassesBlanks {β : Type} (f : List Char → Option β) : Prop where
  nil : f [] = none
  append : ∀ {line blanks : List Char}, (∀ c ∈ blanks, isBlank c = true) → f (line ++ blanks) = f line

theorem Mark.passesBlanks : Text.PassesBlanks Mark.ofLine? :=
  ⟨rfl, ofLine_append_blanks⟩

/-- A line and the same line with more blanks at its end. -/
def Trails (line line' : List Char) : Prop :=
  ∃ blanks, (∀ c ∈ blanks, Text.isBlank c = true) ∧ line' = line ++ blanks

theorem Trails.refl (line : List Char) : Trails line line :=
  ⟨[], by simp, by simp⟩

theorem filterMap_of_trails {β : Type} {f : List Char → Option β} (hf : Text.PassesBlanks f) {ls ms : List (List Char)}
    (h : List.Forall₂ Trails ls ms) : ls.filterMap f = ms.filterMap f := by
  induction h with
  | nil => rfl
  | cons hline _ ih =>
    obtain ⟨blanks, hblanks, rfl⟩ := hline
    rw [List.filterMap_cons, List.filterMap_cons, ih, hf.append hblanks]

theorem trails_modifyHead {ls ms : List (List Char)} (h : List.Forall₂ Trails ls ms) (c : Char) :
    List.Forall₂ Trails (ls.modifyHead (c :: ·)) (ms.modifyHead (c :: ·)) := by
  cases h with
  | nil => exact .nil
  | cons hline hrest =>
    obtain ⟨blanks, hblanks, rfl⟩ := hline
    exact .cons ⟨blanks, hblanks, rfl⟩ hrest

theorem forall₂_trails_refl (ls : List (List Char)) : List.Forall₂ Trails ls ls :=
  List.forall₂_same.mpr fun line _ => Trails.refl line

theorem trails_dropLineEndBlanks (cs : List Char) :
    List.Forall₂ Trails (Text.splitAt '\n' (Text.dropLineEndBlanks cs)) (Text.splitAt '\n' cs) := by
  induction cs with
  | nil => exact forall₂_trails_refl _
  | cons c cs ih =>
    simp only [Text.dropLineEndBlanks]
    split
    · rename_i hdropped
      obtain ⟨hc, hhead⟩ := hdropped
      have hne : c ≠ '\n' := by
        rintro rfl
        revert hc
        decide
      have hblank : Text.isBlank c = true := by
        obtain rfl | rfl := hc <;> decide
      rw [Text.splitAt_cons hne]
      generalize Text.splitAt '\n' cs = ms at ih
      cases hrest : Text.dropLineEndBlanks cs with
      | nil =>
        rw [hrest] at hhead
        cases hhead
      | cons d ds =>
        obtain rfl : d = '\n' := by
          rw [hrest] at hhead
          simpa using hhead
        rw [hrest, Text.splitAt_separator] at ih
        rw [Text.splitAt_separator]
        cases ih with
        | cons hline hlines =>
          obtain ⟨blanks, hblanks, hline⟩ := hline
          refine .cons ⟨c :: blanks, ?_, by rw [hline]; rfl⟩ hlines
          simpa [hblank] using hblanks
    · by_cases hc : c = '\n'
      · rw [hc, Text.splitAt_separator, Text.splitAt_separator]
        exact .cons (Trails.refl []) ih
      · rw [Text.splitAt_cons hc, Text.splitAt_cons hc]
        exact trails_modifyHead ih c

theorem trails_append {c : Char} (hc : Text.isBlank c = true) (hne : c ≠ '\n') (cs : List Char) :
    List.Forall₂ Trails (Text.splitAt '\n' cs) (Text.splitAt '\n' (cs ++ [c])) := by
  induction cs with
  | nil =>
    rw [List.nil_append, Text.splitAt_cons hne]
    exact .cons ⟨[c], by simpa using hc, rfl⟩ .nil
  | cons d cs ih =>
    by_cases hd : d = '\n'
    · rw [hd, List.cons_append, Text.splitAt_separator, Text.splitAt_separator]
      exact .cons (Trails.refl []) ih
    · rw [List.cons_append, Text.splitAt_cons hd, Text.splitAt_cons hd]
      exact trails_modifyHead ih d

theorem filterMap_append_blanks {β : Type} {f : List Char → Option β} (hf : Text.PassesBlanks f) (cs : List Char)
    {blanks : List Char} (h : ∀ c ∈ blanks, Text.isBlank c = true) :
    (Text.splitAt '\n' (cs ++ blanks)).filterMap f = (Text.splitAt '\n' cs).filterMap f := by
  induction blanks generalizing cs with
  | nil => simp
  | cons c blanks ih =>
    have hrest := ih (cs ++ [c]) fun d hd => h d (by simp [hd])
    rw [List.append_assoc, List.singleton_append] at hrest
    rw [hrest]
    by_cases hc : c = '\n'
    · rw [hc, Text.splitAt_append]
      simp [Text.splitAt, hf.nil]
    · exact (filterMap_of_trails hf (trails_append (h c (by simp)) hc cs)).symm

/-- Whole lines. -/
def Whole (code : String) : Prop :=
  code = "" ∨ ∃ start, code = start ++ "\n"

namespace Text

variable {β : Type} {f : List Char → Option β} {a b : String}

theorem readLines_append_line (f : List Char → Option β) (a b : String) :
    readLines f (a ++ "\n" ++ b) = readLines f a ++ readLines f b := by
  simp [readLines, splitAt_append]

theorem readLines_empty (hf : PassesBlanks f) : readLines f "" = [] := by
  simp [readLines, splitAt, hf.nil]

theorem readLines_line (hf : PassesBlanks f) (a : String) : readLines f (a ++ "\n") = readLines f a := by
  have hline := readLines_append_line f a ""
  rwa [String.append_empty, readLines_empty hf, List.append_nil] at hline

theorem readLines_append (hf : PassesBlanks f) (ha : Whole a) (b : String) :
    readLines f (a ++ b) = readLines f a ++ readLines f b := by
  obtain rfl | ⟨start, rfl⟩ := ha
  · rw [String.empty_append, readLines_empty hf, List.nil_append]
  · rw [readLines_append_line, readLines_line hf]

theorem readLines_joined (hf : PassesBlanks f) (codes : List String) :
    readLines f (joined "\n" codes) = codes.flatMap (readLines f) := by
  induction codes with
  | nil => exact readLines_empty hf
  | cons code codes ih =>
    cases codes with
    | nil => simp [joined]
    | cons s codes => rw [joined, readLines_append_line, ih, ← List.flatMap_cons]

theorem readLines_joined_apart (hf : PassesBlanks f) (codes : List String) :
    readLines f (joined "\n\n" codes) = codes.flatMap (readLines f) := by
  induction codes with
  | nil => exact readLines_empty hf
  | cons code codes ih =>
    cases codes with
    | nil => simp [joined]
    | cons c codes =>
      have hbreak : code ++ "\n\n" ++ joined "\n\n" (c :: codes) =
          code ++ "\n" ++ ("" ++ "\n" ++ joined "\n\n" (c :: codes)) := by
        rw [← String.toList_inj]
        simp
      rw [joined, hbreak, readLines_append_line, readLines_append_line, ih, readLines_empty hf, List.nil_append,
        ← List.flatMap_cons]

theorem readLines_tidyLineEnds (hf : PassesBlanks f) (code : String) :
    readLines f (tidyLineEnds code) = readLines f code := by
  rw [readLines, tidyLineEnds, String.toList_ofList]
  exact filterMap_of_trails hf (trails_dropLineEndBlanks code.toList)

theorem exists_dropBlanksEnd_append (cs : List Char) :
    ∃ blanks, (∀ c ∈ blanks, isBlank c = true) ∧ cs = dropBlanksEnd cs ++ blanks := by
  refine ⟨(cs.reverse.takeWhile isBlank).reverse, fun c hc => List.mem_takeWhile_imp (List.mem_reverse.mp hc), ?_⟩
  rw [dropBlanksEnd, ← List.reverse_append, List.takeWhile_append_dropWhile, List.reverse_reverse]

theorem readLines_trimEnd (hf : PassesBlanks f) (code : String) : readLines f (trimEnd code) = readLines f code := by
  obtain ⟨blanks, hblanks, hchars⟩ := exists_dropBlanksEnd_append code.toList
  rw [readLines, trimEnd, String.toList_ofList, readLines]
  nth_rewrite 2 [hchars]
  exact (filterMap_append_blanks hf _ hblanks).symm

theorem readLines_of_isBlankText (hf : PassesBlanks f) {code : String} (h : isBlankText code = true) :
    readLines f code = [] := by
  have hblanks : ∀ c ∈ code.toList, isBlank c = true := by simpa [isBlankText] using h
  have hread := filterMap_append_blanks hf [] hblanks
  rw [List.nil_append] at hread
  exact hread.trans (by simp [splitAt, hf.nil])

end Text

section

variable {a b : String}

theorem outline_append_line (a b : String) : outline (a ++ "\n" ++ b) = outline a ++ outline b :=
  Text.readLines_append_line _ a b

theorem outline_line (a : String) : outline (a ++ "\n") = outline a :=
  Text.readLines_line Mark.passesBlanks a

theorem outline_append (ha : Whole a) (b : String) : outline (a ++ b) = outline a ++ outline b :=
  Text.readLines_append Mark.passesBlanks ha b

theorem Whole.append (ha : Whole a) (hb : Whole b) : Whole (a ++ b) := by
  obtain rfl | ⟨start, rfl⟩ := hb
  · rwa [String.append_empty]
  · exact Or.inr ⟨a ++ start, by rw [String.append_assoc]⟩

theorem outline_deeper (code : String) : outline (Text.markLines "    " code) = (outline code).map Mark.deeper := by
  have hlines := @Text.filterMap_markLines _ Mark.ofLine? "    " code (by decide) rfl rfl
  rw [outline, hlines, List.filterMap_map, outline, List.map_filterMap]
  exact congrArg (List.filterMap · _) (funext Mark.ofLine_deeper)

theorem outline_comment (text : String) : outline (Text.markLines "# " text) = [] := by
  have hlines := @Text.filterMap_markLines _ Mark.ofLine? "# " text (by decide) rfl rfl
  rw [outline, hlines, List.filterMap_map]
  exact List.filterMap_eq_nil_iff.mpr fun line _ => Mark.ofLine_comment line

theorem outline_tidyLineEnds (code : String) : outline (Text.tidyLineEnds code) = outline code :=
  Text.readLines_tidyLineEnds Mark.passesBlanks code

theorem outline_trimEnd (code : String) : outline (Text.trimEnd code) = outline code :=
  Text.readLines_trimEnd Mark.passesBlanks code

end

section

variable {ls ms : List Mark}

theorem level_append (hl : Level ls) (hm : Level ms) : Level (ls ++ ms) := by
  cases ls with
  | nil => exact hm
  | cons m ls => exact hl

theorem filled_append_of (hl : Filled ls) (hm : Filled ms) : Filled (ls ++ ms) := by
  induction hl with
  | nil => exact hm
  | @cons l ls hopen _ ih =>
    refine .cons (fun ho => ?_) ih
    have hnext := hopen ho
    cases ls with
    | nil => cases hnext
    | cons k ls => exact hnext

theorem Filled.right (h : Filled (ls ++ ms)) : Filled ms := by
  induction ls with
  | nil => exact h
  | cons l ls ih => exact ih (filled_cons.mp h).2

/-- What stands in front of lines that are not indented has its suites by itself. -/
theorem Filled.left (h : Filled (ls ++ ms)) (hm : Level ms) : Filled ls := by
  induction ls with
  | nil => exact .nil
  | cons l ls ih =>
    obtain ⟨hopen, hrest⟩ := filled_cons.mp h
    refine .cons (fun ho => ?_) (ih hrest)
    have hnext := hopen ho
    cases ls with
    | nil =>
      cases hhead : ms.head? with
      | none => simp [hhead] at hnext
      | some k => simp [hhead, hm k hhead] at hnext
    | cons k ls => exact hnext

theorem filled_append (hm : Level ms) : Filled (ls ++ ms) ↔ Filled ls ∧ Filled ms :=
  ⟨fun h => ⟨h.left hm, h.right⟩, fun h => filled_append_of h.1 h.2⟩

theorem filled_deeper : Filled (ms.map Mark.deeper) ↔ Filled ms := by
  induction ms with
  | nil => rfl
  | cons m ms ih =>
    have hnext : (ms.map Mark.deeper).head?.any ((m.deeper).depth < ·.depth) = ms.head?.any (m.depth < ·.depth) := by
      cases ms <;> simp [Mark.deeper]
    rw [List.map_cons, filled_cons, filled_cons, ih, hnext]
    rfl

/-- A suite is filled if it says something and its own suites are filled. -/
theorem filled_suite : Filled (⟨0, true⟩ :: ms.map Mark.deeper) ↔ ms ≠ [] ∧ Filled ms := by
  rw [filled_cons, filled_deeper]
  cases ms with
  | nil => simp
  | cons m ms => simp [Mark.deeper]

end

end BlockScript
