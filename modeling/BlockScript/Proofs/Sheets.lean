import BlockScript.Proofs.Outline
import BlockScript.Proofs.Naming
import BlockScript.Proofs.Writing

namespace BlockScript

/-- A text without line breaks. -/
def OneLine (code : String) : Prop :=
  '\n' ∉ code.toList

instance (code : String) : Decidable (OneLine code) :=
  inferInstanceAs (Decidable ('\n' ∉ code.toList))

@[simp] theorem oneLine_append (a b : String) : OneLine (a ++ b) ↔ OneLine a ∧ OneLine b := by
  simp [OneLine]

theorem Text.not_mem_joined {c : Char} {separator : String} (hs : c ∉ separator.toList) {codes : List String}
    (h : ∀ code ∈ codes, c ∉ code.toList) : c ∉ (Text.joined separator codes).toList := by
  induction codes with
  | nil => simp [joined]
  | cons code codes ih =>
    have hrest := ih fun s hs => h s (by simp [hs])
    have hcode := h code (by simp)
    cases codes with
    | nil => exact hcode
    | cons s codes => simpa [joined, hcode, hs] using hrest

theorem outline_joined (codes : List String) : outline (Text.joined "\n" codes) = codes.flatMap outline :=
  Text.readLines_joined Mark.passesBlanks codes

theorem outline_joined_apart (codes : List String) :
    outline (Text.joined "\n\n" codes) = codes.flatMap outline :=
  Text.readLines_joined_apart Mark.passesBlanks codes

theorem OneLine.outline {code : String} (h : OneLine code) :
    outline code = (Mark.ofLine? code.toList).toList := by
  rw [BlockScript.outline, Text.splitAt_single h, List.filterMap_cons]
  cases Mark.ofLine? code.toList <;> rfl

/-- A line at the left, which opens a suite or not. -/
structure IsLine (opens : Bool) (code : String) : Prop where
  oneLine : OneLine code
  mark : Mark.ofLine? code.toList = some ⟨0, opens⟩

theorem IsLine.outline {opens : Bool} {code : String} (h : IsLine opens code) : outline code = [⟨0, opens⟩] := by
  rw [h.oneLine.outline, h.mark]
  rfl

/-- A word that has ended decides what the line says. -/
theorem Mark.ofLine_append {start : List Char} (h : (start.dropWhile Text.isBlank).any (!isIdentifierChar ·) = true)
    (rest : List Char) : Mark.ofLine? (start ++ rest) = Mark.ofLine? start := by
  cases hd : start.dropWhile Text.isBlank with
  | nil =>
    rw [hd] at h
    cases h
  | cons c cs =>
    rw [hd] at h
    have hleft : (start ++ rest).dropWhile Text.isBlank = c :: cs ++ rest := by
      rw [List.dropWhile_append, hd]
      rfl
    have hspaces := Mark.spaces_append hd rest
    have hwords : (c :: cs ++ rest).takeWhile isIdentifierChar = (c :: cs).takeWhile isIdentifierChar := by
      rw [List.takeWhile_append, if_neg]
      intro hlen
      have hall := List.takeWhile_eq_self_iff.mp ((List.takeWhile_prefix _).eq_of_length hlen)
      obtain ⟨d, hd, hne⟩ := List.any_eq_true.mp h
      simp [hall d hd] at hne
    unfold ofLine?
    rw [hleft, hd, hspaces]
    simp only [List.cons_append] at hwords ⊢
    rw [hwords]

/-- The start of a line whose first word has ended. -/
structure Starts (opens : Bool) (code : String) : Prop where
  line : IsLine opens code
  ended : (code.toList.dropWhile Text.isBlank).any (!isIdentifierChar ·) = true

theorem Starts.append {opens : Bool} {start rest : String} (h : Starts opens start) (hrest : OneLine rest) :
    Starts opens (start ++ rest) := by
  refine ⟨⟨(oneLine_append _ _).mpr ⟨h.line.oneLine, hrest⟩, ?_⟩, ?_⟩
  · rw [String.toList_append, Mark.ofLine_append h.ended, h.line.mark]
  · have hended := h.ended
    have hne : start.toList.dropWhile Text.isBlank ≠ [] := by
      intro hnil
      rw [hnil] at hended
      cases hended
    rw [String.toList_append, List.dropWhile_append, if_neg (by simpa using hne), List.any_append, hended, Bool.true_or]

theorem IsIdentifier.oneLine {x : String} (h : IsIdentifier x) : OneLine x := by
  obtain ⟨c, cs, hx, hc, hcs⟩ := h
  intro hn
  rw [hx, List.mem_cons] at hn
  obtain rfl | hn := hn
  · revert hc
    decide
  · have := hcs _ hn
    revert this
    decide

theorem suiteWords_subset : suiteWords ⊆ keywords := by
  decide

theorem Mark.ofLine_cons {c : Char} {cs : List Char} (hb : Text.isBlank c = false) (hc : c ≠ '#')
    (hw : String.ofList ((c :: cs).takeWhile isIdentifierChar) ∉ suiteWords) :
    Mark.ofLine? (c :: cs) = some ⟨0, false⟩ := by
  have hspace : c ≠ ' ' := by
    rintro rfl
    cases hb
  have hopens : suiteWords.contains (String.ofList ((c :: cs).takeWhile isIdentifierChar)) = false := by
    rw [List.contains_eq_mem, decide_eq_false_iff_not]
    exact hw
  rw [Mark.ofLine?, List.dropWhile_cons_of_neg (by simp [hb])]
  simp only [if_neg hc, hopens]
  simp [hspace]

/-- A line that begins with a name opens no suite. -/
theorem IsName.starts {x : String} (hx : IsName x) (rest : String) (hr : OneLine rest)
    (hend : rest.toList.head?.any (!isIdentifierChar ·) = true) : Starts false (x ++ rest) := by
  have hkey := hx.not_keyword
  obtain ⟨⟨d, ds, hd, hstart, hds⟩, -⟩ := hx
  obtain ⟨c, cs, hrest, hc⟩ : ∃ c cs, rest.toList = c :: cs ∧ isIdentifierChar c = false := by
    cases hrest : rest.toList with
    | nil => simp [hrest] at hend
    | cons c cs => exact ⟨c, cs, rfl, by simpa [hrest] using hend⟩
  have hident : isIdentifierChar d = true := by
    obtain h | rfl := hstart
    · simp [isIdentifierChar, Char.isAlphanum, h]
    · decide
  have hblank := Text.not_blank_of_identifierChar hident
  have hall : ∀ b ∈ d :: ds, isIdentifierChar b = true := by
    intro b hb
    obtain rfl | hb := List.mem_cons.mp hb
    · exact hident
    · exact hds b hb
  have hword : (d :: (ds ++ c :: cs)).takeWhile isIdentifierChar = d :: ds := by
    rw [← List.cons_append, List.takeWhile_append_of_pos hall]
    simp [hc]
  have hsharp : d ≠ '#' := by
    rintro rfl
    cases hident
  refine ⟨⟨?_, ?_⟩, ?_⟩
  · rw [oneLine_append]
    exact ⟨IsIdentifier.oneLine ⟨d, ds, hd, hstart, hds⟩, hr⟩
  · rw [String.toList_append, hd, hrest, List.cons_append]
    refine Mark.ofLine_cons hblank hsharp ?_
    rw [hword, ← hd, String.ofList_toList]
    exact fun h => hkey (suiteWords_subset h)
  · rw [String.toList_append, hd, hrest, List.cons_append, List.dropWhile_cons_of_neg (by simp [hblank])]
    simp [hc]

namespace Pending

theorem next_break (p : Pending) : p.next '\n' = none := by
  have hleave : ∀ q : Pending, q.leave '\n' = none := by
    intro q
    have hchar : ofChar '\n' = none := by decide
    unfold leave
    split
    · rfl
    · cases q.flush <;> simp [hchar]
  cases p with
  | numeral part cs => cases part <;> exact hleave _
  | symbol a =>
    have hpair : (a, '\n') ∉ symbolPairs := by simp [symbolPairs]
    simp [next, hpair, hleave]
  | quoted d escaped cs => cases escaped <;> rfl
  | word cs => simp [next, show isIdentifierChar '\n' = false by decide, hleave]
  | idle | shut => exact hleave _

theorem lex_oneLine {p : Pending} {cs : List Char} {ts : List Token} (h : p.lex cs = some ts) : '\n' ∉ cs := by
  induction cs generalizing p ts with
  | nil => simp
  | cons c cs ih =>
    simp only [lex, bind, Option.bind_eq_some_iff] at h
    obtain ⟨⟨out, q⟩, hnext, us, hus, -⟩ := h
    rw [List.mem_cons, not_or]
    refine ⟨?_, ih hus⟩
    rintro rfl
    rw [next_break] at hnext
    cases hnext

/-- The word that is being read is the first token. -/
theorem lex_word_head {read cs : List Char} {ts : List Token} (h : (word read).lex cs = some ts) :
    ∃ us, ts = .word (String.ofList (read ++ cs.takeWhile isIdentifierChar)) :: us := by
  induction cs generalizing read ts with
  | nil =>
    cases h
    exact ⟨[], by simp⟩
  | cons c cs ih =>
    by_cases hc : isIdentifierChar c = true
    · have hnext : (word read).next c = some ([], word (read ++ [c])) := by simp [next, hc]
      rw [lex_cons hnext] at h
      simpa [hc] using ih h
    · simp only [lex, next, hc, leave, flush, bind, Option.bind_eq_some_iff] at h
      obtain ⟨⟨out, q⟩, hnext, us, -, hts⟩ := h
      cases hts
      split at hnext
      · rename_i hcontra
        cases hcontra
      · split at hnext
        · cases hnext
        · simp only [Option.bind_some, Option.bind_eq_some_iff, pure, Option.some.injEq, Prod.mk.injEq] at hnext
          obtain ⟨q', -, rfl, -⟩ := hnext
          exact ⟨us, by simp [hc]⟩

end Pending

theorem Derives.head_append {r : Nat} {ts us vs : List Token} {e : Expr} {t : Token} (h : Derives r ts e)
    (hts : ts ++ us = t :: vs) : ∃ ws, ts = t :: ws := by
  obtain ⟨t', ws, rfl, -⟩ := h.head
  cases hts
  exact ⟨ws, rfl⟩

/-- No expression begins with a word that opens a suite. -/
theorem Derives.first_word {r : Nat} {ts : List Token} {e : Expr} (h : Derives r ts e) {s : String} {us : List Token}
    (hts : ts = .word s :: us) : s ∉ suiteWords := by
  induction h generalizing us with
  | name hs =>
    cases hts
    obtain hs | hs := hs
    · exact fun h => hs (suiteWords_subset h)
    · simp only [List.mem_cons, List.not_mem_nil, or_false] at hs
      obtain rfl | rfl | rfl := hs <;> decide
  | numeral | text | group | sign => cases hts
  | negate =>
    cases hts
    decide
  | looser _ ih => exact ih hts
  | member hx _ ih | call _ hx _ ih _ | binary _ hx _ ih _ | compare _ hx _ _ _ ih _ | connect _ _ hx _ _ ih _
  | conditional hx _ _ ih _ _ =>
    obtain ⟨ws, hws⟩ := hx.head_append hts
    exact ih hws

/-- An expression is a line that opens no suite. -/
theorem Written.line {r : Rank} {code : String} {e : Expr} (h : Written r code e) : IsLine false code := by
  obtain ⟨ts, hts, hd⟩ := h
  obtain ⟨⟨c, cs, hcs, hspace⟩, hlex⟩ := of_tokens hts
  refine ⟨Pending.lex_oneLine hlex, ?_⟩
  rw [hcs] at hlex ⊢
  cases hq : Pending.ofChar c with
  | none => simp [Pending.lex, Pending.next, Pending.leave, Pending.touches, Pending.flush, hq] at hlex
  | some q =>
    rw [Pending.lex_cons (Pending.idle_next hq)] at hlex
    unfold Pending.ofChar at hq
    rw [if_neg hspace] at hq
    split at hq
    · rename_i hletter
      cases hq
      have hident : isIdentifierChar c = true := by
        simp only [Bool.or_eq_true, beq_iff_eq] at hletter
        obtain h | rfl := hletter
        · simp [isIdentifierChar, Char.isAlphanum, h]
        · decide
      obtain ⟨us, hus⟩ := Pending.lex_word_head hlex
      refine Mark.ofLine_cons (Text.not_blank_of_identifierChar hident) ?_ ?_
      · rintro rfl
        cases hident
      · rw [List.takeWhile_cons_of_pos hident]
        exact hd.first_word hus
    · split at hq
      · rename_i hdigit
        have hident := isIdentifierChar_of_digit hdigit
        refine Mark.ofLine_cons (Text.not_blank_of_identifierChar hident) ?_ ?_
        · rintro rfl
          cases hident
        · have hheads : ∀ s ∈ suiteWords, s.toList.head?.any Char.isDigit = false := by decide
          intro hmem
          have := hheads _ hmem
          simp [List.takeWhile_cons_of_pos hident, hdigit] at this
      · have hother : isQuoteChar c = true ∨ c ∈ "(),.+-*/%<>&^|~=!".toList := by
          split at hq
          · exact Or.inl ‹_›
          · split at hq
            · exact Or.inr ‹_›
            · cases hq
        have hplain : Text.isBlank c = false ∧ c ≠ '#' ∧ isIdentifierChar c = false := by
          obtain h | h := hother
          · simp only [isQuoteChar, Bool.or_eq_true, beq_iff_eq] at h
            obtain rfl | rfl := h <;> decide
          · have hsymbols : ("(),.+-*/%<>&^|~=!".toList.all fun c =>
                decide (Text.isBlank c = false ∧ c ≠ '#' ∧ isIdentifierChar c = false)) = true := by decide
            exact of_decide_eq_true (List.all_eq_true.mp hsymbols c h)
        obtain ⟨hblank, hsharp, hident⟩ := hplain
        refine Mark.ofLine_cons hblank hsharp ?_
        rw [List.takeWhile_cons_of_neg (by simp [hident])]
        decide

theorem getLast_markBreaks (mark cs : List Char) : (Text.markBreaks mark cs).getLast? = cs.getLast? := by
  induction cs using Text.markBreaks.induct with
  | case1 => rfl
  | case2 c => rfl
  | case3 d cs ih =>
    rw [Text.markBreaks, if_pos rfl]
    simp [List.getLast?_cons, List.getLast?_append, ih]
  | case4 c d cs hc ih =>
    rw [Text.markBreaks, if_neg hc]
    simp [List.getLast?_cons, ih]

theorem whole_iff (code : String) : Whole code ↔ code = "" ∨ code.toList.getLast? = some '\n' := by
  refine or_congr_right ⟨?_, ?_⟩
  · rintro ⟨start, rfl⟩
    simp
  · intro hlast
    obtain ⟨cs, hcs⟩ := List.getLast?_eq_some_iff.mp hlast
    refine ⟨String.ofList cs, ?_⟩
    rw [← String.toList_inj, hcs]
    simp

theorem Whole.markLines {mark code : String} (h : Whole code) : Whole (Text.markLines mark code) := by
  unfold Text.markLines
  split
  · exact h
  · rename_i hne
    rw [whole_iff] at h ⊢
    obtain rfl | h := h
    · exact absurd rfl hne
    · refine Or.inr ?_
      simp [getLast_markBreaks, List.getLast?_append, h]

theorem Text.joined_empty_cons (code : String) (codes : List String) :
    Text.joined "" (code :: codes) = code ++ Text.joined "" codes := by
  cases codes <;> simp [joined]

/-- Lines that say nothing. -/
structure Silent (code : String) : Prop where
  whole : Whole code
  outline : outline code = []

theorem Silent.empty : Silent "" :=
  ⟨Or.inl rfl, rfl⟩

theorem Silent.append {a b : String} (ha : Silent a) (hb : Silent b) : Silent (a ++ b) := by
  refine ⟨ha.whole.append hb.whole, ?_⟩
  rw [outline_append ha.whole, ha.outline, hb.outline, List.append_nil]

theorem Silent.joined {codes : List String} (h : ∀ code ∈ codes, Silent code) : Silent (Text.joined "" codes) := by
  induction codes with
  | nil => exact .empty
  | cons code codes ih =>
    rw [List.forall_mem_cons] at h
    rw [Text.joined_empty_cons]
    exact h.1.append (ih h.2)

/-- Lines one step deeper. -/
structure Indented (code : String) (ms : List Mark) : Prop where
  whole : Whole code
  outline : outline code = ms.map Mark.deeper

namespace Indented

theorem empty : Indented "" [] :=
  ⟨Or.inl rfl, rfl⟩

theorem append {a b : String} {ls ms : List Mark} (ha : Indented a ls) (hb : Indented b ms) :
    Indented (a ++ b) (ls ++ ms) := by
  refine ⟨ha.whole.append hb.whole, ?_⟩
  rw [outline_append ha.whole, ha.outline, hb.outline, List.map_append]

theorem deeper {code : String} (h : Whole code) : Indented (Text.markLines "    " code) (BlockScript.outline code) :=
  ⟨h.markLines, outline_deeper code⟩

theorem line {opens : Bool} {code : String} (h : IsLine opens code) : Indented ("    " ++ code ++ "\n") [⟨0, opens⟩] := by
  refine ⟨Or.inr ⟨_, rfl⟩, ?_⟩
  have hline : OneLine ("    " ++ code) := (oneLine_append _ _).mpr ⟨by decide, h.oneLine⟩
  rw [outline_line, hline.outline, String.toList_append, Mark.ofLine_deeper, h.mark]
  rfl

end Indented

/-- Lines, with what decides whether their suites are filled. -/
structure Sheet (code : String) (ok : Prop) : Prop where
  whole : Whole code
  level : Level (outline code)
  filled : Filled (outline code) ↔ ok

namespace Sheet

variable {a b : String} {p q : Prop}

theorem congr (h : Sheet a p) (hpq : p ↔ q) : Sheet a q :=
  ⟨h.whole, h.level, h.filled.trans hpq⟩

theorem of_silent (h : Silent a) : Sheet a True := by
  refine ⟨h.whole, ?_, ?_⟩ <;> rw [h.outline]
  · intro m hm
    cases hm
  · exact iff_of_true .nil trivial

theorem empty : Sheet "" True :=
  of_silent .empty

theorem append (ha : Sheet a p) (hb : Sheet b q) : Sheet (a ++ b) (p ∧ q) := by
  refine ⟨ha.whole.append hb.whole, ?_, ?_⟩ <;> rw [outline_append ha.whole]
  · exact level_append ha.level hb.level
  · rw [filled_append hb.level, ha.filled, hb.filled]

theorem joined {α : Type} {l : List α} {codes : List String} {P : α → Prop}
    (h : List.Forall₂ (fun a code => Sheet code (P a)) l codes) : Sheet (Text.joined "" codes) (∀ a ∈ l, P a) := by
  induction h with
  | nil => exact empty.congr (by simp)
  | cons ha _ ih =>
    rw [Text.joined_empty_cons]
    exact (ha.append ih).congr (by simp)

theorem of_line (h : IsLine false a) : Sheet (a ++ "\n") True := by
  refine ⟨Or.inr ⟨a, rfl⟩, ?_, ?_⟩ <;> rw [outline_line, h.outline]
  · intro m hm
    cases hm
    rfl
  · exact iff_of_true (by decide) trivial

/-- A line that opens a suite, and the lines of the suite. -/
theorem suite {ms : List Mark} (ha : IsLine true a) (hb : Indented b ms) :
    Sheet (a ++ "\n" ++ b) (ms ≠ [] ∧ Filled ms) := by
  refine ⟨Whole.append (Or.inr ⟨a, rfl⟩) hb.whole, ?_, ?_⟩ <;> rw [outline_append_line, ha.outline, hb.outline]
  · intro m hm
    cases hm
    rfl
  · exact filled_suite

end Sheet

end BlockScript
