import BlockScript.Proofs.Layout

namespace BlockScript

/-- What a reader of names has in hand. -/
inductive NameReader where
  | idle
  | name (read : List Char)
  /-- Behind a name and a sign of equality. -/
  | equated (read : List Char)
  /-- Behind a point. -/
  | point
  | member
  | quoted (delimiter : Char) (escaped : Bool)
  | comment

namespace NameReader

def ofChar (c : Char) : NameReader :=
  if isIdentifierChar c then name [c]
  else if isQuoteChar c then quoted c false
  else if c = '#' then comment
  else if c = '.' then point
  else idle

/-- The names that are read to their end at a character. Members are no names of the program, and neither are the keywords
of arguments, which have a single sign of equality right behind them. -/
def next : NameReader → Char → List String × NameReader
  | name cs, c =>
    if isIdentifierChar c then ([], name (cs ++ [c]))
    else if c = '=' then ([], equated cs)
    else ([String.ofList cs], ofChar c)
  | equated cs, c => if c = '=' then ([String.ofList cs], idle) else ([], ofChar c)
  | point, c | member, c => ([], if isIdentifierChar c then member else ofChar c)
  | quoted d true, _ => ([], quoted d false)
  | quoted d false, c => ([], if c = '\\' then quoted d true else if c = d then idle else quoted d false)
  | comment, _ => ([], comment)
  | idle, c => ([], ofChar c)

def found : NameReader → List Char → List String
  | _, [] => []
  | r, c :: cs => (r.next c).1 ++ (r.next c).2.found cs

def after : NameReader → List Char → NameReader
  | r, [] => r
  | r, c :: cs => (r.next c).2.after cs

/-- What is read to its end where the line ends. -/
def last : NameReader → List String
  | name cs => [String.ofList cs]
  | _ => []

variable {r r' r'' : NameReader} {cs ds : List Char}

theorem found_append (r : NameReader) (cs ds : List Char) : r.found (cs ++ ds) = r.found cs ++ (r.after cs).found ds := by
  induction cs generalizing r with
  | nil => rfl
  | cons c cs ih => rw [List.cons_append, found, found, after, ih, List.append_assoc]

theorem after_append (r : NameReader) (cs ds : List Char) : r.after (cs ++ ds) = (r.after cs).after ds := by
  induction cs generalizing r with
  | nil => rfl
  | cons c cs ih => rw [List.cons_append, after, after, ih]

theorem read_word (read : List Char) (h : ∀ c ∈ cs, isIdentifierChar c = true) :
    (name read).found cs = [] ∧ (name read).after cs = name (read ++ cs) := by
  induction cs generalizing read with
  | nil => exact ⟨rfl, by rw [List.append_nil]; rfl⟩
  | cons c cs ih =>
    rw [List.forall_mem_cons] at h
    have hnext : (name read).next c = ([], name (read ++ [c])) := if_pos h.1
    obtain ⟨hfound, hafter⟩ := ih (read ++ [c]) h.2
    rw [found, after, hnext, hfound, hafter, List.append_assoc]
    exact ⟨rfl, rfl⟩

theorem read_first (h : ∀ c ∈ cs, isIdentifierChar c = true) (hne : cs ≠ []) :
    idle.found cs = [] ∧ idle.after cs = name cs := by
  cases cs with
  | nil => exact absurd rfl hne
  | cons c cs =>
    rw [List.forall_mem_cons] at h
    have hnext : idle.next c = ([], name [c]) := congrArg (Prod.mk []) (if_pos h.1)
    rw [found, after, hnext]
    exact read_word [c] h.2

end NameReader

/-- The names that a text speaks of outside its strings and comments. -/
def textNames (text : List Char) : List String :=
  NameReader.idle.found text ++ (NameReader.idle.after text).last

/-- A word that cannot be an identifier of the program. -/
def Foreign (word : String) : Prop :=
  word ∈ reservedWords ∨ word.toList.head?.any Char.isDigit = true

instance (word : String) : Decidable (Foreign word) :=
  inferInstanceAs (Decidable (_ ∨ _))

theorem IsIdentifier.chars {x : String} (h : IsIdentifier x) : x.toList ≠ [] ∧ ∀ c ∈ x.toList, isIdentifierChar c = true := by
  obtain ⟨c, cs, hx, hc, hcs⟩ := h
  rw [hx]
  refine ⟨List.cons_ne_nil c cs, List.forall_mem_cons.mpr ⟨?_, hcs⟩⟩
  obtain hc | rfl := hc
  · simp [isIdentifierChar, Char.isAlphanum, hc]
  · decide

theorem IsName.not_foreign {x : String} (h : IsName x) : ¬ Foreign x := by
  rintro (hword | hdigit)
  · exact h.2 hword
  · obtain ⟨c, cs, hx, hc, -⟩ := h.1
    rw [hx] at hdigit
    have hletter := Pending.ofChar_letter hc
    rw [Pending.ofChar_digit hdigit] at hletter
    cases hletter

namespace NameReader

variable {r r' r'' : NameReader} {cs ds : List Char}

/-- From one reading to another only foreign words are found. -/
structure Passes (r : NameReader) (cs : List Char) (r' : NameReader) : Prop where
  found : ∀ word ∈ r.found cs, Foreign word
  after : r.after cs = r'

theorem Passes.append (h : Passes r cs r') (h' : Passes r' ds r'') : Passes r (cs ++ ds) r'' := by
  refine ⟨fun word hword => ?_, ?_⟩
  · rw [found_append, h.after, List.mem_append] at hword
    exact hword.elim (h.found word) (h'.found word)
  · rw [after_append, h.after, h'.after]

theorem Passes.textNames (h : Passes idle cs idle) : ∀ word ∈ textNames cs, Foreign word := by
  have hnames : BlockScript.textNames cs = idle.found cs := by
    rw [BlockScript.textNames, h.after]
    exact List.append_nil _
  rw [hnames]
  exact h.found

theorem Passes.append_string {a b : String} (h : Passes r a.toList r') (h' : Passes r' b.toList r'') :
    Passes r (a ++ b).toList r'' := by
  rw [String.toList_append]
  exact h.append h'

/-- A text on one line that ends where a comma or a bracket follows, and in which no name of the program is found. -/
structure Nameless (text : String) : Prop where
  oneLine : OneLine text
  ended : ∀ c, c = ',' ∨ c = ')' → Passes idle (text.toList ++ [c]) idle

theorem Nameless.passes {text rest : String} (h : Nameless text)
    (hhead : rest.toList.head?.any (fun c => c = ',' ∨ c = ')') = true) (hrest : Passes idle rest.toList r) :
    Passes idle (text ++ rest).toList r := by
  cases hcs : rest.toList with
  | nil => simp [hcs] at hhead
  | cons c cs =>
    have hc : c = ',' ∨ c = ')' := by simpa [hcs] using hhead
    have hidle : idle.next c = ([], idle) := by
      obtain rfl | rfl := hc <;> rfl
    have hbehind : Passes idle cs r := by
      rw [hcs] at hrest
      refine ⟨fun word hword => hrest.found word ?_, ?_⟩
      · rwa [NameReader.found, hidle]
      · rw [← hrest.after, NameReader.after, hidle]
    rw [String.toList_append, hcs, List.append_cons]
    exact (h.ended c hc).append hbehind

end NameReader

/-- A line that is neither blank nor a comment, without the blanks at its end. -/
def codeLine? (line : List Char) : Option (List Char) :=
  (Mark.ofLine? line).map fun _ => Text.dropBlanksEnd line

/-- The lines of a program, without blank ones and comments. -/
def codeLines (code : String) : List (List Char) :=
  Text.readLines codeLine? code

def firstWord (line : List Char) : String :=
  String.ofList (line.takeWhile isIdentifierChar)

/-- The value of a line that gives a name its value. -/
def assignedValue? (line : List Char) : Option (List Char) :=
  match line.dropWhile isIdentifierChar with
  | ' ' :: '=' :: ' ' :: value => some value
  | _ => none

/-- The name that a line binds: the function of a definition, or what is assigned to. -/
def boundName? (line : List Char) : Option String :=
  if firstWord line = "def" then some (firstWord (line.drop 4))
  else (assignedValue? line).map fun _ => firstWord line

/-- The words that open lines which need no name but bind some. -/
def bindingWords : List String :=
  ["import", "from", "def"]

/-- The names that have to be bound where a line runs. -/
def usedNames (line : List Char) : List String :=
  let text := line.dropWhile (· = ' ')
  if firstWord text ∈ bindingWords then []
  else textNames ((assignedValue? text).getD text)

/-- Whether a line stands in the suite of a definition, by the lines in front of it. -/
def insideFunction (before : List (List Char)) (line : List Char) : Bool :=
  line.head? = some ' ' && (before.reverse.find? (·.head? ≠ some ' ')).any (firstWord · = "def")

namespace Text

theorem dropBlanksEnd_append {line blanks : List Char} (h : ∀ c ∈ blanks, isBlank c = true) :
    dropBlanksEnd (line ++ blanks) = dropBlanksEnd line := by
  rw [dropBlanksEnd, List.reverse_append, List.dropWhile_append_of_pos fun c hc => h c (List.mem_reverse.mp hc)]
  rfl

theorem dropBlanksEnd_of_last {line : List Char} (h : line.getLast?.any (!isBlank ·) = true) : dropBlanksEnd line = line := by
  cases hline : line.reverse with
  | nil => rw [dropBlanksEnd, hline, List.reverse_eq_nil_iff.mp hline]; rfl
  | cons c cs =>
    have hc : isBlank c = false := by
      rw [List.getLast?_eq_head?_reverse, hline] at h
      simpa using h
    rw [dropBlanksEnd, hline, List.dropWhile_cons_of_neg (by simp [hc]), ← hline, List.reverse_reverse]

end Text

theorem codeLine_passesBlanks : Text.PassesBlanks codeLine? where
  nil := rfl
  append h := by
    rw [codeLine?, codeLine?, Mark.ofLine_append_blanks h, Text.dropBlanksEnd_append h]

theorem OneLine.codeLines {code : String} (h : OneLine code) : codeLines code = (codeLine? code.toList).toList := by
  rw [BlockScript.codeLines, Text.readLines, Text.splitAt_single h, List.filterMap_cons]
  cases codeLine? code.toList <;> rfl

theorem IsLine.codeLines {opens : Bool} {code : String} (h : IsLine opens code) :
    codeLines code = [Text.dropBlanksEnd code.toList] := by
  rw [h.oneLine.codeLines, codeLine?, h.mark]
  rfl

theorem IsLine.codeLines_of_last {opens : Bool} {code : String} (h : IsLine opens code)
    (hlast : code.toList.getLast?.any (!Text.isBlank ·) = true) : BlockScript.codeLines code = [code.toList] := by
  rw [h.codeLines, Text.dropBlanksEnd_of_last hlast]

/-- A line of code is marked in the outline. -/
theorem mem_codeLines {code : String} {line : List Char} (h : line ∈ codeLines code) :
    ∃ m ∈ outline code, Mark.ofLine? line = some m := by
  obtain ⟨full, hfull, hline⟩ := List.mem_filterMap.mp h
  obtain ⟨m, hm, rfl⟩ := Option.map_eq_some_iff.mp hline
  refine ⟨m, List.mem_filterMap.mpr ⟨full, hfull, hm⟩, ?_⟩
  obtain ⟨blanks, hblanks, hchars⟩ := Text.exists_dropBlanksEnd_append full
  rw [← hm]
  nth_rewrite 2 [hchars]
  exact (Mark.ofLine_append_blanks hblanks).symm

theorem Mark.depth_pos_iff {line : List Char} {m : Mark} (h : ofLine? line = some m) :
    0 < m.depth ↔ line.head? = some ' ' := by
  have hdepth : m.depth = (line.takeWhile (· = ' ')).length := by
    unfold ofLine? at h
    split at h
    · cases h
    · split at h
      · cases h
      · cases h
        rfl
  rw [hdepth]
  cases line with
  | nil => simp
  | cons c cs => by_cases hc : c = ' ' <;> simp [hc]

/-- The lines of a suite are indented. -/
theorem Indented.head {code : String} {ms : List Mark} (h : Indented code ms) :
    ∀ line ∈ codeLines code, line.head? = some ' ' := by
  intro line hline
  obtain ⟨m, hm, hmark⟩ := mem_codeLines hline
  rw [h.outline] at hm
  obtain ⟨m', -, rfl⟩ := List.mem_map.mp hm
  exact (Mark.depth_pos_iff hmark).mp (Nat.succ_pos _)

theorem OneLine.head {code : String} (h : OneLine code) (hspace : code.toList.head? = some ' ') :
    ∀ line ∈ BlockScript.codeLines code, line.head? = some ' ' := by
  intro line hline
  obtain ⟨m, hm, hmark⟩ := mem_codeLines hline
  rw [h.outline, Option.mem_toList] at hm
  exact (Mark.depth_pos_iff hmark).mp ((Mark.depth_pos_iff hm).mpr hspace)

section Lines

variable {x : String}

theorem takeWhile_name (hx : IsIdentifier x) {c : Char} (hc : isIdentifierChar c = false) (rest : List Char) :
    (x.toList ++ c :: rest).takeWhile isIdentifierChar = x.toList := by
  rw [List.takeWhile_append_of_pos hx.chars.2, List.takeWhile_cons_of_neg (by simp [hc]), List.append_nil]

theorem dropWhile_name (hx : IsIdentifier x) {c : Char} (hc : isIdentifierChar c = false) (rest : List Char) :
    (x.toList ++ c :: rest).dropWhile isIdentifierChar = c :: rest := by
  rw [List.dropWhile_append_of_pos hx.chars.2, List.dropWhile_cons_of_neg (by simp [hc])]

theorem firstWord_name (hx : IsIdentifier x) {c : Char} (hc : isIdentifierChar c = false) (rest : List Char) :
    firstWord (x.toList ++ c :: rest) = x := by
  rw [firstWord, takeWhile_name hx hc, String.ofList_toList]

theorem dropSpaces_name (hx : IsIdentifier x) (rest : List Char) :
    (x.toList ++ rest).dropWhile (· = ' ') = x.toList ++ rest := by
  obtain ⟨c, cs, hcs, hc, -⟩ := hx
  have hspace : c ≠ ' ' := ne_space_of_letter hc
  rw [hcs, List.cons_append, List.dropWhile_cons_of_neg (by simp [hspace])]

theorem IsName.ne_word (hx : IsName x) {word : String} (h : word ∈ reservedWords) : x ≠ word := by
  rintro rfl
  exact hx.2 h

theorem boundName_assignment (hx : IsName x) (value : String) : boundName? (x ++ " = " ++ value).toList = some x := by
  have hchars : (x ++ " = " ++ value).toList = x.toList ++ ' ' :: '=' :: ' ' :: value.toList := by simp
  rw [hchars, boundName?, firstWord_name hx.1 rfl, if_neg (hx.ne_word (by decide)), assignedValue?, dropWhile_name hx.1 rfl]
  rfl

theorem IsName.not_bindingWord (hx : IsName x) : x ∉ bindingWords := by
  intro hmem
  have hwords : ∀ word ∈ bindingWords, word ∈ reservedWords := by decide
  exact hx.2 (hwords x hmem)

theorem usedNames_name (hx : IsIdentifier x) (hword : x ∉ bindingWords) {c : Char} (hc : isIdentifierChar c = false)
    (rest : List Char) : usedNames (x.toList ++ c :: rest) =
      textNames ((assignedValue? (x.toList ++ c :: rest)).getD (x.toList ++ c :: rest)) := by
  unfold usedNames
  rw [dropSpaces_name hx]
  dsimp only
  rw [firstWord_name hx hc, if_neg hword]

theorem usedNames_assignment (hx : IsIdentifier x) (hword : x ∉ bindingWords) (value : String) :
    usedNames (x ++ " = " ++ value).toList = textNames value.toList := by
  have hchars : (x ++ " = " ++ value).toList = x.toList ++ ' ' :: '=' :: ' ' :: value.toList := by simp
  rw [hchars, usedNames_name hx hword rfl, assignedValue?, dropWhile_name hx rfl]
  rfl

theorem IsName.assignment_line (hx : IsName x) {value : String} (hv : OneLine value) :
    IsLine false (x ++ " = " ++ value) :=
  ((hx.starts " = " (by decide) (by decide)).append hv).line

/-- The line of an assignment. -/
theorem codeLines_assignment (hx : IsName x) {value : String} (hv : OneLine value)
    (hlast : value.toList.getLast?.any (!Text.isBlank ·) = true) :
    codeLines (x ++ " = " ++ value) = [(x ++ " = " ++ value).toList] := by
  refine (hx.assignment_line hv).codeLines_of_last ?_
  rw [String.toList_append, List.getLast?_append]
  cases hvalue : value.toList.getLast? with
  | none => simp [hvalue] at hlast
  | some c => simpa [hvalue] using hlast

end Lines

theorem head_of_firstWord {line : List Char} (h : firstWord line ≠ "") : line.head? ≠ some ' ' := by
  intro hhead
  obtain ⟨rest, rfl⟩ := List.head?_eq_some_iff.mp hhead
  exact h rfl

theorem usedNames_binding {line : List Char} (h : firstWord line ∈ bindingWords) : usedNames line = [] := by
  have hne : firstWord line ≠ "" := by
    intro hempty
    rw [hempty] at h
    revert h
    decide
  have htext : line.dropWhile (· = ' ') = line := by
    cases line with
    | nil => rfl
    | cons c cs =>
      apply List.dropWhile_cons_of_neg
      have hc := head_of_firstWord hne
      simpa using hc
  unfold usedNames
  rw [htext]
  exact if_pos h

theorem IsImport.usedNames {code : String} (h : IsImport code) : ∀ line ∈ codeLines code, usedNames line = [] := by
  intro line hline
  rw [h.line.codeLines] at hline
  obtain rfl := List.mem_singleton.mp hline
  obtain ⟨blanks, hblanks, hchars⟩ := Text.exists_dropBlanksEnd_append code.toList
  have hword : firstWord (Text.dropBlanksEnd code.toList) = firstWord code.toList := by
    rw [firstWord, ← Text.takeWhile_append_blanks _ hblanks, ← hchars]
    rfl
  apply usedNames_binding
  rw [hword]
  obtain ⟨rest, hrest⟩ | ⟨rest, hrest⟩ := h.2
  · rw [← hrest]
    exact List.mem_cons_self
  · rw [← hrest]
    exact List.mem_cons_of_mem _ List.mem_cons_self

/-- The text of a definition: its first line has the name, and all other lines are indented. -/
def Defines (x code : String) : Prop :=
  ∃ header suite, codeLines code = header :: suite ∧ firstWord header = "def" ∧ boundName? header = some x ∧
    ∀ line ∈ suite, line.head? = some ' '

theorem defines_of_suite {front x args suite : String} (hfront : Silent front) (hx : IsIdentifier x) (hargs : OneLine args)
    (hsuite : ∀ line ∈ codeLines suite, line.head? = some ' ') :
    Defines x (front ++ ("def " ++ x ++ "(" ++ args ++ "):" ++ "\n" ++ suite)) := by
  have hf := codeLine_passesBlanks
  have hdef : Starts true "def " := ⟨⟨by decide, by decide⟩, by decide⟩
  have hheader := ((((hdef.append hx.oneLine).append (by decide : OneLine "(")).append hargs).append
    (by decide : OneLine "):")).line
  have hchars : ("def " ++ x ++ "(" ++ args ++ "):").toList =
      'd' :: 'e' :: 'f' :: ' ' :: (x.toList ++ '(' :: (args.toList ++ [')', ':'])) := by simp
  have hlast : ("def " ++ x ++ "(" ++ args ++ "):").toList.getLast?.any (!Text.isBlank ·) = true := by
    rw [String.toList_append, List.getLast?_append]
    rfl
  have hlines : codeLines front = [] := by
    rw [List.eq_nil_iff_forall_not_mem]
    intro line hline
    obtain ⟨m, hm, -⟩ := mem_codeLines hline
    rw [hfront.outline] at hm
    cases hm
  have hword : firstWord ("def " ++ x ++ "(" ++ args ++ "):").toList = "def" := by
    rw [hchars]
    rfl
  refine ⟨("def " ++ x ++ "(" ++ args ++ "):").toList, codeLines suite, ?_, hword, ?_, hsuite⟩
  · rw [codeLines, Text.readLines_append hf hfront.whole, ← codeLines, hlines, List.nil_append,
      Text.readLines_append_line, ← codeLines, ← codeLines, hheader.codeLines_of_last hlast]
    rfl
  · rw [boundName?, if_pos hword, hchars]
    exact congrArg some (firstWord_name hx rfl _)

end BlockScript
