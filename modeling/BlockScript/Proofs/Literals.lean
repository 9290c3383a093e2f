import BlockScript.Proofs.Lexing

namespace BlockScript.Text

/-! Literals are read one character after the other, and what was written is read back. -/

/-- Control characters. -/
def controlRanges : Ranges := [(0x0, 0x1f), (0x7f, 0x9f)]

/-- The characters that end a line somewhere: some control characters, and the separators of lines and paragraphs. -/
def lineBreakRanges : Ranges := [(0xa, 0xd), (0x1c, 0x1e), (0x85, 0x85), (0x2028, 0x2029)]

/-- What is asked of the characters that stand for themselves in a literal. -/
def Presentable (printable : Char → Bool) : Prop :=
  ∀ c, controlRanges.has c = true ∨ lineBreakRanges.has c = true → printable c = false

/-- A character inside a literal, where `printable` says which characters stand for themselves. -/
def escapeCharBy (printable : Char → Bool) (delimiter c : Char) : List Char :=
  if c = '\\' ∨ c = delimiter then ['\\', c]
  else if c = '\n' then ['\\', 'n']
  else if c = '\r' then ['\\', 'r']
  else if c = '\t' then ['\\', 't']
  else if printable c then [c]
  else codeEscape c

/-- The literal of a text, where `printable` says which characters stand for themselves. -/
def quoteBy (printable : Char → Bool) (s : String) : String :=
  String.ofList (singleQuote :: (s.toList.flatMap (escapeCharBy printable singleQuote) ++ [singleQuote]))

theorem quote_eq_quoteBy : quote = quoteBy isPrintable := rfl

theorem toList_quoteBy (printable : Char → Bool) (s : String) :
    (quoteBy printable s).toList = singleQuote :: (s.toList.flatMap (escapeCharBy printable singleQuote) ++ [singleQuote]) :=
  String.toList_ofList

theorem Ranges.has_eq_false {rs : Ranges} {c : Char} {low high : Nat} (h : ∀ r ∈ rs, r.2 < low ∨ high < r.1)
    (hlow : low ≤ c.toNat) (hhigh : c.toNat ≤ high) : rs.has c = false := by
  rw [Bool.eq_false_iff]
  intro hc
  obtain ⟨r, hr, hfrom, hto⟩ := has_iff.mp hc
  obtain hbelow | habove := h r hr <;> omega

theorem isPrintable_presentable : Presentable isPrintable := by
  have hcontrol : ∀ r ∈ printableRanges, 0x1f < r.1 := by decide +kernel
  have hdelete : ∀ r ∈ printableRanges, r.2 < 0x7f ∨ 0x9f < r.1 := by decide +kernel
  have hseparator : ∀ r ∈ printableRanges, r.2 < 0x2028 ∨ 0x2029 < r.1 := by decide +kernel
  intro c hc
  have hcases : c.toNat ≤ 0x1f ∨ (0x7f ≤ c.toNat ∧ c.toNat ≤ 0x9f) ∨ (0x2028 ≤ c.toNat ∧ c.toNat ≤ 0x2029) := by
    simp only [Ranges.has_iff, controlRanges, lineBreakRanges, List.mem_cons, List.not_mem_nil, or_false,
      exists_eq_or_imp, exists_eq_left] at hc
    omega
  obtain hc | ⟨hlow, hhigh⟩ | ⟨hlow, hhigh⟩ := hcases
  · exact Ranges.has_eq_false (fun r hr => Or.inr (hcontrol r hr)) (Nat.zero_le _) hc
  · exact Ranges.has_eq_false hdelete hlow hhigh
  · exact Ranges.has_eq_false hseparator hlow hhigh

/-! ### Reading -/

def hexValue? (c : Char) : Option Nat :=
  if '0' ≤ c ∧ c ≤ '9' then some (c.toNat - 48)
  else if 'a' ≤ c ∧ c ≤ 'f' then some (c.toNat - 87)
  else if 'A' ≤ c ∧ c ≤ 'F' then some (c.toNat - 55)
  else none

/-- What a reader of literals has in front of it. -/
inductive LiteralPart where
  /-- A character that stands for itself, an escape or the end. -/
  | plain
  /-- What follows a backslash. -/
  | escape
  /-- Digits of the number of a character: how many, and the number so far. -/
  | code (left value : Nat)

/-- The character that a letter stands for behind a backslash. -/
def shortEscapes : List (Char × Char) :=
  [('\\', '\\'), (singleQuote, singleQuote), ('n', '\n'), ('r', '\r'), ('t', '\t')]

/-- How many digits follow a letter behind a backslash. -/
def codeWidths : List (Char × Nat) :=
  [('x', 2), ('u', 4), ('U', 8)]

/-- Reads what a literal says up to the quote that ends it, and gives what follows it. -/
def readPart? : LiteralPart → List Char → Option (List Char × List Char)
  | _, [] => none
  | .plain, c :: cs =>
    if c = singleQuote then some ([], cs)
    else if c = '\\' then readPart? .escape cs
    else if c = '\n' ∨ c = '\r' then none
    else (readPart? .plain cs).map fun (said, rest) => (c :: said, rest)
  | .escape, c :: cs =>
    match shortEscapes.lookup c, codeWidths.lookup c with
    | some d, _ => (readPart? .plain cs).map fun (said, rest) => (d :: said, rest)
    | none, some width => readPart? (.code width 0) cs
    | none, none => none
  | .code left value, c :: cs =>
    match hexValue? c with
    | none => none
    | some digit =>
      let value := 16 * value + digit
      if 1 < left then readPart? (.code (left - 1) value) cs
      else if value.isValidChar then
        (readPart? .plain cs).map fun (said, rest) => (Char.ofNat value :: said, rest)
      else none

/-- Reads the literal that a text begins with: what it says, and the rest of the text. -/
def readLiteral? : List Char → Option (List Char × List Char)
  | [] => none
  | c :: cs => if c = singleQuote then readPart? .plain cs else none

theorem readPart_end (cs : List Char) : readPart? .plain (singleQuote :: cs) = some ([], cs) := rfl

theorem readPart_backslash (cs : List Char) : readPart? .plain ('\\' :: cs) = readPart? .escape cs := rfl

theorem hexValue_hexDigit (n : Nat) : hexValue? (hexDigit (n % 16)) = some (n % 16) := by
  have hlt : n % 16 < 16 := Nat.mod_lt n (by decide)
  generalize n % 16 = k at hlt
  revert k
  decide

/-- All digits but the last ones shift the number. -/
theorem readPart_hexDigits (width left value n : Nat) (cs : List Char) :
    readPart? (.code (width + left + 1) value) (hexDigits width n ++ cs) =
      readPart? (.code (left + 1) (value * 16 ^ width + n % 16 ^ width)) cs := by
  induction width generalizing left n cs with
  | zero => simp [hexDigits, Nat.mod_one]
  | succ width ih =>
    have hvalue : 16 * (value * 16 ^ width + n / 16 % 16 ^ width) + n % 16 =
        value * 16 ^ (width + 1) + n % 16 ^ (width + 1) := by
      rw [Nat.pow_succ', Nat.mod_mul]
      ring
    rw [hexDigits, List.append_assoc, List.singleton_append, show width + 1 + left + 1 = width + (left + 1) + 1 by omega,
      ih, readPart?, hexValue_hexDigit]
    simp only [hvalue, show 1 < left + 1 + 1 by omega, if_true, show left + 1 + 1 - 1 = left + 1 by omega]

/-- The number of a character is read back. -/
theorem readPart_code {width : Nat} {c : Char} (h : c.toNat < 16 ^ (width + 1)) (cs : List Char) :
    readPart? (.code (width + 1) 0) (hexDigits (width + 1) c.toNat ++ cs) =
      (readPart? .plain cs).map fun (said, rest) => (c :: said, rest) := by
  have hvalue : 16 * (c.toNat / 16 % 16 ^ width) + c.toNat % 16 = c.toNat := by
    have hlt : c.toNat / 16 < 16 ^ width := by
      rw [Nat.div_lt_iff_lt_mul (by decide), ← Nat.pow_succ]
      exact h
    rw [Nat.mod_eq_of_lt hlt]
    omega
  have hstep := readPart_hexDigits width 0 0 (c.toNat / 16) (hexDigit (c.toNat % 16) :: cs)
  rw [hexDigits, List.append_assoc, List.singleton_append, hstep, readPart?, hexValue_hexDigit]
  have hvalid : c.toNat.isValidChar := c.valid
  simp only [Nat.zero_mul, Nat.zero_add, hvalue, Nat.lt_irrefl, if_false, if_pos hvalid, Char.ofNat_toNat]

theorem readPart_codeEscape (c : Char) (cs : List Char) :
    readPart? .plain (codeEscape c ++ cs) = (readPart? .plain cs).map fun (said, rest) => (c :: said, rest) := by
  have hopen : ∀ {d : Char} {width : Nat}, shortEscapes.lookup d = none → codeWidths.lookup d = some (width + 1) →
      c.toNat < 16 ^ (width + 1) → readPart? .plain ('\\' :: d :: hexDigits (width + 1) c.toNat ++ cs) =
        (readPart? .plain cs).map fun (said, rest) => (c :: said, rest) := by
    intro d width hshort hwidth hlt
    rw [← readPart_code hlt, List.cons_append, List.cons_append, readPart_backslash, readPart?, hshort, hwidth]
  unfold codeEscape
  split
  · exact hopen (by decide) (by decide) (by omega)
  · split
    · exact hopen (by decide) (by decide) (by omega)
    · have hvalid : c.toNat.isValidChar := c.valid
      exact hopen (by decide) (by decide) (by simp only [Nat.isValidChar] at hvalid; omega)

variable {printable : Char → Bool}

/-- What a character of the text is written as, in the order in which it is decided. -/
theorem escapeCharBy_cases (printable : Char → Bool) (c : Char) :
    (∃ d, (d, c) ∈ shortEscapes ∧ escapeCharBy printable singleQuote c = ['\\', d]) ∨
    c ∉ shortEscapes.map (·.2) ∧ (printable c = true ∧ escapeCharBy printable singleQuote c = [c] ∨
      printable c = false ∧ escapeCharBy printable singleQuote c = codeEscape c) := by
  by_cases hslash : c = '\\'
  · exact Or.inl ⟨'\\', by simp [shortEscapes, hslash], by simp [escapeCharBy, hslash]⟩
  by_cases hquote : c = singleQuote
  · exact Or.inl ⟨singleQuote, by simp [shortEscapes, hquote], by simp [escapeCharBy, hquote]⟩
  by_cases hn : c = '\n'
  · exact Or.inl ⟨'n', by simp [shortEscapes, hn], by subst hn; rfl⟩
  by_cases hr : c = '\r'
  · exact Or.inl ⟨'r', by simp [shortEscapes, hr], by subst hr; rfl⟩
  by_cases ht : c = '\t'
  · exact Or.inl ⟨'t', by simp [shortEscapes, ht], by subst ht; rfl⟩
  refine Or.inr ⟨by simp [shortEscapes, hslash, hquote, hn, hr, ht], ?_⟩
  cases hprintable : printable c with
  | true => exact Or.inl ⟨rfl, by simp [escapeCharBy, hslash, hquote, hn, hr, ht, hprintable]⟩
  | false => exact Or.inr ⟨rfl, by simp [escapeCharBy, hslash, hquote, hn, hr, ht, hprintable]⟩

theorem readPart_escapeCharBy (c : Char) (cs : List Char) :
    readPart? .plain (escapeCharBy printable singleQuote c ++ cs) =
      (readPart? .plain cs).map fun (said, rest) => (c :: said, rest) := by
  obtain ⟨d, hd, he⟩ | ⟨hc, ⟨-, he⟩ | ⟨-, he⟩⟩ := escapeCharBy_cases printable c
  · have hlookup : ∀ p ∈ shortEscapes, shortEscapes.lookup p.1 = some p.2 := by decide
    rw [he, List.cons_append, List.singleton_append, readPart_backslash, readPart?, hlookup _ hd]
  · simp only [shortEscapes, List.map_cons, List.map_nil, List.mem_cons, List.not_mem_nil, or_false, not_or] at hc
    rw [he, List.singleton_append, readPart?, if_neg hc.2.1, if_neg hc.1, if_neg (not_or.mpr ⟨hc.2.2.1, hc.2.2.2.1⟩)]
  · rw [he, readPart_codeEscape]

/-- A literal is read back, whatever follows it. -/
theorem readLiteral_quoteBy (printable : Char → Bool) (s : String) (rest : List Char) :
    readLiteral? ((quoteBy printable s).toList ++ rest) = some (s.toList, rest) := by
  rw [toList_quoteBy, List.cons_append, readLiteral?, if_pos rfl, List.append_assoc]
  induction s.toList with
  | nil => exact readPart_end rest
  | cons c cs ih => rw [List.flatMap_cons, List.append_assoc, readPart_escapeCharBy, ih, Option.map_some]

theorem quoteBy_injective (printable : Char → Bool) : Function.Injective (quoteBy printable) := by
  intro s t h
  have hs := readLiteral_quoteBy printable s []
  rw [h, readLiteral_quoteBy] at hs
  exact String.toList_inj.mp (Prod.mk.inj (Option.some.inj hs)).1.symm

/-! ### The characters of a literal -/

theorem hexDigit_not_lineBreak (n : Nat) : lineBreakRanges.has (hexDigit (n % 16)) = false := by
  have hlt : n % 16 < 16 := Nat.mod_lt n (by decide)
  generalize n % 16 = k at hlt
  revert k
  decide

theorem hexDigits_not_lineBreak (width n : Nat) : ∀ c ∈ hexDigits width n, lineBreakRanges.has c = false := by
  induction width generalizing n with
  | zero => simp [hexDigits]
  | succ width ih =>
    intro c hc
    simp only [hexDigits, List.mem_append, List.mem_singleton] at hc
    obtain hc | rfl := hc
    · exact ih _ c hc
    · exact hexDigit_not_lineBreak n

theorem codeEscape_eq (c : Char) : ∃ d width, (d, width) ∈ codeWidths ∧
    codeEscape c = '\\' :: d :: hexDigits width c.toNat := by
  unfold codeEscape
  split
  · exact ⟨'x', 2, by simp [codeWidths], rfl⟩
  · split
    · exact ⟨'u', 4, by simp [codeWidths], rfl⟩
    · exact ⟨'U', 8, by simp [codeWidths], rfl⟩

theorem escapeCharBy_not_lineBreak (h : Presentable printable) (c : Char) :
    ∀ d ∈ escapeCharBy printable singleQuote c, lineBreakRanges.has d = false := by
  obtain ⟨d, hd, he⟩ | ⟨-, ⟨hc, he⟩ | ⟨-, he⟩⟩ := escapeCharBy_cases printable c
  · have hshort : ∀ p ∈ shortEscapes, lineBreakRanges.has p.1 = false := by decide
    rw [he]
    simpa using ⟨rfl, hshort _ hd⟩
  · rw [he, List.forall_mem_singleton, Bool.eq_false_iff]
    intro hbreak
    rw [h c (Or.inr hbreak)] at hc
    cases hc
  · obtain ⟨d, width, hd, hcode⟩ := codeEscape_eq c
    have hletter : ∀ p ∈ codeWidths, lineBreakRanges.has p.1 = false := by decide
    rw [he, hcode]
    intro e he
    simp only [List.mem_cons] at he
    obtain rfl | rfl | he := he
    · rfl
    · exact hletter _ hd
    · exact hexDigits_not_lineBreak _ _ e he

theorem quoteBy_not_lineBreak (h : Presentable printable) (s : String) :
    ∀ c ∈ (quoteBy printable s).toList, lineBreakRanges.has c = false := by
  rw [toList_quoteBy]
  intro c hc
  simp only [List.mem_cons, List.mem_append, List.mem_flatMap, List.not_mem_nil, or_false] at hc
  obtain rfl | ⟨d, -, hd⟩ | rfl := hc
  · rfl
  · exact escapeCharBy_not_lineBreak h d c hd
  · rfl

/-- The text ends in a backslash that is not escaped itself, so the next character is escaped. -/
def endsOpen (cs : List Char) : Bool :=
  cs.foldl (fun escaped c => c == '\\' && !escaped) false

theorem endsOpen_append {cs : List Char} (h : endsOpen cs = false) (ds : List Char) : endsOpen (cs ++ ds) = endsOpen ds := by
  unfold endsOpen at h ⊢
  rw [List.foldl_append, h]

theorem endsOpen_plain {cs : List Char} (h : ∀ c ∈ cs, c ≠ '\\') : endsOpen cs = false := by
  induction cs with
  | nil => rfl
  | cons c cs ih =>
    have hc : endsOpen [c] = false := by simpa [endsOpen] using h c (by simp)
    exact (endsOpen_append hc cs).trans (ih fun d hd => h d (List.mem_cons_of_mem _ hd))

/-- An escape is complete, and a quote in it stands behind a backslash. -/
theorem escapeCharBy_closed (printable : Char → Bool) (c : Char) : endsOpen (escapeCharBy printable singleQuote c) = false ∧
    ∀ before after, escapeCharBy printable singleQuote c = before ++ singleQuote :: after → endsOpen before = true := by
  obtain ⟨d, hd, he⟩ | ⟨hc, ⟨-, he⟩ | ⟨-, he⟩⟩ := escapeCharBy_cases printable c
  · rw [he]
    refine ⟨by simp [endsOpen], ?_⟩
    rintro (_ | ⟨b, before⟩) after hsplit
    · cases hsplit
    · obtain ⟨rfl, hsplit⟩ := List.cons.inj hsplit
      obtain rfl : before = [] := by
        cases before with
        | nil => rfl
        | cons b before => simpa using congrArg List.length hsplit
      rfl
  · rw [he]
    simp only [shortEscapes, List.map_cons, List.map_nil, List.mem_cons, List.not_mem_nil, or_false, not_or] at hc
    refine ⟨endsOpen_plain (by simpa using hc.1), fun before after hsplit => ?_⟩
    have hmem : singleQuote ∈ [c] := hsplit ▸ by simp
    exact absurd (List.mem_singleton.mp hmem).symm hc.2.1
  · obtain ⟨d, width, hd, hcode⟩ := codeEscape_eq c
    have hletter : ∀ p ∈ codeWidths, endsOpen ['\\', p.1] = false ∧ singleQuote ∉ ['\\', p.1] := by decide
    have hplain := Pending.hexDigits_plain width c.toNat
    rw [he, hcode]
    refine ⟨?_, fun before after hsplit => ?_⟩
    · exact (endsOpen_append (hletter _ hd).1 _).trans (endsOpen_plain fun e he => (hplain e he).2.1)
    · have hmem : singleQuote ∈ ['\\', d] ++ hexDigits width c.toNat := by
        rw [List.cons_append, List.singleton_append, hsplit]
        simp
      obtain hmem | hmem := List.mem_append.mp hmem
      · exact absurd hmem (hletter _ hd).2
      · exact absurd rfl (hplain _ hmem).2.2

/-- The only quote that is not escaped is the last one. -/
theorem quoteBy_quote_escaped (printable : Char → Bool) (s : String) (before after : List Char)
    (h : (quoteBy printable s).toList = singleQuote :: (before ++ singleQuote :: after)) (hafter : after ≠ []) :
    endsOpen before = true := by
  rw [toList_quoteBy] at h
  replace h := (List.cons.inj h).2
  generalize s.toList = cs at h
  induction cs generalizing before with
  | nil =>
    have hlength := congrArg List.length h
    have hpos := List.length_pos_of_ne_nil hafter
    simp only [List.flatMap_nil, List.nil_append, List.length_append, List.length_cons, List.length_nil] at hlength
    omega
  | cons c cs ih =>
    rw [List.flatMap_cons, List.append_assoc] at h
    obtain ⟨hclosed, hquoted⟩ := escapeCharBy_closed printable c
    -- The quote stands behind the escape of the first character, or in it.
    obtain ⟨between, rfl, hrest⟩ | ⟨between, hfirst, hrest⟩ := List.append_eq_append_iff.mp h
    · rw [endsOpen_append hclosed]
      exact ih between hrest
    · cases between with
      | nil =>
        have hopen := ih [] (by simpa using hrest.symm)
        cases hopen
      | cons b between =>
        obtain ⟨rfl, -⟩ := List.cons.inj hrest
        exact hquoted before between hfirst

/-! ### The literals of programs -/

/-- How texts are to be written as literals. -/
structure Literals (write : String → String) : Prop where
  /-- The text is read back, and the literal ends with its last character whatever follows it. -/
  readBack : ∀ s rest, readLiteral? ((write s).toList ++ rest) = some (s.toList, rest)
  oneLine : ∀ s, ∀ c ∈ (write s).toList, lineBreakRanges.has c = false
  /-- Between the first and the last character, quotes are escaped. -/
  escaped : ∀ s before after, (write s).toList = singleQuote :: (before ++ singleQuote :: after) → after ≠ [] →
    endsOpen before = true
  injective : Function.Injective write

/-- Texts are written as literals that say them, whichever characters stand for themselves, as long as they are neither
control characters nor separators of lines. -/
theorem quote_literals : Literals quote ∧ ∀ printable, Presentable printable → Literals (quoteBy printable) := by
  have hby : ∀ printable, Presentable printable → Literals (quoteBy printable) := fun printable h =>
    ⟨readLiteral_quoteBy printable, quoteBy_not_lineBreak h, quoteBy_quote_escaped printable, quoteBy_injective printable⟩
  exact ⟨quote_eq_quoteBy ▸ hby isPrintable isPrintable_presentable, hby⟩

example : readLiteral? "'\\x7f\\\\x41\\u2028b'+'".toList = some (['\x7f', '\\', 'x', '4', '1', '\u2028', 'b'], "+'".toList) := by
  decide

end BlockScript.Text
