import Mathlib
import BlockScript.Proofs.Grammar
import BlockScript.Proofs.Identifiers
import BlockScript.Text.Literal

namespace BlockScript

/-- How far a numeral has been read. -/
inductive NumeralPart where
  | whole
  | fraction
  /-- Behind the letter of the exponent. -/
  | letter
  /-- Behind the sign of the exponent. -/
  | sign
  | exponent
deriving DecidableEq

def NumeralPart.next : NumeralPart → Char → Option NumeralPart
  | whole, c => if c.isDigit then some whole else if c = '.' then some fraction
      else if c = 'e' ∨ c = 'E' then some letter else none
  | fraction, c => if c.isDigit then some fraction else if c = 'e' ∨ c = 'E' then some letter else none
  | letter, c => if c.isDigit then some exponent else if c = '+' ∨ c = '-' then some sign else none
  | sign, c | exponent, c => if c.isDigit then some exponent else none

/-- Whether a numeral may end here. A whole number has no zeros in front. -/
def NumeralPart.ends : NumeralPart → List Char → Bool
  | whole, cs => cs.head? != some '0' || cs.all (· == '0')
  | fraction, _ | exponent, _ => true
  | letter, _ | sign, _ => false

/-- What has been read of the token that a row of characters begins with. -/
inductive Pending where
  | idle
  | word (read : List Char)
  | numeral (part : NumeralPart) (read : List Char)
  | symbol (c : Char)
  | quoted (delimiter : Char) (escaped : Bool) (read : List Char)
  | shut (read : List Char)

def symbolPairs : List (Char × Char) :=
  [('*', '*'), ('/', '/'), ('<', '<'), ('>', '>'), ('<', '='), ('>', '='), ('=', '='), ('!', '=')]

def isQuoteChar (c : Char) : Bool :=
  c == Text.singleQuote || c == Text.doubleQuote

namespace Pending

def ofChar (c : Char) : Option Pending :=
  if c = ' ' then some idle
  else if c.isAlpha || c == '_' then some (word [c])
  else if c.isDigit then some (numeral .whole [c])
  else if isQuoteChar c then some (quoted c false [c])
  else if c ∈ "(),.+-*/%<>&^|~=!".toList then some (symbol c)
  else none

def flush : Pending → Option (List Token)
  | idle => some []
  | word cs => some [.word (String.ofList cs)]
  | numeral part cs => if part.ends cs then some [.numeral (String.ofList cs)] else none
  | symbol c => some [.symbol (String.ofList [c])]
  | quoted _ _ _ => none
  | shut cs => some [.text (String.ofList cs)]

/-- Tokens that may not stand side by side. -/
def touches : Pending → Char → Bool
  | word _, c => isQuoteChar c
  | numeral _ _, c => isIdentifierChar c
  | shut _, c => isQuoteChar c || isIdentifierChar c
  | _, _ => false

def leave (p : Pending) (c : Char) : Option (List Token × Pending) :=
  if p.touches c then none
  else do
    let ts ← p.flush
    let q ← ofChar c
    return (ts, q)

def next : Pending → Char → Option (List Token × Pending)
  | word cs, c => if isIdentifierChar c then some ([], word (cs ++ [c])) else (word cs).leave c
  | numeral part cs, c => match part.next c with
    | some part' => some ([], numeral part' (cs ++ [c]))
    | none => (numeral part cs).leave c
  | symbol a, c =>
    if (a, c) ∈ symbolPairs then some ([.symbol (String.ofList [a, c])], idle) else (symbol a).leave c
  | quoted d true cs, c => if c = '\n' then none else some ([], quoted d false (cs ++ [c]))
  | quoted d false cs, c =>
    if c = '\n' then none
    else if c = '\\' then some ([], quoted d true (cs ++ [c]))
    else if c = d then some ([], shut (cs ++ [c]))
    else some ([], quoted d false (cs ++ [c]))
  | idle, c => idle.leave c
  | shut cs, c => (shut cs).leave c

def lex : Pending → List Char → Option (List Token)
  | p, [] => p.flush
  | p, c :: cs => do
    let (ts, q) ← p.next c
    let us ← q.lex cs
    return ts ++ us

end Pending

/-- The tokens of an expression of the emitted language on one line, from the first character on. -/
def tokens? (code : String) : Option (List Token) :=
  match code.toList with
  | [] => none
  | c :: cs => if c = ' ' then none else Pending.idle.lex (c :: cs)

namespace Pending

/-- The characters that end every token in front of them. -/
def closers : List Char := [' ', '(', ')', ',']

def behind (c : Char) : Pending :=
  if c = ' ' then idle else symbol c

theorem leave_closer {p : Pending} {ts : List Token} {c : Char} (hp : p.flush = some ts) (hc : c ∈ closers) :
    p.leave c = some (ts, behind c) := by
  have htouch : p.touches c = false := by
    simp only [closers, List.mem_cons, List.not_mem_nil, or_false] at hc
    cases p <;> obtain rfl | rfl | rfl | rfl := hc <;> rfl
  have hof : ofChar c = some (behind c) := by
    simp only [closers, List.mem_cons, List.not_mem_nil, or_false] at hc
    obtain rfl | rfl | rfl | rfl := hc <;> rfl
  simp [leave, htouch, hp, hof]

theorem next_closer {p : Pending} {ts : List Token} {c : Char} (hp : p.flush = some ts) (hc : c ∈ closers) :
    p.next c = some (ts, behind c) := by
  have hleave := leave_closer hp hc
  cases p with
  | idle | shut => exact hleave
  | word cs =>
    have hchar : isIdentifierChar c = false := by
      simp only [closers, List.mem_cons, List.not_mem_nil, or_false] at hc
      obtain rfl | rfl | rfl | rfl := hc <;> rfl
    simp [next, hchar, hleave]
  | numeral part cs =>
    have hnext : part.next c = none := by
      simp only [closers, List.mem_cons, List.not_mem_nil, or_false] at hc
      cases part <;> obtain rfl | rfl | rfl | rfl := hc <;> rfl
    simp [next, hnext, hleave]
  | symbol a =>
    have hpair : (a, c) ∉ symbolPairs := by
      simp only [closers, List.mem_cons, List.not_mem_nil, or_false] at hc
      obtain rfl | rfl | rfl | rfl := hc <;> simp [symbolPairs]
    simp [next, hpair, hleave]
  | quoted d b cs => cases hp

/-- Behind a closer the next token starts anew. -/
theorem lex_append_closer {p : Pending} {cs ds : List Char} {ts us : List Token} {c : Char}
    (hcs : p.lex cs = some ts) (hc : c ∈ closers) (hds : (behind c).lex ds = some us) :
    p.lex (cs ++ c :: ds) = some (ts ++ us) := by
  induction cs generalizing p ts with
  | nil =>
    have hflush : p.flush = some ts := hcs
    simp [lex, next_closer hflush hc, hds]
  | cons d cs ih =>
    simp only [lex, bind, Option.bind_eq_some_iff, pure] at hcs
    obtain ⟨⟨out, q⟩, hnext, rest, hrest, hts⟩ := hcs
    cases hts
    simp [lex, hnext, ih hrest]

theorem lex_symbol {c : Char} (hc : ∀ d, (c, d) ∉ symbolPairs) {cs : List Char} {ts : List Token}
    (h : idle.lex cs = some ts) : (symbol c).lex cs = some (.symbol (String.ofList [c]) :: ts) := by
  cases cs with
  | nil =>
    cases h
    rfl
  | cons d cs =>
    simp only [lex, bind, Option.bind_eq_some_iff, pure] at h ⊢
    obtain ⟨⟨out, q⟩, hnext, rest, hrest, hts⟩ := h
    simp only [next, leave, touches, flush, Bool.false_eq_true, if_false, bind, Option.bind_eq_some_iff, pure] at hnext
    obtain ⟨_, hidle, q', hq, hpair⟩ := hnext
    cases hidle
    cases hpair
    refine ⟨([.symbol (String.ofList [c])], q), ?_, rest, hrest, ?_⟩
    · simp [next, hc d, leave, touches, flush, hq]
    · cases hts
      rfl

theorem lex_cons {p q : Pending} {c : Char} (h : p.next c = some ([], q)) (cs : List Char) :
    p.lex (c :: cs) = q.lex cs := by
  simp [lex, h]

theorem lex_word_append (read : List Char) {cs : List Char} (h : ∀ c ∈ cs, isIdentifierChar c = true)
    (ds : List Char) : (word read).lex (cs ++ ds) = (word (read ++ cs)).lex ds := by
  induction cs generalizing read with
  | nil => simp
  | cons c cs ih =>
    have hnext : (word read).next c = some ([], word (read ++ [c])) := by
      simp [next, h c (by simp)]
    rw [List.cons_append, lex_cons hnext, ih _ fun d hd => h d (List.mem_cons_of_mem _ hd)]
    simp

theorem lex_digits_append {part : NumeralPart} (hpart : ∀ c, c.isDigit = true → part.next c = some part)
    (read : List Char) {cs : List Char} (h : ∀ c ∈ cs, c.isDigit = true) (ds : List Char) :
    (numeral part read).lex (cs ++ ds) = (numeral part (read ++ cs)).lex ds := by
  induction cs generalizing read with
  | nil => simp
  | cons c cs ih =>
    have hnext : (numeral part read).next c = some ([], numeral part (read ++ [c])) := by
      simp [next, hpart c (h c (by simp))]
    rw [List.cons_append, lex_cons hnext, ih _ fun d hd => h d (List.mem_cons_of_mem _ hd)]
    simp

theorem idle_next {c : Char} {q : Pending} (h : ofChar c = some q) : idle.next c = some ([], q) := by
  simp [next, leave, touches, flush, h]

theorem lex_plain_append {d : Char} (read : List Char) {cs : List Char}
    (h : ∀ c ∈ cs, c ≠ '\n' ∧ c ≠ '\\' ∧ c ≠ d) (ds : List Char) :
    (quoted d false read).lex (cs ++ ds) = (quoted d false (read ++ cs)).lex ds := by
  induction cs generalizing read with
  | nil => simp
  | cons c cs ih =>
    obtain ⟨hn, hb, hd⟩ := h c (by simp)
    have hnext : (quoted d false read).next c = some ([], quoted d false (read ++ [c])) := by
      simp [next, hn, hb, hd]
    rw [List.cons_append, lex_cons hnext, ih _ fun e he => h e (List.mem_cons_of_mem _ he)]
    simp

theorem lex_escaped (d : Char) (read : List Char) {c : Char} (hc : c ≠ '\n') (ds : List Char) :
    (quoted d false read).lex ('\\' :: c :: ds) = (quoted d false (read ++ ['\\', c])).lex ds := by
  have hslash : (quoted d false read).next '\\' = some ([], quoted d true (read ++ ['\\'])) := rfl
  have hchar : (quoted d true (read ++ ['\\'])).next c = some ([], quoted d false (read ++ ['\\'] ++ [c])) :=
    if_neg hc
  rw [lex_cons hslash, lex_cons hchar]
  simp

theorem hexDigit_plain (n : Nat) : Text.hexDigit (n % 16) ≠ '\n' ∧ Text.hexDigit (n % 16) ≠ '\\' ∧
    Text.hexDigit (n % 16) ≠ Text.singleQuote := by
  have hlt : n % 16 < 16 := Nat.mod_lt n (by decide)
  generalize n % 16 = k at hlt
  revert k
  decide

theorem hexDigits_plain (width n : Nat) :
    ∀ c ∈ Text.hexDigits width n, c ≠ '\n' ∧ c ≠ '\\' ∧ c ≠ Text.singleQuote := by
  induction width generalizing n with
  | zero => simp [Text.hexDigits]
  | succ width ih =>
    intro c hc
    simp only [Text.hexDigits, List.mem_append, List.mem_singleton] at hc
    obtain hc | rfl := hc
    · exact ih _ c hc
    · exact hexDigit_plain n

/-- Inside a literal, an escaped character never ends it. -/
theorem lex_escapeChar (read : List Char) (c : Char) (ds : List Char) :
    (quoted Text.singleQuote false read).lex (Text.escapeChar Text.singleQuote c ++ ds) =
      (quoted Text.singleQuote false (read ++ Text.escapeChar Text.singleQuote c)).lex ds := by
  unfold Text.escapeChar
  split
  · rename_i hc
    refine lex_escaped _ _ ?_ _
    rintro rfl
    revert hc
    decide
  · rename_i hc
    obtain ⟨hslash, hquote⟩ := not_or.mp hc
    split
    · exact lex_escaped _ _ (by decide) _
    · rename_i hn
      split
      · exact lex_escaped _ _ (by decide) _
      · split
        · exact lex_escaped _ _ (by decide) _
        · split
          · exact lex_plain_append _ (by simpa using ⟨hn, hslash, hquote⟩) ds
          · have hcode : ∀ (d : Char) (width : Nat), d ≠ '\n' →
                (quoted Text.singleQuote false read).lex ('\\' :: d :: Text.hexDigits width c.toNat ++ ds) =
                  (quoted Text.singleQuote false (read ++ '\\' :: d :: Text.hexDigits width c.toNat)).lex ds := by
              intro d width hd
              rw [List.cons_append, List.cons_append, lex_escaped _ _ hd,
                lex_plain_append _ (hexDigits_plain width c.toNat)]
              simp
            unfold Text.codeEscape
            split
            · exact hcode _ _ (by decide)
            · split <;> exact hcode _ _ (by decide)

theorem lex_escape (read cs ds : List Char) :
    (quoted Text.singleQuote false read).lex (Text.escape Text.singleQuote cs ++ ds) =
      (quoted Text.singleQuote false (read ++ Text.escape Text.singleQuote cs)).lex ds := by
  induction cs generalizing read with
  | nil => simp [Text.escape]
  | cons c cs ih =>
    have hsplit : Text.escape Text.singleQuote (c :: cs) =
        Text.escapeChar Text.singleQuote c ++ Text.escape Text.singleQuote cs := rfl
    rw [hsplit, List.append_assoc, lex_escapeChar, ih]
    simp

theorem ofChar_letter {c : Char} (h : c.isAlpha = true ∨ c = '_') : ofChar c = some (word [c]) := by
  have hc : c ≠ ' ' := by
    rintro rfl
    revert h
    decide
  have hl : (c.isAlpha || c == '_') = true := by simpa using h
  simp [ofChar, hc, hl]

theorem ofChar_digit {c : Char} (h : c.isDigit = true) : ofChar c = some (numeral .whole [c]) := by
  have hc : c ≠ ' ' := by
    rintro rfl
    revert h
    decide
  have hl : (c.isAlpha || c == '_') = false := by
    have hu : c ≠ '_' := by
      rintro rfl
      revert h
      decide
    have hnine : c.val.toNat ≤ 57 := by
      simp only [Char.isDigit, Bool.and_eq_true, decide_eq_true_eq] at h
      exact h.2
    have hupper : c.isUpper = false := by
      rw [Bool.eq_false_iff]
      intro hu
      simp only [Char.isUpper, decide_eq_true_eq] at hu
      have hlow : 65 ≤ c.val.toNat := hu.1
      omega
    have hlower : c.isLower = false := by
      rw [Bool.eq_false_iff]
      intro hu
      simp only [Char.isLower, Bool.and_eq_true, decide_eq_true_eq] at hu
      have hlow : 97 ≤ c.val.toNat := hu.1
      omega
    simp [hu, Char.isAlpha, hupper, hlower]
  simp [ofChar, hc, hl, h]

end Pending

theorem of_tokens {code : String} {ts : List Token} (h : tokens? code = some ts) :
    (∃ c cs, code.toList = c :: cs ∧ c ≠ ' ') ∧ Pending.idle.lex code.toList = some ts := by
  unfold tokens? at h
  split at h
  · cases h
  · rename_i c cs hcs
    split at h
    · cases h
    · rename_i hc
      exact ⟨⟨c, cs, hcs, hc⟩, hcs ▸ h⟩

theorem tokens_of_lex {code : String} {ts : List Token} {c : Char} {cs : List Char} (hcs : code.toList = c :: cs)
    (hc : c ≠ ' ') (h : Pending.idle.lex code.toList = some ts) : tokens? code = some ts := by
  rw [hcs] at h
  rw [tokens?, hcs]
  exact (if_neg hc).trans h

/-- What begins like an expression begins with its first character. -/
theorem tokens_append {a b : String} {ts us : List Token} (ha : tokens? a = some ts)
    (h : Pending.idle.lex (a.toList ++ b.toList) = some us) : tokens? (a ++ b) = some us := by
  obtain ⟨⟨c, cs, hcs, hc⟩, -⟩ := of_tokens ha
  have hstart : (a ++ b).toList = c :: (cs ++ b.toList) := by
    rw [String.toList_append, hcs, List.cons_append]
  refine tokens_of_lex hstart hc ?_
  rwa [String.toList_append]

theorem ne_space_of_letter {c : Char} (h : c.isAlpha = true ∨ c = '_') : c ≠ ' ' := by
  rintro rfl
  revert h
  decide

theorem tokens_word {s : String} (h : IsIdentifier s) : tokens? s = some [.word s] := by
  obtain ⟨c, cs, hs, hc, hcs⟩ := h
  have hread := Pending.lex_word_append [c] hcs []
  refine tokens_of_lex hs (ne_space_of_letter hc) ?_
  rw [hs, Pending.lex_cons (Pending.idle_next (Pending.ofChar_letter hc)), ← List.append_nil cs, hread]
  simp [Pending.lex, Pending.flush, ← hs]

theorem tokens_member {s t : String} (hs : IsIdentifier s) (ht : IsIdentifier t) :
    tokens? (s ++ "." ++ t) = some [.word s, .symbol ".", .word t] := by
  obtain ⟨c, cs, hsl, hc, hcs⟩ := hs
  have hread := Pending.lex_word_append [c] hcs ('.' :: t.toList)
  have hsymbol := Pending.lex_symbol (c := '.') (by simp [symbolPairs]) (of_tokens (tokens_word ht)).2
  have hchars : (s ++ "." ++ t).toList = c :: (cs ++ '.' :: t.toList) := by
    simp [hsl]
  have hname : String.ofList (c :: cs) = s := by rw [← hsl, String.ofList_toList]
  have hnext : (Pending.word ([c] ++ cs)).next '.' = some ([.word s], .symbol '.') := by
    rw [← hname]
    rfl
  refine tokens_of_lex hchars (ne_space_of_letter hc) ?_
  rw [hchars, Pending.lex_cons (Pending.idle_next (Pending.ofChar_letter hc)), hread]
  simp only [Pending.lex, hnext, hsymbol, bind, Option.bind]
  rfl

theorem tokens_space {a b : String} {ts us : List Token} (ha : tokens? a = some ts) (hb : tokens? b = some us) :
    tokens? (a ++ " " ++ b) = some (ts ++ us) := by
  have hread := Pending.lex_append_closer (c := ' ') (of_tokens ha).2 (by decide) (of_tokens hb).2
  rw [String.append_assoc]
  exact tokens_append ha (by simpa using hread)

theorem tokens_group {a : String} {ts : List Token} (ha : tokens? a = some ts) :
    tokens? ("(" ++ a ++ ")") = some (.symbol "(" :: (ts ++ [.symbol ")"])) := by
  have hclose : Pending.idle.lex (a.toList ++ [')']) = some (ts ++ [.symbol ")"]) :=
    Pending.lex_append_closer (of_tokens ha).2 (by decide) rfl
  have hopen := Pending.lex_symbol (c := '(') (by simp [symbolPairs]) hclose
  have hstart := Pending.lex_cons (Pending.idle_next (c := '(') rfl) (a.toList ++ [')'])
  have hchars : ("(" ++ a ++ ")").toList = '(' :: (a.toList ++ [')']) := by simp
  exact tokens_of_lex hchars (by decide) (hchars ▸ hstart.trans hopen)

/-- A call, whose arguments may be none. -/
theorem tokens_call {f a : String} {ts us : List Token} (hf : tokens? f = some ts)
    (ha : Pending.idle.lex a.toList = some us) :
    tokens? (f ++ "(" ++ a ++ ")") = some (ts ++ .symbol "(" :: (us ++ [.symbol ")"])) := by
  have hclose : Pending.idle.lex (a.toList ++ [')']) = some (us ++ [.symbol ")"]) :=
    Pending.lex_append_closer ha (by decide) rfl
  have hopen := Pending.lex_symbol (c := '(') (by simp [symbolPairs]) hclose
  have hread := Pending.lex_append_closer (c := '(') (of_tokens hf).2 (by decide) hopen
  rw [String.append_assoc, String.append_assoc]
  exact tokens_append hf (by simpa using hread)

theorem lex_comma {a b : String} {ts us : List Token} (ha : Pending.idle.lex a.toList = some ts)
    (hb : Pending.idle.lex b.toList = some us) :
    Pending.idle.lex (a ++ ", " ++ b).toList = some (ts ++ .symbol "," :: us) := by
  have hspace := (Pending.lex_cons (Pending.idle_next (c := ' ') rfl) b.toList).trans hb
  have hcomma := Pending.lex_symbol (c := ',') (by simp [symbolPairs]) hspace
  have hread := Pending.lex_append_closer (c := ',') ha (by decide) hcomma
  simpa using hread

theorem tokens_minus {a : String} {ts : List Token} (ha : tokens? a = some ts) :
    tokens? ("-" ++ a) = some (.symbol "-" :: ts) := by
  have hread := Pending.lex_symbol (c := '-') (by simp [symbolPairs]) (of_tokens ha).2
  have hstart := Pending.lex_cons (Pending.idle_next (c := '-') rfl) a.toList
  have hchars : ("-" ++ a).toList = '-' :: a.toList := by simp
  exact tokens_of_lex hchars (by decide) (hchars ▸ hstart.trans hread)

theorem tokens_quote (s : String) : tokens? (Text.quote s) = some [.text (Text.quote s)] := by
  have hstart : Pending.idle.next Text.singleQuote = some ([], .quoted Text.singleQuote false [Text.singleQuote]) := rfl
  have hshut : ∀ read, (Pending.quoted Text.singleQuote false read).next Text.singleQuote =
      some ([], .shut (read ++ [Text.singleQuote])) := fun read => rfl
  have hchars : (Text.quote s).toList = Text.singleQuote :: (Text.escape Text.singleQuote s.toList ++ [Text.singleQuote]) := by
    unfold Text.quote Text.quoteWith
    rw [String.toList_ofList]
  refine tokens_of_lex hchars (by decide) ?_
  rw [hchars, Pending.lex_cons hstart, Pending.lex_escape, Pending.lex_cons (hshut _)]
  simp [Pending.lex, Pending.flush, ← hchars]

end BlockScript
