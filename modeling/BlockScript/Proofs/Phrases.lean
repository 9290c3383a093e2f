import BlockScript.Proofs.NameUses

namespace BlockScript

/-- A word that no identifier is, or one with the property. -/
def Utters (N : String → Prop) (word : String) : Prop :=
  Foreign word ∨ N word

instance (N : String → Prop) [DecidablePred N] (word : String) : Decidable (Utters N word) :=
  inferInstanceAs (Decidable (_ ∨ _))

namespace NameReader

/-- Reads a character of a text with several lines: what is being read ends with its line. -/
def step (r : NameReader) (c : Char) : List String × NameReader :=
  if c = '\n' then (r.last, idle) else r.next c

def heard : NameReader → List Char → List String
  | _, [] => []
  | r, c :: cs => (r.step c).1 ++ (r.step c).2.heard cs

def behind : NameReader → List Char → NameReader
  | r, [] => r
  | r, c :: cs => (r.step c).2.behind cs

variable {N : String → Prop} {r : NameReader} {c : Char} {cs : List Char}

theorem heard_append (r : NameReader) (cs ds : List Char) : r.heard (cs ++ ds) = r.heard cs ++ (r.behind cs).heard ds := by
  induction cs generalizing r with
  | nil => rfl
  | cons c cs ih => rw [List.cons_append, heard, heard, behind, ih, List.append_assoc]

theorem behind_append (r : NameReader) (cs ds : List Char) : r.behind (cs ++ ds) = (r.behind cs).behind ds := by
  induction cs generalizing r with
  | nil => rfl
  | cons c cs ih => rw [List.cons_append, behind, behind, ih]

/-- Within a line nothing is different. -/
theorem heard_line (h : '\n' ∉ cs) (r : NameReader) : r.heard cs = r.found cs ∧ r.behind cs = r.after cs := by
  induction cs generalizing r with
  | nil => exact ⟨rfl, rfl⟩
  | cons c cs ih =>
    rw [List.mem_cons, not_or] at h
    have hstep : r.step c = r.next c := if_neg (Ne.symm h.1)
    obtain ⟨hheard, hbehind⟩ := ih h.2 (r.next c).2
    rw [heard, behind, found, after, hstep, hheard, hbehind]
    exact ⟨rfl, rfl⟩

def isIdle : NameReader → Bool
  | idle => true
  | _ => false

theorem eq_idle (h : r.isIdle = true) : r = idle := by
  cases r with
  | idle => rfl
  | _ => cases h

/-- A reading at which a text may end: a name that is open has the property. -/
def Rests (N : String → Prop) : NameReader → Prop
  | idle | member => True
  | name read => N (String.ofList read)
  | _ => False

instance [DecidablePred N] (r : NameReader) : Decidable (r.Rests N) :=
  match r with
  | idle | member => .isTrue trivial
  | name read => inferInstanceAs (Decidable (N (String.ofList read)))
  | equated _ | point | quoted _ _ | comment => .isFalse id

theorem Rests.imp {M : String → Prop} (h : r.Rests N) (hNM : ∀ w, N w → M w) : r.Rests M := by
  cases r with
  | name read => exact hNM _ h
  | idle | member => trivial
  | _ => exact h

theorem last_break (r : NameReader) : r.step '\n' = (r.last, idle) := rfl

theorem Rests.last (h : r.Rests N) : ∀ w ∈ r.last, N w := by
  cases r with
  | name read => exact List.forall_mem_singleton.mpr h
  | _ => exact List.forall_mem_nil _

/-- A character that ends a name and does not make it the keyword of an argument. -/
def parts (c : Char) : Bool :=
  !isIdentifierChar c && c != '='

theorem Rests.step (h : r.Rests N) (hc : parts c = true) :
    (∀ w ∈ (r.step c).1, N w) ∧ (r.step c).2 = (idle.step c).2 := by
  obtain ⟨hword, heq⟩ : isIdentifierChar c = false ∧ c ≠ '=' := by simpa [parts] using hc
  by_cases hbreak : c = '\n'
  · subst hbreak
    exact ⟨h.last, rfl⟩
  · have hidle : (idle.step c).2 = ofChar c := congrArg Prod.snd (if_neg hbreak)
    rw [hidle, NameReader.step, if_neg hbreak]
    cases r with
    | idle => exact ⟨List.forall_mem_nil _, rfl⟩
    | member => simp [next, hword]
    | name read =>
      simp only [next, hword, heq, if_false, Bool.false_eq_true, List.mem_singleton, forall_eq, and_true]
      exact h
    | _ => exact h.elim

/-- Behind a reading that rests, a text that starts with such a character is read like any other. -/
theorem Rests.heard (h : r.Rests N) (hhead : cs.head?.any parts = true) :
    (∀ w ∈ r.heard cs, N w ∨ w ∈ idle.heard cs) ∧ r.behind cs = idle.behind cs := by
  cases cs with
  | nil => cases hhead
  | cons c cs =>
    obtain ⟨hfound, hstep⟩ := h.step hhead
    rw [NameReader.heard, NameReader.heard, behind, behind, hstep]
    refine ⟨fun w hw => ?_, rfl⟩
    exact (List.mem_append.mp hw).imp (hfound w) (List.mem_append_right _)

theorem read_members (hr : r = point ∨ r = member) (h : ∀ c ∈ cs, isIdentifierChar c = true) (hne : cs ≠ []) :
    r.found cs = [] ∧ r.after cs = member := by
  induction cs generalizing r with
  | nil => exact absurd rfl hne
  | cons c cs ih =>
    rw [List.forall_mem_cons] at h
    have hnext : r.next c = ([], member) := by
      obtain rfl | rfl := hr <;> exact congrArg (Prod.mk []) (if_pos h.1)
    rw [found, after, hnext, List.nil_append]
    cases cs with
    | nil => exact ⟨rfl, rfl⟩
    | cons d ds => exact ih (Or.inr rfl) h.2 (List.cons_ne_nil d ds)

/-- Inside a literal nothing is found. -/
def StaysQuoted (cs : List Char) : Prop :=
  (quoted Text.singleQuote false).found cs = [] ∧
    (quoted Text.singleQuote false).after cs = quoted Text.singleQuote false

theorem StaysQuoted.append {ds : List Char} (hc : StaysQuoted cs) (hd : StaysQuoted ds) : StaysQuoted (cs ++ ds) := by
  refine ⟨?_, ?_⟩
  · rw [found_append, hc.1, hc.2, hd.1, List.append_nil]
  · rw [after_append, hc.2, hd.2]

theorem staysQuoted_plain (h : ∀ c ∈ cs, c ≠ '\\' ∧ c ≠ Text.singleQuote) : StaysQuoted cs := by
  induction cs with
  | nil => exact ⟨rfl, rfl⟩
  | cons c cs ih =>
    rw [List.forall_mem_cons] at h
    have hnext : (quoted Text.singleQuote false).next c = ([], quoted Text.singleQuote false) := by
      simp [next, h.1.1, h.1.2]
    unfold StaysQuoted
    rw [found, after, hnext]
    exact ih h.2

/-- An escaped character never ends its literal. -/
theorem staysQuoted_escapeChar (c : Char) : StaysQuoted (Text.escapeChar Text.singleQuote c) := by
  have hescaped : ∀ d, StaysQuoted ['\\', d] := fun _ => ⟨rfl, rfl⟩
  have hcode : ∀ d width, StaysQuoted ('\\' :: d :: Text.hexDigits width c.toNat) := fun d width =>
    (hescaped d).append (staysQuoted_plain fun c hc => (Pending.hexDigits_plain width _ c hc).2)
  unfold Text.escapeChar Text.codeEscape
  split
  · exact hescaped c
  · rename_i hplain
    split
    · exact hescaped _
    · split
      · exact hescaped _
      · split
        · exact hescaped _
        · split
          · exact staysQuoted_plain (List.forall_mem_singleton.mpr (not_or.mp hplain))
          · split
            · exact hcode _ _
            · split <;> exact hcode _ _

theorem staysQuoted_escape (cs : List Char) : StaysQuoted (Text.escape Text.singleQuote cs) := by
  induction cs with
  | nil => exact ⟨rfl, rfl⟩
  | cons c cs ih => exact (staysQuoted_escapeChar c).append ih

end NameReader

open NameReader

/-- A text in which a line may end: it speaks of nothing but words that no identifier is and names with the property, and
if `E` holds, it ends in something to see. -/
structure Told (N : String → Prop) (E : Prop) (code : String) : Prop where
  heard : ∀ w ∈ idle.heard code.toList, Utters N w
  rests : (idle.behind code.toList).Rests (Utters N)
  ended : E → code.toList.getLast?.any (!Text.isBlank ·) = true

/-- A fixed text in front of others. -/
def Opens (text : String) : Prop :=
  (∀ w ∈ idle.heard text.toList, Foreign w) ∧ (idle.behind text.toList).isIdle = true

instance (text : String) : Decidable (Opens text) :=
  inferInstanceAs (Decidable (_ ∧ _))

/-- A fixed text that stands by itself. -/
def Fixed (text : String) : Prop :=
  (∀ w ∈ idle.heard text.toList, Foreign w) ∧ (idle.behind text.toList).Rests Foreign ∧
    text.toList.getLast?.any (!Text.isBlank ·) = true

instance (text : String) : Decidable (Fixed text) :=
  inferInstanceAs (Decidable (_ ∧ _))

/-- The operand that stands for a missing number. -/
theorem fixed_zero : Fixed "0" := by decide

/-- A text that is not taken for the rest of a name. -/
def Parted (text : String) : Prop :=
  text.toList.head?.any parts = true

instance (text : String) : Decidable (Parted text) :=
  inferInstanceAs (Decidable (_ = _))

variable {N : String → Prop} {E E' : Prop} {a b text x : String}

theorem getLast_any_append {p : Char → Bool} {cs ds : List Char} (h : ds.getLast?.any p = true) :
    (cs ++ ds).getLast?.any p = true := by
  cases hd : ds.getLast? with
  | none =>
    rw [hd] at h
    cases h
  | some d =>
    rw [hd] at h
    rw [List.getLast?_append, hd]
    exact h

theorem Parted.append (h : Parted text) (b : String) : Parted (text ++ b) := by
  unfold Parted at h ⊢
  rw [String.toList_append]
  cases htext : text.toList with
  | nil =>
    rw [htext] at h
    cases h
  | cons c cs =>
    rw [htext] at h
    exact h

namespace Told

theorem fixed (h : Fixed text) : Told N E text :=
  ⟨fun w hw => Or.inl (h.1 w hw), h.2.1.imp fun _ => Or.inl, fun _ => h.2.2⟩

theorem append (ha : Told N E' a) (hb : Told N E b) (h : Parted b) : Told N E (a ++ b) := by
  obtain ⟨hheard, hbehind⟩ := ha.rests.heard h
  constructor
  · intro w hw
    rw [String.toList_append, heard_append, List.mem_append] at hw
    obtain hw | hw := hw
    · exact ha.heard w hw
    · exact (hheard w hw).elim id (hb.heard w)
  · rw [String.toList_append, behind_append, hbehind]
    exact hb.rests
  · rw [String.toList_append]
    exact fun hE => getLast_any_append (hb.ended hE)

theorem behind (ha : Told N E a) (h : Opens text) : Told N E (text ++ a) := by
  have hidle := eq_idle h.2
  constructor
  · intro w hw
    rw [String.toList_append, heard_append, hidle, List.mem_append] at hw
    exact hw.elim (fun hw => Or.inl (h.1 w hw)) (ha.heard w)
  · rw [String.toList_append, behind_append, hidle]
    exact ha.rests
  · rw [String.toList_append]
    exact fun hE => getLast_any_append (ha.ended hE)

theorem closed (ha : Told N E' a) (h : Fixed text ∧ Parted text) : Told N E (a ++ text) :=
  ha.append (.fixed h.1) h.2

theorem around (ha : Told N E' a) (hb : Told N E b) (h : Opens text ∧ Parted text) : Told N E (a ++ text ++ b) := by
  rw [String.append_assoc]
  exact ha.append (hb.behind h.1) (h.2.append b)

theorem joined {separator : String} (h : Opens separator ∧ Parted separator) {codes : List String} (hne : codes ≠ [])
    (hcodes : ∀ code ∈ codes, Told N E code) : Told N E (Text.joined separator codes) := by
  induction codes with
  | nil => exact absurd rfl hne
  | cons code codes ih =>
    rw [List.forall_mem_cons] at hcodes
    cases codes with
    | nil => exact hcodes.1
    | cons c codes => exact hcodes.1.around (ih (List.cons_ne_nil c codes) hcodes.2) h

/-- A call, also one without arguments. -/
theorem call (hx : Told N E' x) {codes : List String} (hcodes : ∀ code ∈ codes, Told N E' code) :
    Told N E (x ++ "(" ++ Text.joined ", " codes ++ ")") := by
  by_cases hne : codes = []
  · subst hne
    have hcode : x ++ "(" ++ Text.joined ", " [] ++ ")" = x ++ "()" := by
      rw [String.append_assoc, String.append_assoc]
      rfl
    rw [hcode]
    exact hx.closed (by decide)
  · have hargs : Told N E' (Text.joined ", " codes) := joined (by decide) hne hcodes
    have hopen : Told N E' (x ++ "(" ++ Text.joined ", " codes) := hx.around hargs (by decide)
    exact hopen.closed (by decide)

theorem word {cs : List Char} (hne : cs ≠ []) (hcs : ∀ c ∈ cs, isIdentifierChar c = true)
    (hN : Utters N (String.ofList cs)) : Told N E (String.ofList cs) := by
  have hline : '\n' ∉ cs := fun hmem => absurd (hcs _ hmem) (by decide)
  obtain ⟨hheard, hbehind⟩ := heard_line hline idle
  obtain ⟨hfound, hafter⟩ := read_first hcs hne
  rw [hfound] at hheard
  rw [hafter] at hbehind
  constructor
  · rw [String.toList_ofList, hheard]
    exact List.forall_mem_nil _
  · rw [String.toList_ofList, hbehind]
    exact hN
  · rw [String.toList_ofList, List.getLast?_eq_some_getLast hne, Option.any_some,
      Text.not_blank_of_identifierChar (hcs _ (List.getLast_mem hne))]
    exact fun _ => rfl

theorem name (hx : IsIdentifier x) (hN : N x) : Told N E x := by
  obtain ⟨hne, hchars⟩ := hx.chars
  have hword := word (N := N) (E := E) hne hchars
  rw [String.ofList_toList] at hword
  exact hword (Or.inr hN)

theorem digits {cs : List Char} (hne : cs ≠ []) (hdigit : cs.head?.any Char.isDigit = true)
    (hcs : ∀ c ∈ cs, isIdentifierChar c = true) : Told N E (String.ofList cs) :=
  word hne hcs (Or.inl (Or.inr (by rwa [String.toList_ofList])))

/-- Digits with a point, and more behind it. -/
theorem pointed {cs ds : List Char} (hne : cs ≠ []) (hdigit : cs.head?.any Char.isDigit = true)
    (hcs : ∀ c ∈ cs, isIdentifierChar c = true) (hdne : ds ≠ []) (hds : ∀ c ∈ ds, isIdentifierChar c = true) :
    Told N E (String.ofList (cs ++ '.' :: ds)) := by
  have hbreak : ∀ {cs : List Char}, (∀ c ∈ cs, isIdentifierChar c = true) → '\n' ∉ cs :=
    fun h hmem => absurd (h _ hmem) (by decide)
  obtain ⟨hheard, hbehind⟩ := heard_line (hbreak hcs) idle
  obtain ⟨hfound, hafter⟩ := read_first hcs hne
  obtain ⟨hmembers, hmember⟩ := heard_line (hbreak hds) point
  obtain ⟨hsilent, hlast⟩ := read_members (Or.inl rfl) hds hdne
  rw [hfound] at hheard
  rw [hafter] at hbehind
  rw [hsilent] at hmembers
  rw [hlast] at hmember
  have hstep : (NameReader.name cs).step '.' = ([String.ofList cs], point) := rfl
  constructor
  · rw [String.toList_ofList, heard_append, hheard, hbehind, NameReader.heard, hstep, hmembers]
    exact List.forall_mem_singleton.mpr (Or.inl (Or.inr (by rwa [String.toList_ofList])))
  · rw [String.toList_ofList, behind_append, hbehind, NameReader.behind, hstep, hmember]
    trivial
  · rw [String.toList_ofList, List.append_cons, List.getLast?_append_of_ne_nil _ hdne, List.getLast?_eq_some_getLast hdne,
      Option.any_some, Text.not_blank_of_identifierChar (hds _ (List.getLast_mem hdne))]
    exact fun _ => rfl

theorem sign {cs : List Char} {c : Char} (hc : c = '+' ∨ c = '-') (h : Told N E (String.ofList cs)) :
    Told N E (String.ofList (c :: cs)) ∧ Parted (String.ofList (c :: cs)) := by
  have hsplit : String.ofList (c :: cs) = String.ofList [c] ++ String.ofList cs := by
    rw [← String.ofList_append]
    rfl
  rw [hsplit]
  obtain rfl | rfl := hc
  · exact ⟨h.behind (by decide), Parted.append (by decide) _⟩
  · exact ⟨h.behind (by decide), Parted.append (by decide) _⟩

theorem nat (k : Nat) : Told N E (toString k) := by
  have hdigits := toDigits_digits k
  rw [Nat.toString_eq_ofList_toDigits]
  refine digits Nat.toDigits_ne_nil ?_ fun c hc => isIdentifierChar_of_digit (hdigits c hc)
  cases hk : Nat.toDigits 10 k with
  | nil => exact absurd hk Nat.toDigits_ne_nil
  | cons c cs => exact hdigits c (by simp [hk])

theorem int (z : Int) : Told N E (toString z) := by
  cases z with
  | ofNat k => exact nat k
  | negSucc k =>
    have hsigned : Told N E ("-" ++ toString (k + 1)) := (nat (k + 1)).behind (by decide)
    exact hsigned

/-- Digits with a point or an exponent. -/
theorem layout {ds : List Char} (hne : ds ≠ []) (h : ∀ c ∈ ds, c.isDigit = true) (x : Int) :
    Told N E (String.ofList (Double.layout ds x)) := by
  obtain ⟨d, ds, rfl⟩ := List.exists_cons_of_ne_nil hne
  have hd : d.isDigit = true := h d List.mem_cons_self
  have hword : ∀ c ∈ d :: ds, isIdentifierChar c = true := fun c hc => isIdentifierChar_of_digit (h c hc)
  have hdrop : ∀ k, ∀ c ∈ (d :: ds).drop k, isIdentifierChar c = true := fun k c hc => hword c (List.mem_of_mem_drop hc)
  have hfirst : ∀ c ∈ [d], isIdentifierChar c = true := List.forall_mem_singleton.mpr (hword d List.mem_cons_self)
  have hletter : ∀ {cs : List Char}, (∀ c ∈ cs, isIdentifierChar c = true) → ∀ c ∈ cs ++ ['e'], isIdentifierChar c = true :=
    fun hcs => List.forall_mem_append.mpr ⟨hcs, List.forall_mem_singleton.mpr rfl⟩
  have hzeros : ∀ k, ∀ c ∈ List.replicate k '0', isIdentifierChar c = true := by
    intro k c hc
    rw [List.eq_of_mem_replicate hc]
    rfl
  unfold Double.layout
  dsimp only
  split
  · obtain ⟨sign, es, hx, hsign, hes, hdigits⟩ := Double.exponentText_eq x
    have hexponent : Told N E (String.ofList es) := by
      refine digits hes ?_ fun c hc => isIdentifierChar_of_digit (hdigits c hc)
      obtain ⟨e, es, rfl⟩ := List.exists_cons_of_ne_nil hes
      exact hdigits e List.mem_cons_self
    obtain ⟨htold, hparted⟩ := hexponent.sign hsign
    rw [hx, List.append_cons, String.ofList_append]
    suffices hfront : Told N E _ from hfront.append htold hparted
    split
    · rw [List.append_nil]
      exact digits (List.cons_ne_nil d _) hd (hletter hfirst)
    · rename_i hfraction
      rw [List.append_assoc, List.cons_append]
      exact pointed (List.cons_ne_nil d _) hd hfirst (by simp) (hletter (hdrop 1))
  · split
    · have hrest : List.replicate ((-x).toNat - 1) '0' ++ d :: ds ≠ [] := by simp
      have hzero : ∀ c ∈ ['0'], isIdentifierChar c = true := List.forall_mem_singleton.mpr rfl
      exact pointed (by decide) rfl hzero hrest (List.forall_mem_append.mpr ⟨hzeros _, hword⟩)
    · refine pointed (by simp) (by simp [hd]) (List.forall_mem_append.mpr ⟨?_, hzeros _⟩) ?_ ?_
      · exact fun c hc => hword c (List.mem_of_mem_take hc)
      · split
        · decide
        · rename_i hfraction
          simpa using hfraction
      · split
        · exact List.forall_mem_singleton.mpr rfl
        · exact hdrop _

theorem literal (d : Double) : Told N E d.literal := by
  cases d with
  | nan => exact fixed (by decide)
  | infinite negative => cases negative <;> exact fixed (by decide)
  | finite negative m e =>
    have hsign : ∀ {code : String}, Told N E code → Told N E ((if negative then "-" else "") ++ code) := by
      intro code hcode
      cases negative
      · rwa [if_neg (by decide), String.empty_append]
      · rw [if_pos rfl]
        exact hcode.behind (by decide)
    simp only [Double.literal]
    split
    · exact int _
    · simp only [Double.text]
      split
      · exact hsign (fixed (by decide))
      · rename_i hm
        obtain ⟨hne, hdigits⟩ := Double.digitRow_digits (Double.shortest_ne_zero (Nat.pos_of_ne_zero hm) e) (Double.shortest m e).2
        exact hsign (layout hne hdigits _)

theorem number (x : Number) : Told N E x.literal := by
  cases x with
  | whole z => exact int z
  | real d => exact literal d

theorem quote (text : String) : Told N E (Text.quote text) := by
  have hchars : (Text.quote text).toList =
      Text.singleQuote :: (Text.escape Text.singleQuote text.toList ++ [Text.singleQuote]) := String.toList_ofList
  obtain ⟨hheard, hbehind⟩ := heard_line (Written.quote text).line.oneLine idle
  obtain ⟨hfound, hafter⟩ := staysQuoted_escape text.toList
  have hopen : idle.next Text.singleQuote = ([], quoted Text.singleQuote false) := rfl
  have hclose : (quoted Text.singleQuote false).next Text.singleQuote = ([], idle) := rfl
  constructor
  · rw [hheard, hchars, found, hopen, found_append, hfound, hafter, found, hclose]
    exact List.forall_mem_nil _
  · rw [hbehind, hchars, after, hopen, after_append, hafter, after, hclose]
    trivial
  · rw [hchars, ← List.cons_append]
    exact fun _ => getLast_any_append (by decide)

end Told

/-- Lines of which the last one ends in something to see. -/
def Firm (code : String) : Prop :=
  code = "" ∨ ∃ line, code = line ++ "\n" ∧ line.toList.getLast?.any (!Text.isBlank ·) = true

theorem Firm.append (ha : Firm a) (hb : Firm b) : Firm (a ++ b) := by
  obtain rfl | ⟨line, rfl, hline⟩ := hb
  · rwa [String.append_empty]
  · refine Or.inr ⟨a ++ line, (String.append_assoc ..).symm, ?_⟩
    rw [String.toList_append]
    exact getLast_any_append hline

/-- Whole lines that speak of nothing but words that no identifier is and names with the property. -/
structure Stated (N : String → Prop) (code : String) : Prop where
  heard : ∀ w ∈ idle.heard code.toList, Utters N w
  whole : idle.behind code.toList = idle

/-- Such lines, with something to see in the last one if `E` holds. -/
structure Lined (N : String → Prop) (E : Prop) (code : String) : Prop extends Stated N code where
  firm : E → Firm code

namespace Stated

theorem empty : Stated N "" :=
  ⟨List.forall_mem_nil _, rfl⟩

theorem append (ha : Stated N a) (hb : Stated N b) : Stated N (a ++ b) := by
  refine ⟨fun w hw => ?_, ?_⟩
  · rw [String.toList_append, heard_append, ha.whole, List.mem_append] at hw
    exact hw.elim (ha.heard w) (hb.heard w)
  · rw [String.toList_append, behind_append, ha.whole, hb.whole]

theorem joined {codes : List String} (h : ∀ code ∈ codes, Stated N code) : Stated N (Text.joined "" codes) := by
  induction codes with
  | nil => exact empty
  | cons code codes ih =>
    rw [List.forall_mem_cons] at h
    rw [Text.joined_empty_cons]
    exact h.1.append (ih h.2)

end Stated

theorem Told.line (ha : Told N E a) : Lined N E (a ++ "\n") := by
  refine ⟨⟨fun w hw => ?_, ?_⟩, fun hE => Or.inr ⟨a, rfl, ha.ended hE⟩⟩
  · rw [String.toList_append, heard_append, List.mem_append] at hw
    refine hw.elim (ha.heard w) fun hw => ?_
    replace hw : w ∈ (idle.behind a.toList).last ++ [] := hw
    rw [List.append_nil] at hw
    exact ha.rests.last w hw
  · rw [String.toList_append, behind_append]
    rfl

theorem Lined.empty : Lined N E "" :=
  ⟨.empty, fun _ => Or.inl rfl⟩

theorem Lined.append (ha : Lined N E a) (hb : Lined N E b) : Lined N E (a ++ b) :=
  ⟨ha.toStated.append hb.toStated, fun hE => (ha.firm hE).append (hb.firm hE)⟩

section Marks

/-- Spaces in front of lines are not heard. -/
theorem heard_markBreaks {mark : List Char} (h : ∀ c ∈ mark, c = ' ') (r : NameReader) (cs : List Char) :
    r.heard (Text.markBreaks mark cs) = r.heard cs ∧ r.behind (Text.markBreaks mark cs) = r.behind cs := by
  have hspaces : idle.heard mark = [] ∧ idle.behind mark = idle := by
    induction mark with
    | nil => exact ⟨rfl, rfl⟩
    | cons c mark ih =>
      rw [List.forall_mem_cons] at h
      rw [h.1]
      exact ih h.2
  induction cs using Text.markBreaks.induct generalizing r with
  | case1 => exact ⟨rfl, rfl⟩
  | case2 c => exact ⟨rfl, rfl⟩
  | case3 d cs ih =>
    obtain ⟨hheard, hbehind⟩ := ih idle
    rw [Text.markBreaks, if_pos rfl, heard, behind, last_break, heard_append, behind_append, hspaces.1, hspaces.2, hheard,
      hbehind]
    exact ⟨rfl, rfl⟩
  | case4 c d cs hc ih =>
    obtain ⟨hheard, hbehind⟩ := ih (r.step c).2
    rw [Text.markBreaks, if_neg hc, heard, behind, hheard, hbehind]
    exact ⟨rfl, rfl⟩

theorem Stated.deeper (ha : Stated N a) : Stated N (Text.markLines "    " a) := by
  have hmark : ∀ c ∈ "    ".toList, c = ' ' := fun c hc => List.eq_of_mem_replicate (n := 4) hc
  obtain ⟨hheard, hbehind⟩ := heard_markBreaks hmark idle a.toList
  unfold Text.markLines
  split
  · exact ha
  · refine ⟨?_, ?_⟩
    · rw [String.toList_ofList, heard_append]
      change ∀ w ∈ idle.heard (Text.markBreaks "    ".toList a.toList), Utters N w
      rw [hheard]
      exact ha.heard
    · rw [String.toList_ofList, behind_append]
      change idle.behind (Text.markBreaks "    ".toList a.toList) = idle
      rw [hbehind]
      exact ha.whole

/-- In a comment nothing is heard, whatever its lines are. -/
theorem heard_comment (cs : List Char) : comment.heard (Text.markBreaks "# ".toList cs) = [] ∧
    (comment.behind (Text.markBreaks "# ".toList cs) = idle ∨ comment.behind (Text.markBreaks "# ".toList cs) = comment) := by
  induction cs using Text.markBreaks.induct with
  | case1 => exact ⟨rfl, Or.inr rfl⟩
  | case2 c =>
    by_cases hc : c = '\n'
    · rw [hc]
      exact ⟨rfl, Or.inl rfl⟩
    · have hstep : comment.step c = ([], comment) := if_neg hc
      rw [Text.markBreaks, heard, behind, hstep]
      exact ⟨rfl, Or.inr rfl⟩
  | case3 d cs ih =>
    rw [Text.markBreaks, if_pos rfl]
    exact ih
  | case4 c d cs hc ih =>
    have hstep : comment.step c = ([], comment) := if_neg hc
    rw [Text.markBreaks, if_neg hc, heard, behind, hstep]
    exact ih

theorem Stated.of_whole (hw : Whole a) (h : ∀ w ∈ idle.heard a.toList, Utters N w) : Stated N a := by
  refine ⟨h, ?_⟩
  obtain rfl | ⟨start, rfl⟩ := hw
  · rfl
  · rw [String.toList_append, behind_append]
    rfl

theorem heard_remark (text : String) : idle.heard (Text.markLines "# " text).toList = [] := by
  unfold Text.markLines
  split
  · rename_i hempty
    rw [String.isEmpty_iff.mp hempty]
    rfl
  · rw [String.toList_ofList, heard_append]
    exact (heard_comment text.toList).1

theorem Stated.remark (hw : Whole text) : Stated N (Text.markLines "# " text) := by
  apply of_whole hw.markLines
  rw [heard_remark]
  exact List.forall_mem_nil _

theorem Stated.remarkLine (text : String) : Stated N (Text.markLines "# " text ++ "\n") := by
  apply of_whole (Or.inr ⟨_, rfl⟩)
  have hlast : (idle.behind (Text.markLines "# " text).toList).last = [] := by
    unfold Text.markLines
    split
    · rename_i hempty
      rw [String.isEmpty_iff.mp hempty]
      rfl
    · rw [String.toList_ofList, behind_append]
      obtain hidle | hcomment := (heard_comment text.toList).2
      · exact congrArg last hidle
      · exact congrArg last hcomment
  rw [String.toList_append, heard_append, heard_remark]
  change ∀ w ∈ (idle.behind (Text.markLines "# " text).toList).last ++ [], Utters N w
  rw [hlast]
  exact List.forall_mem_nil _

end Marks

/-- What a line speaks of, if of anything. -/
def lineNames? (line : List Char) : Option (List String) :=
  if (textNames line).isEmpty then none else some (textNames line)

/-- The names that the lines of a text speak of outside their strings and comments. -/
def spokenNames (code : String) : List String :=
  (Text.readLines lineNames? code).flatten

theorem NameReader.found_blanks {blanks : List Char} (h : ∀ c ∈ blanks, Text.isBlank c = true) (r : NameReader) :
    r.found blanks ++ (r.after blanks).last = r.last := by
  induction blanks generalizing r with
  | nil => rfl
  | cons c blanks ih =>
    rw [List.forall_mem_cons] at h
    have hother : ∀ d, Text.isBlank d = false → c ≠ d := by
      rintro d hd rfl
      cases hd.symm.trans h.1
    have hword : isIdentifierChar c = false := by
      by_contra hword
      rw [Bool.not_eq_false] at hword
      cases (Text.not_blank_of_identifierChar hword).symm.trans h.1
    have hidle : ofChar c = idle := by
      have hquote : isQuoteChar c = false := by
        simp [isQuoteChar, hother Text.singleQuote (by decide), hother Text.doubleQuote (by decide)]
      simp [ofChar, hword, hquote, hother '#' (by decide), hother '.' (by decide)]
    rw [found, after, List.append_assoc, ih h.2]
    cases r with
    | idle | point | member => simp [next, hword, hidle, last]
    | name read => simp [next, hword, hother '=' (by decide), hidle, last]
    | equated read => simp [next, hother '=' (by decide), hidle, last]
    | quoted d escaped =>
      cases escaped
      · simp only [next]
        split
        · rfl
        · split <;> rfl
      · rfl
    | comment => rfl

theorem lineNames_passesBlanks : Text.PassesBlanks lineNames? where
  nil := rfl
  append h := by
    have hnames : ∀ line, textNames (line ++ _) = textNames line := fun line => by
      rw [textNames, found_append, after_append, List.append_assoc, found_blanks h]
      rfl
    rw [lineNames?, hnames]
    rfl

theorem spokenNames_eq_flatMap (code : String) :
    spokenNames code = (Text.splitAt '\n' code.toList).flatMap textNames := by
  rw [spokenNames, Text.readLines]
  induction Text.splitAt '\n' code.toList with
  | nil => rfl
  | cons line lines ih =>
    rw [List.filterMap_cons, List.flatMap_cons, ← ih, lineNames?]
    by_cases hline : textNames line = []
    · simp [hline]
    · simp [hline]

/-- What is heard in a text is what its lines speak of. -/
theorem NameReader.heard_last (r : NameReader) {line : List Char} {lines : List (List Char)} {cs : List Char}
    (h : Text.splitAt '\n' cs = line :: lines) :
    r.heard cs ++ (r.behind cs).last = r.found line ++ (r.after line).last ++ lines.flatMap textNames := by
  induction cs generalizing r line lines with
  | nil =>
    cases h
    exact (List.append_nil _).symm
  | cons c cs ih =>
    obtain ⟨first, rest, hsplit⟩ := List.exists_cons_of_ne_nil (Text.splitAt_ne_nil '\n' cs)
    by_cases hc : c = '\n'
    · rw [hc, Text.splitAt_separator, hsplit] at h
      cases h
      rw [hc, heard, NameReader.behind, last_break, List.append_assoc, ih idle hsplit]
      rfl
    · rw [Text.splitAt_cons hc, hsplit] at h
      cases h
      have hstep : r.step c = r.next c := if_neg hc
      rw [heard, NameReader.behind, hstep, List.append_assoc, ih _ hsplit, found, after]
      simp only [List.append_assoc]

theorem spokenNames_eq (code : String) :
    spokenNames code = idle.heard code.toList ++ (idle.behind code.toList).last := by
  obtain ⟨line, lines, hsplit⟩ := List.exists_cons_of_ne_nil (Text.splitAt_ne_nil '\n' code.toList)
  rw [heard_last idle hsplit, spokenNames_eq_flatMap, hsplit]
  rfl

/-- A text that speaks of nothing but words that no identifier is and names with the property. -/
def Voiced (N : String → Prop) (code : String) : Prop :=
  ∀ w ∈ spokenNames code, Utters N w

theorem Told.voiced (h : Told N E a) : Voiced N a := by
  intro w hw
  rw [spokenNames_eq, List.mem_append] at hw
  exact hw.elim (h.heard w) (h.rests.last w)

theorem Stated.voiced (h : Stated N a) : Voiced N a := by
  intro w hw
  rw [spokenNames_eq, h.whole, List.mem_append] at hw
  exact hw.elim (h.heard w) fun hw => by cases hw

theorem Told.voiced_append (ha : Told N E a) (hb : Voiced N b) (h : Parted b) : Voiced N (a ++ b) := by
  obtain ⟨hheard, hbehind⟩ := ha.rests.heard h
  intro w hw
  rw [spokenNames_eq, String.toList_append, heard_append, behind_append, hbehind, List.append_assoc, List.mem_append] at hw
  obtain hw | hw := hw
  · exact ha.heard w hw
  · have hb := hb w
    rw [spokenNames_eq, List.mem_append] at hb
    obtain hw | hw := List.mem_append.mp hw
    · exact (hheard w hw).elim id fun hw => hb (Or.inl hw)
    · exact hb (Or.inr hw)

theorem Opens.voiced_append (h : Opens text) (hb : Voiced N b) : Voiced N (text ++ b) := by
  intro w hw
  rw [spokenNames_eq, String.toList_append, heard_append, behind_append, eq_idle h.2, List.append_assoc, List.mem_append,
    ← spokenNames_eq] at hw
  exact hw.elim (fun hw => Or.inl (h.1 w hw)) (hb w)

theorem Voiced.append_line (ha : Voiced N a) (hb : Voiced N b) : Voiced N (a ++ "\n" ++ b) := by
  intro w hw
  rw [spokenNames, Text.readLines_append_line, List.flatten_append, List.mem_append] at hw
  exact hw.elim (ha w) (hb w)

end BlockScript
