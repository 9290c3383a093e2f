import BlockScript.Expression.Output
import BlockScript.Proofs.Numerals
import BlockScript.Proofs.Reading

namespace BlockScript

variable {code a b : String} {e x y : Expr}

/-- The text is a phrase of a level, and the phrase is the expression. -/
def Written (rank : Rank) (code : String) (e : Expr) : Prop :=
  ∃ ts, tokens? code = some ts ∧ Derives rank.toNat ts e

/-- The text is an expression. -/
def Parses (code : String) (e : Expr) : Prop :=
  Written OperatorClass.conditional.rank code e

theorem Parses.unique (hx : Parses code x) (hy : Parses code y) : x = y := by
  obtain ⟨ts, hts, hx⟩ := hx
  obtain ⟨us, hus, hy⟩ := hy
  rw [hts] at hus
  cases hus
  exact hx.unique hy

namespace Written

theorem mono {q r : Rank} (h : Written q code e) (hr : q ≤ r) : Written r code e := by
  obtain ⟨ts, hts, hd⟩ := h
  exact ⟨ts, hts, hd.mono (Int.toNat_le_toNat hr)⟩

/-- An atom stands everywhere. -/
theorem loosen (h : Written OperatorClass.atomic.rank code e) (r : Rank) : Written r code e := by
  obtain ⟨ts, hts, hd⟩ := h
  exact ⟨ts, hts, hd.mono (Nat.zero_le _)⟩

theorem parses {r : Rank} (h : Written r code e) : Parses code e := by
  obtain ⟨ts, hts, hd⟩ := h
  exact ⟨ts, hts, hd.tighten⟩

theorem ne_empty {r : Rank} (h : Written r code e) : code ≠ "" := by
  rintro rfl
  obtain ⟨ts, hts, hd⟩ := h
  obtain ⟨t, us, rfl, -, -⟩ := hd.head
  cases hts

theorem numeral {s : String} (h : tokens? s = some [.numeral s]) :
    Written OperatorClass.atomic.rank s (.numeral s) :=
  ⟨_, h, .numeral s⟩

theorem quote (s : String) : Written OperatorClass.atomic.rank (Text.quote s) (.text (Text.quote s)) :=
  ⟨_, tokens_quote s, .text _⟩

theorem parens {r : Rank} (h : Written r code e) : Written OperatorClass.atomic.rank ("(" ++ code ++ ")") e := by
  obtain ⟨ts, hts, hd⟩ := h
  exact ⟨_, tokens_group hts, .group hd.tighten⟩

theorem member {s t : String} (hs : IsIdentifier s) (hk : s ∉ keywords) (ht : IsIdentifier t) (hl : t ∉ keywords) :
    Written OperatorClass.member.rank (s ++ "." ++ t) (.member (.name s) t) :=
  ⟨_, tokens_member hs ht, .member ((Derives.name (Or.inl hk)).mono (by decide)) hl⟩

theorem binary (op : BinaryOp) (symbol : String) (hs : " " ++ op.symbol ++ " " = symbol)
    (hx : Written op.left a x) (hy : Written op.right b y) :
    Written op.kind.rank (a ++ symbol ++ b) (.binary op x y) := by
  obtain ⟨ts, hts, hx⟩ := hx
  obtain ⟨us, hus, hy⟩ := hy
  subst hs
  have hsymbol : tokens? op.symbol = some [.symbol op.symbol] := by cases op <;> rfl
  have htokens := tokens_space hts (tokens_space hsymbol hus)
  refine ⟨ts ++ .symbol op.symbol :: us, ?_, .binary op hx hy⟩
  simpa [String.append_assoc] using htokens

theorem minus (hx : Written OperatorClass.unarySign.rank a x) :
    Written OperatorClass.unarySign.rank ("-" ++ a) (.sign "-" x) := by
  obtain ⟨ts, hts, hx⟩ := hx
  exact ⟨_, tokens_minus hts, .sign (by decide) hx⟩

theorem compare {s : String} (hs : s ∈ comparisonSymbols) (hx : Written OperatorClass.bitwiseOr.rank a x)
    (hy : Written OperatorClass.bitwiseOr.rank b y) :
    Written OperatorClass.relational.rank (a ++ " " ++ s ++ " " ++ b) (.compare x [(s, y)]) := by
  obtain ⟨ts, hts, hx⟩ := hx
  obtain ⟨us, hus, hy⟩ := hy
  have hsymbol : tokens? s = some [.symbol s] := by
    simp only [comparisonSymbols, List.mem_cons, List.not_mem_nil, or_false] at hs
    obtain rfl | rfl | rfl | rfl | rfl | rfl := hs <;> rfl
  have htokens := tokens_space hts (tokens_space hsymbol hus)
  have hderives : Derives OperatorClass.relational.level (ts ++ compared [(s, us, y)]) (.compare x [(s, y)]) := by
    refine .compare [(s, us, y)] hx (by simp) ?_ ?_
    · rintro p hp
      rw [List.mem_singleton.mp hp]
      exact hs
    · rintro p hp
      rw [List.mem_singleton.mp hp]
      exact hy
  refine ⟨_, ?_, hderives⟩
  simpa [String.append_assoc, compared] using htokens

theorem negate (hx : Written OperatorClass.logicalNot.rank a x) :
    Written OperatorClass.logicalNot.rank ("not " ++ a) (.negate x) := by
  obtain ⟨ts, hts, hx⟩ := hx
  have hnot : tokens? "not" = some [.word "not"] := rfl
  have htokens := tokens_space hnot hts
  refine ⟨.word "not" :: ts, ?_, .negate hx⟩
  simpa using htokens

theorem conditional {c : String} {z : Expr} (hx : Written OperatorClass.logicalOr.rank a x)
    (hz : Written OperatorClass.logicalOr.rank c z) (hy : Written OperatorClass.conditional.rank b y) :
    Written OperatorClass.conditional.rank (a ++ " if " ++ c ++ " else " ++ b) (.conditional x z y) := by
  obtain ⟨ts, hts, hx⟩ := hx
  obtain ⟨us, hus, hz⟩ := hz
  obtain ⟨vs, hvs, hy⟩ := hy
  have helse : tokens? "else" = some [.word "else"] := rfl
  have hif : tokens? "if" = some [.word "if"] := rfl
  have htokens := tokens_space hts (tokens_space hif (tokens_space hus (tokens_space helse hvs)))
  have hcode : a ++ " if " ++ c ++ " else " ++ b =
      a ++ " " ++ ("if" ++ " " ++ (c ++ " " ++ ("else" ++ " " ++ b))) := by
    rw [← String.toList_inj]
    simp
  refine ⟨_, ?_, .conditional hx hz hy⟩
  rw [hcode, htokens]
  simp

theorem lex_joined {codes : List String} {es : List Expr}
    (h : List.Forall₂ (Written OperatorClass.none.rank) codes es) :
    ∃ items : List (List Token × Expr),
      Pending.idle.lex (Text.joined ", " codes).toList = some (listed (items.map (·.1))) ∧ es = items.map (·.2) ∧
      ∀ p ∈ items, Derives OperatorClass.conditional.level p.1 p.2 := by
  induction h with
  | nil => exact ⟨[], rfl, rfl, by simp⟩
  | @cons code e codes es hcode hrest ih =>
    obtain ⟨ts, hts, hd⟩ := hcode
    obtain ⟨items, htokens, hes, hitems⟩ := ih
    have hall : ∀ p ∈ (ts, e) :: items, Derives OperatorClass.conditional.level p.1 p.2 := by
      intro p hp
      rw [List.mem_cons] at hp
      obtain rfl | hp := hp
      · exact hd.tighten
      · exact hitems p hp
    refine ⟨(ts, e) :: items, ?_, by simp [hes], hall⟩
    cases hrest with
    | nil =>
      cases items with
      | nil => exact (of_tokens hts).2
      | cons p items => simp at hes
    | @cons code' e' codes es _ _ =>
      cases items with
      | nil => simp at hes
      | cons p items => exact lex_comma (of_tokens hts).2 htokens

theorem call {f : String} {z : Expr} (hf : Written OperatorClass.functionCall.rank f z) (codes : List String)
    {es : List Expr} (h : List.Forall₂ (Written OperatorClass.none.rank) codes es) :
    Written OperatorClass.functionCall.rank (f ++ "(" ++ Text.joined ", " codes ++ ")") (.call z es) := by
  obtain ⟨ts, hts, hz⟩ := hf
  obtain ⟨items, htokens, rfl, hitems⟩ := lex_joined h
  exact ⟨_, tokens_call hts htokens, .call items hz hitems⟩

end Written

/-- Operands in a row between the words of a connection. -/
def Row (c : Connection) (ts : List Token) (operands : List Expr) : Prop :=
  ∃ p : List Token × Expr, ∃ items : List (List Token × Expr), ts = p.1 ++ chained c (items.map (·.1)) ∧
    operands = p.2 :: items.map (·.2) ∧ Derives (c.kind.level - 1) p.1 p.2 ∧
    ∀ q ∈ items, Derives (c.kind.level - 1) q.1 q.2

def WrittenRow (c : Connection) (code : String) (operands : List Expr) : Prop :=
  ∃ ts, tokens? code = some ts ∧ Row c ts operands

namespace Expr

/-- The operands that an expression adds to a connection around it. -/
def operands (c : Connection) : Expr → List Expr
  | connect d es => if d = c then es else [connect d es]
  | e => [e]

/-- A connection of two operands, whose own operands of the same connection stand in the same row. -/
def join (c : Connection) (x y : Expr) : Expr :=
  connect c (x.operands c ++ y.operands c)

def IsConnect (c : Connection) (e : Expr) : Prop :=
  ∃ es, e = connect c es

theorem operands_of_not {c : Connection} {e : Expr} (h : ¬ e.IsConnect c) : e.operands c = [e] := by
  cases e with
  | connect d es =>
    have hd : d ≠ c := by
      rintro rfl
      exact h ⟨es, rfl⟩
    simp [operands, hd]
  | _ => rfl

end Expr

/-- A phrase of the level of a connection that is none is a phrase of the level below. -/
theorem Derives.below_connection {c : Connection} {ts : List Token} (h : Derives c.kind.level ts e)
    (he : ¬ e.IsConnect c) : Derives (c.kind.level - 1) ts e := by
  generalize hr : c.kind.level = r at h
  cases h with
  | looser h => simpa [hr] using h
  | @connect d _ _ items h hne hitems =>
    have hd : d = c := by
      cases c <;> cases d <;> first | rfl | exact absurd hr (by decide)
    subst hd
    exact absurd ⟨_, rfl⟩ he
  | binary op _ _ => exact absurd hr (by cases c <;> cases op <;> decide)
  | _ => exact absurd hr (by cases c <;> decide)

theorem Row.append {c : Connection} {ts us : List Token} {xs ys : List Expr} (hx : Row c ts xs) (hy : Row c us ys) :
    Derives c.kind.level (ts ++ .word c.word :: us) (.connect c (xs ++ ys)) := by
  obtain ⟨p, items, rfl, rfl, hp, hitems⟩ := hx
  obtain ⟨q, others, rfl, rfl, hq, hothers⟩ := hy
  have hall : ∀ r ∈ items ++ q :: others, Derives (c.kind.level - 1) r.1 r.2 := by
    intro r hr
    rw [List.mem_append, List.mem_cons] at hr
    obtain hr | rfl | hr := hr
    · exact hitems r hr
    · exact hq
    · exact hothers r hr
  have hderives := Derives.connect c (items ++ q :: others) hp (by simp) hall
  simpa [chained] using hderives

theorem WrittenRow.append {c : Connection} {xs ys : List Expr} (hx : WrittenRow c a xs) (hy : WrittenRow c b ys) :
    ∃ ts, tokens? (a ++ " " ++ c.word ++ " " ++ b) = some ts ∧
      Derives c.kind.level ts (.connect c (xs ++ ys)) ∧ Row c ts (xs ++ ys) := by
  obtain ⟨ts, hts, hx⟩ := hx
  obtain ⟨us, hus, hy⟩ := hy
  have hword : tokens? c.word = some [.word c.word] := by cases c <;> rfl
  have htokens := tokens_space hts (tokens_space hword hus)
  refine ⟨ts ++ .word c.word :: us, ?_, hx.append hy, ?_⟩
  · simpa [String.append_assoc] using htokens
  · obtain ⟨p, items, rfl, rfl, hp, hitems⟩ := hx
    obtain ⟨q, others, rfl, rfl, hq, hothers⟩ := hy
    refine ⟨p, items ++ q :: others, by simp [chained], by simp, hp, ?_⟩
    intro r hr
    rw [List.mem_append, List.mem_cons] at hr
    obtain hr | rfl | hr := hr
    · exact hitems r hr
    · exact hq
    · exact hothers r hr

/-- What a rule gives for an expression: a text with a rank that fits into every slot. A number without
finite value has the rank of an atom although it is a call. -/
structure Emits (code : String) (rank : Rank) (e : Expr) : Prop where
  written : Written (max rank OperatorClass.functionCall.rank) code e
  row : ∀ c es, e = .connect c es → rank = c.kind.rank ∧ WrittenRow c code es

namespace Emits

variable {rank outer : Rank}

theorem of_written (h : Written rank code e) (he : ∀ c, ¬ e.IsConnect c) : Emits code rank e :=
  ⟨h.mono (le_max_left _ _), fun c es hes => absurd ⟨es, hes⟩ (he c)⟩

/-- In a slot, an expression is a phrase of the level of the slot, if its rank is right or the slot takes calls. -/
theorem slot (h : Emits code rank e) (ho : ¬ Written rank code e → OperatorClass.functionCall.rank ≤ outer) :
    Written outer (Rank.parenthesize code rank outer) e := by
  have hne : code.isEmpty = false := by
    simpa [String.isEmpty_iff] using h.written.ne_empty
  unfold Rank.parenthesize Rank.needsParens
  by_cases hr : outer < rank
  · simpa [hne, hr] using h.written.parens.loosen outer
  · rw [not_lt] at hr
    have hw : Written outer code e := by
      by_cases hrank : Written rank code e
      · exact hrank.mono hr
      · exact h.written.mono (max_le hr (ho hrank))
    simpa [hne, hr.not_gt] using hw

/-- In a slot of a connection, an expression adds its operands to the row. -/
theorem row_slot (h : Emits code rank e) (c : Connection) :
    WrittenRow c (Rank.parenthesize code rank c.kind.rank) (e.operands c) := by
  by_cases he : e.IsConnect c
  · obtain ⟨es, rfl⟩ := he
    obtain ⟨rfl, hrow⟩ := h.row c es rfl
    have hsame : Rank.parenthesize code c.kind.rank c.kind.rank = code := by
      simp [Rank.parenthesize, Rank.needsParens]
    rw [hsame]
    simpa [Expr.operands] using hrow
  · have hslot : Written c.kind.rank (Rank.parenthesize code rank c.kind.rank) e := h.slot fun _ => by cases c <;> decide
    obtain ⟨ts, hts, hd⟩ := hslot
    refine ⟨ts, hts, (ts, e), [], by simp [chained], ?_, hd.below_connection he, by simp⟩
    simpa using Expr.operands_of_not he

end Emits

end BlockScript
