import Mathlib.Algebra.Order.Floor.Semiring
import BlockScript.Proofs.ReadBack
import BlockScript.Proofs.Writing

namespace BlockScript

open Text

/-- The value of a numeral in a program. Digits alone are a whole number of any size; any other numeral is a binary64
number. -/
def numeralValue? (s : String) : Option Rat :=
  if s.toList.all Char.isDigit then some (digitsValue s.toList : Rat) else (Double.ofText? s).bind Double.toRat?

/-- The expression speaks of a name. -/
inductive Expr.Names : Expr → String → Prop where
  | name (x : String) : Names (.name x) x
  | member {e : Expr} {x : String} (s : String) : e.Names x → Names (.member e s) x
  | callee {f : Expr} {x : String} (args : List Expr) : f.Names x → Names (.call f args) x
  | argument {e : Expr} {args : List Expr} {x : String} (f : Expr) : e ∈ args → e.Names x → Names (.call f args) x
  | left {a : Expr} {x : String} (op : BinaryOp) (b : Expr) : a.Names x → Names (.binary op a b) x
  | right {b : Expr} {x : String} (op : BinaryOp) (a : Expr) : b.Names x → Names (.binary op a b) x
  | signed {e : Expr} {x : String} (s : String) : e.Names x → Names (.sign s e) x
  | compared {a : Expr} {x : String} (rest : List (String × Expr)) : a.Names x → Names (.compare a rest) x
  | comparand {p : String × Expr} {rest : List (String × Expr)} {x : String} (a : Expr) : p ∈ rest → p.2.Names x →
      Names (.compare a rest) x
  | negated {e : Expr} {x : String} : e.Names x → Names (.negate e) x
  | operand {e : Expr} {operands : List Expr} {x : String} (c : Connection) : e ∈ operands → e.Names x →
      Names (.connect c operands) x
  | value {a : Expr} {x : String} (c b : Expr) : a.Names x → Names (.conditional a c b) x
  | condition {c : Expr} {x : String} (a b : Expr) : c.Names x → Names (.conditional a c b) x
  | other {b : Expr} {x : String} (a c : Expr) : b.Names x → Names (.conditional a c b) x

/-- Where an expression is evaluated: what is read where nothing is computed, and the texts of the functions. -/
structure Surroundings where
  reading : Expr → Option Rat
  texts : String → Option String

/-- A comparison of two numbers. -/
def compare? (symbol : String) (a b : Rat) : Option Bool :=
  [("<", decide (a < b)), (">", decide (b < a)), ("==", decide (a = b)), ("!=", decide (a ≠ b)), ("<=", decide (a ≤ b)),
    (">=", decide (b ≤ a))].lookup symbol

namespace Surroundings

variable {ρ ρ' : Surroundings}

/-- The value of an expression in exact arithmetic, where the conversion of a number to a binary64 number changes
nothing. -/
def amount (ρ : Surroundings) : Expr → Option Rat
  | .numeral s => numeralValue? s
  | .sign s e => if s = "-" then (ρ.amount e).map (-·) else if s = "+" then ρ.amount e else ρ.reading (.sign s e)
  | .call (.name f) [e] =>
    if f = "float" then ρ.amount e
    else if f = "abs" then (ρ.amount e).map (|·|)
    else ρ.reading (.call (.name f) [e])
  | e => ρ.reading e

def holds? (ρ : Surroundings) : Expr → Option Bool
  | .compare x [(symbol, y)] => do compare? symbol (← ρ.amount x) (← ρ.amount y)
  | _ => none

@[simp] theorem amount_numeral (s : String) : ρ.amount (.numeral s) = numeralValue? s := rfl

@[simp] theorem amount_name (x : String) : ρ.amount (.name x) = ρ.reading (.name x) := rfl

@[simp] theorem amount_minus (e : Expr) : ρ.amount (.sign "-" e) = (ρ.amount e).map (-·) := rfl

@[simp] theorem amount_float (e : Expr) : ρ.amount (.call (.name "float") [e]) = ρ.amount e := rfl

@[simp] theorem amount_abs (e : Expr) : ρ.amount (.call (.name "abs") [e]) = (ρ.amount e).map (|·|) := rfl

/-- The same but for the listed names. -/
def SameBut (names : List String) (ρ ρ' : Surroundings) : Prop :=
  (∀ e, (∀ x ∈ names, ¬ e.Names x) → ρ'.reading e = ρ.reading e) ∧ ∀ x ∉ names, ρ'.texts x = ρ.texts x

theorem SameBut.amount {names : List String} (h : SameBut names ρ ρ') {e : Expr} (he : ∀ x ∈ names, ¬ e.Names x) :
    ρ'.amount e = ρ.amount e := by
  fun_induction Surroundings.amount ρ e with
  | case1 s => rw [amount_numeral]
  | case2 e ih =>
    rw [amount_minus, ih fun x hx hn => he x hx (.signed _ hn)]
  | case3 e hs ih => rw [Surroundings.amount, if_neg hs, if_pos rfl, ih fun x hx hn => he x hx (.signed _ hn)]
  | case4 s e hm hp => rw [Surroundings.amount, if_neg hm, if_neg hp, h.1 _ he]
  | case5 e ih => rw [amount_float, ih fun x hx hn => he x hx (.argument _ (by simp) hn)]
  | case6 e hf ih => rw [amount_abs, ih fun x hx hn => he x hx (.argument _ (by simp) hn)]
  | case7 f e hf ha => rw [Surroundings.amount, if_neg hf, if_neg ha, h.1 _ he]
  | case8 e =>
    rw [Surroundings.amount]
    · exact h.1 _ he
    all_goals assumption

/-- One of the names stands for a number from now on. -/
def Assigned (x : String) (q : Rat) (ρ ρ' : Surroundings) : Prop :=
  SameBut [x] ρ ρ' ∧ ρ'.reading (.name x) = some q

/-- The lines that assign an expression each lead from one state to the other. -/
inductive Leads : List (String × String) → Surroundings → Surroundings → Prop where
  | nil (ρ : Surroundings) : Leads [] ρ ρ
  | cons {x code : String} {rest : List (String × String)} {e : Expr} {q : Rat} {ρ₁ ρ₂ ρ₃ : Surroundings} :
      Parses code e → ρ₁.amount e = some q → Assigned x q ρ₁ ρ₂ → Leads rest ρ₂ ρ₃ →
      Leads ((x, code) :: rest) ρ₁ ρ₃

theorem SameBut.trans {xs ys : List String} {ρ₁ ρ₂ ρ₃ : Surroundings} (h : SameBut xs ρ₁ ρ₂) (h' : SameBut ys ρ₂ ρ₃) :
    SameBut (xs ++ ys) ρ₁ ρ₃ := by
  refine ⟨fun e he => ?_, fun x hx => ?_⟩
  · rw [h'.1 e fun x hx => he x (List.mem_append_right _ hx), h.1 e fun x hx => he x (List.mem_append_left _ hx)]
  · rw [List.mem_append, not_or] at hx
    rw [h'.2 x hx.2, h.2 x hx.1]

theorem exists_assigned (ρ : Surroundings) (x : String) (q : Rat) : ∃ ρ', Assigned x q ρ ρ' := by
  let reading : Expr → Option Rat
    | .name y => if y = x then some q else ρ.reading (.name y)
    | e => ρ.reading e
  refine ⟨⟨reading, ρ.texts⟩, ⟨fun e he => ?_, fun _ _ => rfl⟩, if_pos rfl⟩
  cases e with
  | name y =>
    have hne : y ≠ x := by
      rintro rfl
      exact he y (by simp) (.name y)
    exact if_neg hne
  | _ => rfl

/-- The lines can be run where the names that they assign do not occur in their expressions. -/
theorem exists_leads {lines : List (String × String)} (h : ∀ p ∈ lines, ∃ e q, Parses p.2 e ∧ ρ.amount e = some q ∧
    ∀ x ∈ lines.map Prod.fst, ¬ e.Names x) : ∃ ρ', Leads lines ρ ρ' := by
  induction lines generalizing ρ with
  | nil => exact ⟨ρ, .nil ρ⟩
  | cons p lines ih =>
    obtain ⟨e, q, he, hq, -⟩ := h p (by simp)
    obtain ⟨ρ₁, hassigned⟩ := exists_assigned ρ p.1 q
    have hrest : ∃ ρ', Leads lines ρ₁ ρ' := by
      apply ih
      intro p' hp'
      obtain ⟨e', q', he', hq', hfree⟩ := h p' (by simp [hp'])
      refine ⟨e', q', he', ?_, fun x hx => hfree x (List.mem_cons_of_mem _ hx)⟩
      rw [hassigned.1.amount fun x hx => hfree x (by rw [List.mem_singleton.mp hx]; simp), hq']
    obtain ⟨ρ₂, hrest⟩ := hrest
    exact ⟨ρ₂, .cons he hq hassigned hrest⟩

/-- After the lines, their names stand for what their expressions were before. -/
theorem Leads.reads {lines : List (String × String)} (h : Leads lines ρ ρ') (hnodup : (lines.map Prod.fst).Nodup)
    (hfree : ∀ p ∈ lines, ∀ e, Parses p.2 e → ∀ x ∈ lines.map Prod.fst, ¬ e.Names x) :
    SameBut (lines.map Prod.fst) ρ ρ' ∧ ∀ p ∈ lines, ∃ e, Parses p.2 e ∧ ρ'.reading (.name p.1) = ρ.amount e := by
  induction h with
  | nil ρ => exact ⟨⟨fun _ _ => rfl, fun _ _ => rfl⟩, by simp⟩
  | @cons x code rest e q ρ₁ ρ₂ ρ₃ he hq hassigned _ ih =>
    rw [List.map_cons, List.nodup_cons] at hnodup
    obtain ⟨hsame, hreads⟩ := ih hnodup.2 fun p hp e he y hy =>
      hfree p (by simp [hp]) e he y (List.mem_cons_of_mem _ hy)
    refine ⟨hassigned.1.trans hsame, fun p hp => ?_⟩
    obtain rfl | hp := List.mem_cons.mp hp
    · refine ⟨e, he, ?_⟩
      rw [hq, ← hassigned.2, hsame.1]
      intro y hy hnames
      cases hnames
      exact hnodup.1 hy
    · obtain ⟨e', he', hread⟩ := hreads p hp
      refine ⟨e', he', ?_⟩
      rw [hread, hassigned.1.amount]
      intro y hy
      exact hfree p (by simp [hp]) e' he' y (by rw [List.mem_singleton.mp hy]; simp)

/-- The surroundings of the expressions in a function whose variables have values. -/
def within (ρ : Surroundings) (values : String → Option Rat) : Surroundings where
  reading
    | .name x => values x <|> ρ.reading (.name x)
    | e => ρ.reading e
  texts := ρ.texts

end Surroundings

/-- A function that gives numbers one by one: as long as a condition holds, it gives one and changes a counter. -/
structure Counter where
  first : String
  last : String
  step : String
  condition : String
  given : String
  counter : String
  operator : String
  change : String

namespace Counter

/-- The lines of a function. -/
def text (f : Counter) (indent name : String) : String :=
  "def " ++ name ++ "(" ++ (f.first ++ ", " ++ (f.last ++ ", " ++ (f.step ++ "):\n" ++
    (indent ++ "while " ++ (f.condition ++ ":\n" ++
      (indent ++ indent ++ "yield " ++ (f.given ++ "\n" ++
        (indent ++ indent ++ (f.counter ++ " " ++ (f.operator ++ "= " ++ f.change))))))))))

/-- The parts of a function hold nothing that ends them in its text. -/
structure Readable (f : Counter) : Prop where
  first : ',' ∉ f.first.toList
  last : ',' ∉ f.last.toList
  step : ')' ∉ f.step.toList
  condition : ':' ∉ f.condition.toList
  given : '\n' ∉ f.given.toList
  counter : ' ' ∉ f.counter.toList
  operator : '=' ∉ f.operator.toList

/-- What stands in front of a mark can be told from what follows. -/
theorem append_mark_inj {mark : String} {c : Char} (hmark : mark.toList.head? = some c) {a b a' b' : String}
    (ha : c ∉ a.toList) (ha' : c ∉ a'.toList) (h : a ++ mark ++ b = a' ++ mark ++ b') : a = a' ∧ b = b' := by
  have hlist := congrArg (fun s => s.toList.takeWhile (· != c)) h
  have hstop : ∀ {l r : String}, c ∉ l.toList → (l ++ mark ++ r).toList.takeWhile (· != c) = l.toList := by
    intro l r hl
    have hall : ∀ d ∈ l.toList, (d != c) = true := by
      intro d hd
      rw [bne_iff_ne]
      rintro rfl
      exact hl hd
    rw [String.append_assoc, String.toList_append, List.takeWhile_append_of_pos hall, String.toList_append]
    cases hm : mark.toList with
    | nil => simp [hm] at hmark
    | cons d ds =>
      rw [hm] at hmark
      cases hmark
      simp
  rw [hstop ha, hstop ha', String.toList_inj] at hlist
  subst hlist
  exact ⟨rfl, (String.append_right_inj _).mp h⟩

/-- A function can be read off its text. -/
theorem Readable.eq_of_text {f g : Counter} (hf : f.Readable) (hg : g.Readable) {indent name : String}
    (h : f.text indent name = g.text indent name) : f = g := by
  obtain ⟨hfirst, h⟩ := append_mark_inj rfl hf.first hg.first ((String.append_right_inj _).mp h)
  obtain ⟨hlast, h⟩ := append_mark_inj rfl hf.last hg.last h
  obtain ⟨hstep, h⟩ := append_mark_inj rfl hf.step hg.step h
  obtain ⟨hcondition, h⟩ := append_mark_inj rfl hf.condition hg.condition ((String.append_right_inj _).mp h)
  obtain ⟨hgiven, h⟩ := append_mark_inj rfl hf.given hg.given ((String.append_right_inj _).mp h)
  obtain ⟨hcounter, h⟩ := append_mark_inj rfl hf.counter hg.counter ((String.append_right_inj _).mp h)
  obtain ⟨hoperator, hchange⟩ := append_mark_inj rfl hf.operator hg.operator h
  cases f
  cases g
  simp only at *
  subst hfirst hlast hstep hcondition hgiven hcounter hoperator hchange
  rfl

/-- The values of the parameters. -/
def arguments (f : Counter) (a b c : Rat) : String → Option Rat :=
  fun x => [(f.first, a), (f.last, b), (f.step, c)].lookup x

end Counter

/-- A number and those behind it at equal distances, as long as a condition holds. -/
def Progression (p : Rat → Prop) (a d : Rat) (xs : List Rat) : Prop :=
  ∃ k : Nat, xs = (List.range k).map (fun i : Nat => a + i * d) ∧ (∀ i < k, p (a + i * d)) ∧ ¬ p (a + k * d)

namespace Progression

variable {p q : Rat → Prop} {a d : Rat} {xs ys : List Rat}

theorem unique (hx : Progression p a d xs) (hy : Progression p a d ys) : xs = ys := by
  obtain ⟨k, rfl, hk, hend⟩ := hx
  obtain ⟨l, rfl, hl, hend'⟩ := hy
  have hkl : k = l := by
    by_contra hne
    obtain hlt | hgt := Nat.lt_or_gt_of_ne hne
    · exact hend (hl k hlt)
    · exact hend' (hk l hgt)
  rw [hkl]

/-- Only the condition at the numbers themselves matters. -/
theorem congr (h : Progression p a d xs) (hpq : ∀ i : Nat, p (a + i * d) ↔ q (a + i * d)) : Progression q a d xs := by
  obtain ⟨k, hxs, hk, hend⟩ := h
  exact ⟨k, hxs, fun i hi => (hpq i).mp (hk i hi), fun hq => hend ((hpq k).mpr hq)⟩

end Progression

/-- A number, and then up or down to another one in equal steps, which takes its end if a step meets it. -/
def counted (a b c : Rat) : List Rat :=
  (List.range (⌊|b - a| / |c|⌋₊ + 1)).map fun i : Nat => if a ≤ b then a + i * |c| else a - i * |c|

theorem counted_up {a b c : Rat} (hc : c ≠ 0) (h : a ≤ b) : Progression (· ≤ b) a |c| (counted a b c) := by
  have hpos : 0 < |c| := abs_pos.mpr hc
  have hdistance : |b - a| = b - a := abs_of_nonneg (by linarith)
  have hwithin : 0 ≤ (b - a) / |c| := div_nonneg (by linarith) hpos.le
  refine ⟨⌊|b - a| / |c|⌋₊ + 1, ?_, fun i hi => ?_, ?_⟩
  · simp only [counted, if_pos h]
  · have hfloor : (i : Rat) ≤ (b - a) / |c| := by
      rw [hdistance] at hi
      exact (Nat.le_floor_iff hwithin).mp (by omega)
    rw [le_div_iff₀ hpos] at hfloor
    linarith
  · rw [hdistance, not_le]
    have hlt := Nat.lt_floor_add_one ((b - a) / |c|)
    rw [div_lt_iff₀ hpos] at hlt
    push_cast
    linarith

theorem counted_down {a b c : Rat} (hc : c ≠ 0) (h : b ≤ a) : Progression (b ≤ ·) a (-|c|) (counted a b c) := by
  have hpos : 0 < |c| := abs_pos.mpr hc
  have hdistance : |b - a| = a - b := by
    rw [abs_of_nonpos (by linarith)]
    ring
  have hwithin : 0 ≤ (a - b) / |c| := div_nonneg (by linarith) hpos.le
  refine ⟨⌊|b - a| / |c|⌋₊ + 1, ?_, fun i hi => ?_, ?_⟩
  · refine List.map_congr_left fun i hi => ?_
    split
    · -- start and end are the same
      rename_i hle
      obtain rfl : a = b := le_antisymm hle h
      obtain rfl : i = 0 := by simpa using hi
      simp
    · ring
  · have hfloor : (i : Rat) ≤ (a - b) / |c| := by
      rw [hdistance] at hi
      exact (Nat.le_floor_iff hwithin).mp (by omega)
    rw [le_div_iff₀ hpos] at hfloor
    linarith
  · rw [hdistance, not_le]
    have hlt := Nat.lt_floor_add_one ((a - b) / |c|)
    rw [div_lt_iff₀ hpos] at hlt
    push_cast
    linarith

/-- The start, the end before which a range ends, and the step of a range. -/
def rangeBounds? : List Rat → Option (Rat × Rat × Rat)
  | [b] => some (0, b, 1)
  | [a, b] => some (a, b, 1)
  | [a, b, c] => some (a, b, c)
  | _ => none

namespace Surroundings

variable {ρ : Surroundings} {indent : String}

/-- The numbers that a function gives from certain values of its variables on. -/
inductive Yields (ρ : Surroundings) (f : Counter) : (String → Option Rat) → List Rat → Prop where
  | stop {values : String → Option Rat} {c : Expr} : Parses f.condition c →
      (ρ.within values).holds? c = some false → Yields ρ f values []
  | next {values : String → Option Rat} {c e d : Expr} {v w z : Rat} {xs : List Rat} : Parses f.condition c →
      (ρ.within values).holds? c = some true → Parses f.given e → (ρ.within values).amount e = some v →
      Parses f.change d → (ρ.within values).amount d = some w → values f.counter = some z →
      Yields ρ f (Function.update values f.counter (some (if f.operator = "+" then z + w else z - w))) xs →
      Yields ρ f values (v :: xs)

/-- The numbers that a loop over an expression goes through. -/
inductive Iterates (ρ : Surroundings) (indent : String) : Expr → List Rat → Prop where
  | range {args : List Expr} {vs : List Rat} {a b c : Int} {xs : List Rat} :
      args.mapM ρ.amount = some vs → rangeBounds? vs = some ((a : Rat), (b : Rat), (c : Rat)) → c ≠ 0 →
      Progression (fun x => if 0 < c then x < b else b < x) a c xs → Iterates ρ indent (.call (.name "range") args) xs
  | function {x text : String} {f : Counter} {e₁ e₂ e₃ : Expr} {a b c : Rat} {xs : List Rat} : x ≠ "range" →
      ρ.texts x = some text → f.Readable → text = f.text indent x → ρ.amount e₁ = some a → ρ.amount e₂ = some b →
      ρ.amount e₃ = some c → Yields ρ f (f.arguments a b c) xs →
      Iterates ρ indent (.call (.name x) [e₁, e₂, e₃]) xs
  | chosen {f c g : Expr} {args : List Expr} {xs : List Rat} : ρ.holds? c = some true →
      Iterates ρ indent (.call f args) xs → Iterates ρ indent (.call (.conditional f c g) args) xs
  | other {f c g : Expr} {args : List Expr} {xs : List Rat} : ρ.holds? c = some false →
      Iterates ρ indent (.call g args) xs → Iterates ρ indent (.call (.conditional f c g) args) xs

theorem Yields.unique {f : Counter} {values : String → Option Rat} {xs ys : List Rat} (hx : ρ.Yields f values xs)
    (hy : ρ.Yields f values ys) : xs = ys := by
  induction hx generalizing ys with
  | stop hc hstop =>
    cases hy with
    | stop _ _ => rfl
    | next hc' hgo =>
      obtain rfl := hc.unique hc'
      rw [hstop] at hgo
      cases hgo
  | next hc hgo he hv hd hw hz hrest ih =>
    cases hy with
    | stop hc' hstop =>
      obtain rfl := hc.unique hc'
      rw [hgo] at hstop
      cases hstop
    | next hc' hgo' he' hv' hd' hw' hz' hrest' =>
      obtain rfl := he.unique he'
      obtain rfl := hd.unique hd'
      obtain rfl := Option.some.inj (hv.symm.trans hv')
      obtain rfl := Option.some.inj (hw.symm.trans hw')
      obtain rfl := Option.some.inj (hz.symm.trans hz')
      rw [ih hrest']

theorem Iterates.unique {e : Expr} {xs ys : List Rat} (hx : ρ.Iterates indent e xs) (hy : ρ.Iterates indent e ys) :
    xs = ys := by
  induction hx generalizing ys with
  | range hvs hbounds hc hxs =>
    cases hy with
    | range hvs' hbounds' hc' hys =>
      obtain rfl := Option.some.inj (hvs.symm.trans hvs')
      have hsame := Option.some.inj (hbounds.symm.trans hbounds')
      simp only [Prod.mk.injEq, Int.cast_inj] at hsame
      obtain ⟨rfl, rfl, rfl⟩ := hsame
      exact hxs.unique hys
    | function hne => exact absurd rfl hne
  | function hne htext hf hread ha hb hc hxs =>
    cases hy with
    | range => exact absurd rfl hne
    | function _ htext' hf' hread' ha' hb' hc' hys =>
      obtain rfl := Option.some.inj (ha.symm.trans ha')
      obtain rfl := Option.some.inj (hb.symm.trans hb')
      obtain rfl := Option.some.inj (hc.symm.trans hc')
      obtain rfl := hf.eq_of_text hf' (hread.symm.trans ((Option.some.inj (htext.symm.trans htext')).trans hread'))
      exact hxs.unique hys
  | chosen hgo _ ih =>
    cases hy with
    | chosen _ hys => exact ih hys
    | other hno => exact absurd (hgo.symm.trans hno) (by simp)
  | other hno _ ih =>
    cases hy with
    | other _ hys => exact ih hys
    | chosen hgo => exact absurd (hno.symm.trans hgo) (by simp)

end Surroundings

end BlockScript
