import BlockScript.Proofs.Iteration
import BlockScript.Proofs.Scripts
import BlockScript.Proofs.Texts
import BlockScript.Proofs.ValueRules

namespace BlockScript

open Text

variable {ρ : Surroundings} {a b c : Rat}

theorem numeralValue_nat (k : Nat) : numeralValue? (toString k) = some (k : Rat) := by
  have hdigits : (toString k).toList.all Char.isDigit = true := List.all_eq_true.mpr (toString_digits k)
  rw [numeralValue?, if_pos hdigits, Nat.toString_eq_ofList_toDigits, String.toList_ofList, digitsValue_toDigits]

/-- The text of a whole number is that number. -/
theorem written_int (n : Int) : ∃ e, Written OperatorClass.unarySign.rank (toString n) e ∧
    ∀ ρ : Surroundings, ρ.amount e = some (n : Rat) := by
  cases n with
  | ofNat k =>
    refine ⟨.numeral (toString k), Written.digits (tokens_nat k) _, fun ρ => ?_⟩
    rw [Surroundings.amount_numeral, numeralValue_nat]
    rfl
  | negSucc k =>
    refine ⟨.sign "-" (.numeral (toString (k + 1))), (Written.digits (tokens_nat (k + 1)) _).minus, fun ρ => ?_⟩
    rw [Surroundings.amount_minus, Surroundings.amount_numeral, numeralValue_nat, Int.cast_negSucc]
    rfl

namespace Double

theorem whole_eq_some {d : Double} {k : Int} (h : d.whole? = some k) : d.toRat? = some (k : Rat) := by
  unfold whole? at h
  split at h
  · rename_i r hr
    split at h
    · rename_i hden
      cases h
      rw [hr, Rat.coe_int_num_of_den_eq_one hden]
    · cases h
  · cases h

/-- Zero has no fraction. -/
theorem mantissa_pos {negative : Bool} {m : Nat} {e : Int} (h : whole? (finite negative m e) = none) : 0 < m := by
  by_contra hm
  obtain rfl : m = 0 := by omega
  have hzero : scaled 0 2 e = 0 := by
    rw [scaled_eq (by norm_num)]
    simp
  simp [whole?, toRat?, hzero] at h

/-- The text of a number with a fraction is more than digits. -/
theorem not_all_digits_layout {ds : List Char} (x : Int) : (layout ds x).all Char.isDigit = false := by
  have hpoint : Char.isDigit '.' = false := by decide
  have hletter : Char.isDigit 'e' = false := by decide
  unfold layout
  dsimp only
  split
  · simp [hletter]
  · split
    · simp [hpoint]
    · simp [hpoint]

theorem numeralValue_positiveText {m : Nat} {e : Int} (hm : 0 < m) (hcanonical : Canonical m e) :
    numeralValue? (positiveText m e) = some (scaled m 2 e) := by
  have hdigits : (positiveText m e).toList.all Char.isDigit = false := by
    rw [positiveText, String.toList_ofList]
    exact not_all_digits_layout _
  rw [numeralValue?, if_neg (by simp [hdigits]), ofText_positiveText hm hcanonical]
  rfl

theorem text_eq {negative : Bool} {m : Nat} (hm : 0 < m) (e : Int) :
    text (finite negative m e) = (if negative then "-" else "") ++ positiveText m e := by
  simp [text, hm.ne', positiveText]

theorem tokens_positiveText {m : Nat} (hm : 0 < m) (e : Int) :
    tokens? (positiveText m e) = some [.numeral (positiveText m e)] := by
  obtain ⟨s, hs, htext⟩ := tokens_text false m e
  rw [text_eq hm] at htext
  obtain rfl : positiveText m e = s := (String.append_right_inj "").mp htext
  exact hs

/-- Reading gives numbers in their normal form. -/
theorem canonical_of_ofText {s : String} {negative : Bool} {m : Nat} {e : Int}
    (h : ofText? s = some (finite negative m e)) : Canonical m e := by
  have hzero : Canonical 0 minExponent := ⟨by norm_num, le_refl _, by decide, Or.inr rfl⟩
  unfold ofText? at h
  split at h
  · cases h
  · split at h
    · rename_i cs hcs a hread
      obtain h := Option.some.inj h
      unfold Numeral.toDouble at h
      dsimp only at h
      split at h
      · cases h
        exact hzero
      · split at h
        · cases h
        · split at h
          · cases h
            exact hzero
          · refine ofMagnitude_canonical ?_ h
            rw [scaled_eq (by norm_num)]
            positivity
    · unfold namedDouble? at h
      dsimp only at h
      split at h <;> cases h

end Double

namespace Number

/-- The exact value of a number, where it has one. -/
def value? : Number → Option Rat
  | whole n => some n
  | real d => d.toRat?

theorem value_ofDouble (d : Double) : (ofDouble d).value? = d.toRat? := by
  unfold ofDouble
  split
  · rename_i hn
    exact (Double.whole_eq_some hn).symm
  · rfl

/-- A number that reading a text can give, or its absolute value. -/
inductive Readable : Number → Prop where
  | whole (n : Int) : Readable (whole n)
  | real {negative : Bool} {m : Nat} {e : Int} : Double.Canonical m e → Double.whole? (.finite negative m e) = none →
      Readable (real (.finite negative m e))

theorem readable_ofDouble {s : String} {d : Double} (h : Double.ofText? s = some d) (ha : d.toRat? = some a) :
    (ofDouble d).Readable := by
  cases d with
  | finite negative m e =>
    unfold ofDouble
    split
    · exact .whole _
    · rename_i hnone
      exact .real (Double.canonical_of_ofText h) hnone
  | _ => cases ha

theorem Readable.abs {x : Number} (h : x.Readable) : x.abs.Readable := by
  cases h with
  | whole n => exact .whole _
  | @real negative m e hcanonical hnone =>
    refine .real hcanonical ?_
    cases negative with
    | false => exact hnone
    | true => simpa [Double.whole?, Double.toRat?] using hnone

theorem value_abs {x : Number} (ha : x.value? = some a) : x.abs.value? = some |a| := by
  cases x with
  | whole n =>
    obtain rfl := Option.some.inj ha
    simp [Number.abs, value?]
  | real d =>
    cases d with
    | finite negative m e =>
      obtain rfl := Option.some.inj ha
      have hnonneg : 0 ≤ scaled m 2 e := by
        rw [scaled_eq (by norm_num)]
        positivity
      cases negative <;> simp [Number.abs, value?, Double.toRat?, abs_of_nonneg hnonneg]
    | _ => cases ha

theorem lt_eq {x y : Number} (ha : x.value? = some a) (hb : y.value? = some b) : x.lt y = decide (a < b) := by
  have hplace : ∀ {z : Number} {q : Rat}, z.value? = some q → z.place? = some (.point q) := by
    intro z q hq
    cases z with
    | whole n =>
      obtain rfl := Option.some.inj hq
      rfl
    | real d =>
      cases d with
      | finite negative m e =>
        obtain rfl := Option.some.inj hq
        rfl
      | _ => cases hq
  simp [lt, hplace ha, hplace hb, Place.lt]

/-- A number in a program has its own value. -/
theorem Readable.written {x : Number} (h : x.Readable) (ha : x.value? = some a) :
    ∃ e, Written OperatorClass.unarySign.rank x.literal e ∧ ∀ ρ : Surroundings, ρ.amount e = some a := by
  cases h with
  | whole n =>
    obtain rfl := Option.some.inj ha
    exact written_int n
  | @real negative m e hcanonical hnone =>
    have hm := Double.mantissa_pos hnone
    have hliteral : Number.literal (Number.real (.finite negative m e)) = (if negative then "-" else "") ++ Double.positiveText m e := by
      simp only [Number.literal, Double.literal, hnone]
      exact Double.text_eq hm e
    have hwritten := Written.digits (Double.tokens_positiveText hm e) OperatorClass.unarySign.rank
    have hvalue (ρ : Surroundings) : ρ.amount (.numeral (Double.positiveText m e)) = some (scaled m 2 e) := by
      rw [Surroundings.amount_numeral]
      exact Double.numeralValue_positiveText hm hcanonical
    obtain rfl := Option.some.inj ha
    rw [hliteral]
    cases negative with
    | false => exact ⟨_, by simpa using hwritten, hvalue⟩
    | true =>
      refine ⟨_, hwritten.minus, fun ρ => ?_⟩
      rw [Surroundings.amount_minus, hvalue]
      rfl

end Number

theorem Progression.cases {p : Rat → Prop} {d : Rat} {xs : List Rat} (h : Progression p a d xs) :
    xs = [] ∧ ¬ p a ∨ ∃ ys, xs = a :: ys ∧ p a ∧ Progression p (a + d) d ys := by
  obtain ⟨k, rfl, hk, hend⟩ := h
  cases k with
  | zero => exact Or.inl ⟨rfl, by simpa using hend⟩
  | succ k =>
    have hshift (i : Nat) : a + ((i + 1 : Nat) : Rat) * d = a + d + i * d := by
      push_cast
      ring
    apply Or.inr
    refine ⟨(List.range k).map fun i : Nat => a + d + i * d, ?_, by simpa using hk 0 (by omega), k, rfl, ?_, ?_⟩
    · simp only [List.range_succ_eq_map, List.map_cons, List.map_map, Nat.cast_zero, zero_mul, add_zero,
        List.cons.injEq, true_and]
      exact List.map_congr_left fun i _ => hshift i
    · intro i hi
      rw [← hshift]
      exact hk (i + 1) (by omega)
    · rwa [← hshift]

/-- The functions that count, by the comparison that they make and the operator that changes their counter. -/
def counterBy (symbol operator : String) : Counter where
  first := "start"
  last := "stop"
  step := "step"
  condition := "start " ++ symbol ++ " stop"
  given := "start"
  counter := "start"
  operator := operator
  change := "abs(step)"

theorem named_upRange {indent : String} (h : '\x7b' ∉ indent.toList) (x : String) :
    Functions.named x (FunctionText.upRange.text indent) = (counterBy "<=" "+").text indent x := by
  have htext : FunctionText.upRange.text indent = "def " ++ functionMark ++ ("(start, stop, step):\n" ++ indent ++
      "while start <= stop:\n" ++ indent ++ indent ++ "yield start\n" ++ indent ++ indent ++ "start += abs(step)") := by
    rw [← String.toList_inj]
    simp [FunctionText.text, FunctionText.upRange, FunctionText.header, joined, repeated, functionMark]
  rw [htext, Functions.named_eq (by decide) (by simp [h]), ← String.toList_inj]
  simp [counterBy, Counter.text]

theorem named_downRange {indent : String} (h : '\x7b' ∉ indent.toList) (x : String) :
    Functions.named x (FunctionText.downRange.text indent) = (counterBy ">=" "-").text indent x := by
  have htext : FunctionText.downRange.text indent = "def " ++ functionMark ++ ("(start, stop, step):\n" ++ indent ++
      "while start >= stop:\n" ++ indent ++ indent ++ "yield start\n" ++ indent ++ indent ++ "start -= abs(step)") := by
    rw [← String.toList_inj]
    simp [FunctionText.text, FunctionText.downRange, FunctionText.header, joined, repeated, functionMark]
  rw [htext, Functions.named_eq (by decide) (by simp [h]), ← String.toList_inj]
  simp [counterBy, Counter.text]

theorem counterBy_readable {symbol operator : String} (hs : symbol ∈ ["<=", ">="]) (ho : operator ∈ ["+", "-"]) :
    (counterBy symbol operator).Readable := by
  simp only [List.mem_cons, List.not_mem_nil, or_false] at hs ho
  obtain rfl | rfl := hs <;> obtain rfl | rfl := ho <;> exact ⟨by decide, by decide, by decide, by decide, by decide,
    by decide, by decide⟩

/-- A function that counts goes on as long as its comparison holds. -/
theorem Surroundings.yields_counterBy {symbol operator : String} (hs : symbol ∈ comparisonSymbols)
    {p : Rat → Prop} [DecidablePred p] (hp : ∀ x, compare? symbol x b = some (decide (p x)))
    {values : String → Option Rat} (ha : values "start" = some a) (hb : values "stop" = some b)
    (hc : values "step" = some c) {xs : List Rat}
    (h : Progression p a (if operator = "+" then |c| else -|c|) xs) :
    ρ.Yields (counterBy symbol operator) values xs := by
  have hstart : Parses "start" (.name "start") := Written.word rfl (by decide) _
  have hcompare : Written OperatorClass.relational.rank ("start" ++ " " ++ symbol ++ " " ++ "stop")
      (.compare (.name "start") [(symbol, .name "stop")]) :=
    Written.compare hs (Written.word rfl (by decide) _) (Written.word rfl (by decide) _)
  have hcondition : Parses ("start " ++ symbol ++ " stop") (.compare (.name "start") [(symbol, .name "stop")]) :=
    (hcompare.congr (by simp)).parses
  have hchange : Parses "abs(step)" (.call (.name "abs") [.name "step"]) :=
    ((Written.word (s := "abs") rfl (by decide) _).call ["step"] (.cons (Written.word rfl (by decide) _) .nil)).parses
  induction xs generalizing a values with
  | nil =>
    obtain ⟨-, hstop⟩ | ⟨ys, hys, -⟩ := h.cases
    · refine .stop hcondition ?_
      simp [holds?, within, ha, hb, hp, hstop]
    · cases hys
  | cons x xs ih =>
    obtain ⟨hnil, -⟩ | ⟨ys, hys, hgo, hrest⟩ := h.cases
    · cases hnil
    · obtain ⟨rfl, rfl⟩ := List.cons.inj hys
      have hwidth : (ρ.within values).amount (.call (.name "abs") [.name "step"]) = some |c| := by
        simp [within, hc]
      have hcounter : (if operator = "+" then x + |c| else x - |c|) = x + if operator = "+" then |c| else -|c| := by
        split
        · rfl
        · exact sub_eq_add_neg x |c|
      refine .next hcondition ?_ hstart ?_ hchange hwidth ha ?_
      · simp [holds?, within, ha, hb, hp, hgo]
      · simp [within, ha]
      · apply ih
        · exact (Function.update_self "start" _ values).trans (congrArg some hcounter)
        · exact (Function.update_of_ne (show "stop" ≠ "start" by decide) _ values).trans hb
        · exact (Function.update_of_ne (show "step" ≠ "start" by decide) _ values).trans hc
        · exact hrest

theorem Surroundings.yields_up (hc : c ≠ 0) (h : a ≤ b) :
    ρ.Yields (counterBy "<=" "+") ((counterBy "<=" "+").arguments a b c) (counted a b c) := by
  apply yields_counterBy (by decide) (p := (· ≤ b)) (fun x => rfl) rfl rfl rfl
  rw [if_pos rfl]
  exact counted_up hc h

theorem Surroundings.yields_down (hc : c ≠ 0) (h : b ≤ a) :
    ρ.Yields (counterBy ">=" "-") ((counterBy ">=" "-").arguments a b c) (counted a b c) := by
  apply yields_counterBy (by decide) (p := (b ≤ ·)) (fun x => rfl) rfl rfl rfl
  rw [if_neg (by decide)]
  exact counted_down hc h

theorem written_rangeCall {codes : List String} {es : List Expr}
    (hcodes : List.Forall₂ (Written OperatorClass.none.rank) codes es) {vs : List Rat}
    (hvalues : ∀ ρ : Surroundings, es.mapM ρ.amount = some vs) {x y z : Int}
    (hbounds : rangeBounds? vs = some ((x : Rat), (y : Rat), (z : Rat))) (hz : z ≠ 0) {xs : List Rat}
    (hxs : Progression (fun v => if 0 < z then v < y else y < v) x z xs) (indent : String) :
    ∃ e, Parses ("range(" ++ joined ", " codes ++ ")") e ∧ ∀ ρ : Surroundings, ρ.Iterates indent e xs := by
  have hname : Written OperatorClass.functionCall.rank "range" (.name "range") := Written.word rfl (by decide) _
  exact ⟨_, (hname.call codes hcodes).parses, fun ρ => .range (hvalues ρ) hbounds hz hxs⟩

theorem counted_below {first last : Int} {step : Nat} (hstep : step ≠ 0) (hle : first ≤ last) :
    Progression (fun v => if (0 : Int) < step then v < ((last + 1 : Int) : Rat) else ((last + 1 : Int) : Rat) < v)
      (first : Rat) ((step : Int) : Rat) (counted first last step) := by
  have hup := counted_up (a := first) (b := last) (c := step) (by exact_mod_cast hstep) (by exact_mod_cast hle)
  rw [abs_of_nonneg (Nat.cast_nonneg step), ← Int.cast_natCast step] at hup
  refine hup.congr fun i => ?_
  have hwhole : (first : Rat) + i * ((step : Int) : Rat) = ((first + i * step : Int) : Rat) := by
    push_cast
    rfl
  rw [if_pos (by omega), hwhole, Int.cast_le, Int.cast_lt]
  omega

theorem counted_above {first last : Int} {step : Nat} (hstep : step ≠ 0) (hlt : last < first) :
    Progression (fun v => if (0 : Int) < -step then v < ((last - 1 : Int) : Rat) else ((last - 1 : Int) : Rat) < v)
      (first : Rat) ((-step : Int) : Rat) (counted first last step) := by
  have hdown := counted_down (a := first) (b := last) (c := step) (by exact_mod_cast hstep) (by exact_mod_cast hlt.le)
  rw [abs_of_nonneg (Nat.cast_nonneg step), ← Int.cast_natCast step, ← Int.cast_neg] at hdown
  refine hdown.congr fun i => ?_
  have hwhole : (first : Rat) + i * ((-step : Int) : Rat) = ((first + i * -step : Int) : Rat) := by
    push_cast
    rfl
  rw [if_neg (by omega), hwhole, Int.cast_le, Int.cast_lt]
  omega

/-- A range over whole numbers, in each of its forms, counts from one to the other. -/
theorem written_range {step : Nat} (hstep : step ≠ 0) (first last : Int) (indent : String) :
    ∃ e, Parses ("range(" ++ rangeArguments first last step ++ ")") e ∧
      ∀ ρ : Surroundings, ρ.Iterates indent e (counted first last step) := by
  obtain ⟨e₁, hw₁, hv₁⟩ := written_int first
  obtain ⟨e₃, hw₃, hv₃⟩ := written_int step
  replace hw₃ : Written OperatorClass.unarySign.rank (toString step) e₃ := hw₃
  have hnone : OperatorClass.unarySign.rank ≤ OperatorClass.none.rank := by decide
  by_cases hle : first ≤ last
  · obtain ⟨e₂, hw₂, hv₂⟩ := written_int (last + 1)
    have hbelow := counted_below hstep hle
    by_cases hone : step = 1
    · subst hone
      by_cases hzero : first = 0
      · have htext : rangeArguments first last 1 = joined ", " [toString (last + 1)] := by
          rw [rangeArguments, if_pos hle, if_pos ⟨hzero, rfl⟩]
          simp [joined]
        subst hzero
        rw [htext]
        apply written_rangeCall (.cons (hw₂.mono hnone) .nil) (fun ρ => by simp [hv₂ ρ]; rfl) _ _ hbelow
        · simp [rangeBounds?]
        · decide
      · have htext : rangeArguments first last 1 = joined ", " [toString first, toString (last + 1)] := by
          simp [rangeArguments, joined, hle, hzero]
        rw [htext]
        apply written_rangeCall (.cons (hw₁.mono hnone) (.cons (hw₂.mono hnone) .nil))
          (fun ρ => by simp [hv₁ ρ, hv₂ ρ]; rfl) _ _ hbelow
        · simp [rangeBounds?]
        · decide
    · have htext : rangeArguments first last step =
          joined ", " [toString first, toString (last + 1), toString step] := by
        rw [← String.toList_inj]
        simp [rangeArguments, joined, hle, hone]
      rw [htext]
      apply written_rangeCall (.cons (hw₁.mono hnone) (.cons (hw₂.mono hnone) (.cons (hw₃.mono hnone) .nil)))
        (fun ρ => by simp [hv₁ ρ, hv₂ ρ, hv₃ ρ]; rfl) _ _ hbelow
      · simp [rangeBounds?]
      · omega
  · obtain ⟨e₂, hw₂, hv₂⟩ := written_int (last - 1)
    have habove := counted_above hstep (not_le.mp hle)
    have htext : rangeArguments first last step =
        joined ", " [toString first, toString (last - 1), "-" ++ toString step] := by
      rw [← String.toList_inj]
      simp [rangeArguments, joined, hle]
    rw [htext]
    apply written_rangeCall (.cons (hw₁.mono hnone) (.cons (hw₂.mono hnone) (.cons (hw₃.minus.mono hnone) .nil)))
      (fun ρ => by simp [hv₁ ρ, hv₂ ρ, hv₃ ρ]; rfl) _ _ habove
    · simp [rangeBounds?]
    · omega

namespace Surroundings

/-- A text that can be an operand has a value. -/
def Shows (ρ : Surroundings) (code : String) (q : Rat) : Prop :=
  ∃ e, Written OperatorClass.unarySign.rank code e ∧ ρ.amount e = some q

/-- A function with a text is known under a name. -/
structure Defines (ρ : Surroundings) (indent x : String) (f : FunctionText) : Prop where
  name : IsName x
  text : ρ.texts x = some (Functions.named x (f.text indent))

variable {indent x up down first last step : String}

theorem iterates_up (hindent : '\x7b' ∉ indent.toList) (hx : ρ.Defines indent x .upRange) {e₁ e₂ e₃ : Expr}
    (ha : ρ.amount e₁ = some a) (hb : ρ.amount e₂ = some b) (hc : ρ.amount e₃ = some c) (hne : c ≠ 0) (hle : a ≤ b) :
    ρ.Iterates indent (.call (.name x) [e₁, e₂, e₃]) (counted a b c) := by
  have hrange : x ≠ "range" := by
    rintro rfl
    exact hx.name.2 (by decide)
  exact .function hrange hx.text (counterBy_readable (by simp) (by simp)) (named_upRange hindent x) ha hb hc
    (yields_up hne hle)

theorem iterates_down (hindent : '\x7b' ∉ indent.toList) (hx : ρ.Defines indent x .downRange) {e₁ e₂ e₃ : Expr}
    (ha : ρ.amount e₁ = some a) (hb : ρ.amount e₂ = some b) (hc : ρ.amount e₃ = some c) (hne : c ≠ 0) (hle : b ≤ a) :
    ρ.Iterates indent (.call (.name x) [e₁, e₂, e₃]) (counted a b c) := by
  have hrange : x ≠ "range" := by
    rintro rfl
    exact hx.name.2 (by decide)
  exact .function hrange hx.text (counterBy_readable (by simp) (by simp)) (named_downRange hindent x) ha hb hc
    (yields_down hne hle)

/-- The text of a call with three arguments. -/
def callText (function first last step : String) : String :=
  function ++ "(" ++ first ++ ", " ++ last ++ ", " ++ step ++ ")"

theorem written_callText {f : String} {z e₁ e₂ e₃ : Expr} (hf : Written OperatorClass.functionCall.rank f z)
    (h₁ : Written OperatorClass.unarySign.rank first e₁) (h₂ : Written OperatorClass.unarySign.rank last e₂)
    (h₃ : Written OperatorClass.unarySign.rank step e₃) : Parses (callText f first last step) (.call z [e₁, e₂, e₃]) := by
  have hnone : OperatorClass.unarySign.rank ≤ OperatorClass.none.rank := by decide
  have hcall := hf.call [first, last, step] (.cons (h₁.mono hnone) (.cons (h₂.mono hnone) (.cons (h₃.mono hnone) .nil)))
  exact (hcall.congr (by simp [callText, joined])).parses

/-- A text of a sequence goes through certain numbers. -/
def Runs (ρ : Surroundings) (indent sequence : String) (xs : List Rat) : Prop :=
  ∃ e, Parses sequence e ∧ ρ.Iterates indent e xs

theorem Runs.iff {sequence : String} {xs : List Rat} (h : ρ.Runs indent sequence xs) {ys : List Rat} :
    ρ.Runs indent sequence ys ↔ ys = xs := by
  constructor
  · rintro ⟨e, he, hys⟩
    obtain ⟨e', he', hxs⟩ := h
    obtain rfl := he.unique he'
    exact hys.unique hxs
  · rintro rfl
    exact h

theorem runs_up (hindent : '\x7b' ∉ indent.toList) (hx : ρ.Defines indent x .upRange) (ha : ρ.Shows first a)
    (hb : ρ.Shows last b) (hc : ρ.Shows step c) (hne : c ≠ 0) (hle : a ≤ b) :
    ρ.Runs indent (callText x first last step) (counted a b c) := by
  obtain ⟨e₁, hw₁, ha⟩ := ha
  obtain ⟨e₂, hw₂, hb⟩ := hb
  obtain ⟨e₃, hw₃, hc⟩ := hc
  exact ⟨_, written_callText (hx.name.written _) hw₁ hw₂ hw₃, iterates_up hindent hx ha hb hc hne hle⟩

theorem runs_down (hindent : '\x7b' ∉ indent.toList) (hx : ρ.Defines indent x .downRange) (ha : ρ.Shows first a)
    (hb : ρ.Shows last b) (hc : ρ.Shows step c) (hne : c ≠ 0) (hle : b ≤ a) :
    ρ.Runs indent (callText x first last step) (counted a b c) := by
  obtain ⟨e₁, hw₁, ha⟩ := ha
  obtain ⟨e₂, hw₂, hb⟩ := hb
  obtain ⟨e₃, hw₃, hc⟩ := hc
  exact ⟨_, written_callText (hx.name.written _) hw₁ hw₂ hw₃, iterates_down hindent hx ha hb hc hne hle⟩

/-- The function is chosen when the program runs. -/
theorem runs_choice (hindent : '\x7b' ∉ indent.toList) (hup : ρ.Defines indent up .upRange)
    (hdown : ρ.Defines indent down .downRange) (ha : ρ.Shows first a) (hb : ρ.Shows last b) (hc : ρ.Shows step c)
    (hne : c ≠ 0) : ρ.Runs indent (callText ("(" ++ up ++ " if " ++ first ++ " <= " ++ last ++ " else " ++ down ++ ")")
      first last step) (counted a b c) := by
  obtain ⟨e₁, hw₁, ha⟩ := ha
  obtain ⟨e₂, hw₂, hb⟩ := hb
  obtain ⟨e₃, hw₃, hc⟩ := hc
  have hor : OperatorClass.unarySign.rank ≤ OperatorClass.bitwiseOr.rank := by decide
  have hcompare : Written OperatorClass.relational.rank (first ++ " " ++ "<=" ++ " " ++ last)
      (.compare e₁ [("<=", e₂)]) := Written.compare (by decide) (hw₁.mono hor) (hw₂.mono hor)
  have hchoice := Written.conditional (hup.name.written _) (hcompare.mono (by decide)) (hdown.name.written _)
  have hgroup : Written OperatorClass.functionCall.rank
      ("(" ++ up ++ " if " ++ first ++ " <= " ++ last ++ " else " ++ down ++ ")")
      (.conditional (.name up) (.compare e₁ [("<=", e₂)]) (.name down)) :=
    (hchoice.parens.loosen _).congr (by simp)
  have hholds : ρ.holds? (.compare e₁ [("<=", e₂)]) = some (decide (a ≤ b)) := by
    simp only [holds?, ha, hb]
    rfl
  refine ⟨_, written_callText hgroup hw₁ hw₂ hw₃, ?_⟩
  by_cases hle : a ≤ b
  · exact .chosen (by simpa [hle] using hholds) (iterates_up hindent hup ha hb hc hne hle)
  · exact .other (by simpa [hle] using hholds) (iterates_down hindent hdown ha hb hc hne (not_le.mp hle).le)

end Surroundings

end BlockScript
