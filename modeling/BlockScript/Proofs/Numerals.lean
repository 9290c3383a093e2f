import Mathlib.Algebra.Order.Field.Power
import Mathlib.Algebra.Order.Field.Rat
import Mathlib.Data.List.TakeWhile
import Mathlib.Tactic.Linarith
import BlockScript.Number.Shortest
import BlockScript.Proofs.Lexing

namespace BlockScript

namespace Pending

theorem next_digit_whole {c : Char} (h : c.isDigit = true) : NumeralPart.whole.next c = some .whole := by
  simp [NumeralPart.next, h]

theorem next_digit_fraction {c : Char} (h : c.isDigit = true) :
    NumeralPart.fraction.next c = some .fraction := by
  simp [NumeralPart.next, h]

theorem next_digit_exponent {c : Char} (h : c.isDigit = true) :
    NumeralPart.exponent.next c = some .exponent := by
  simp [NumeralPart.next, h]

theorem lex_whole {cs : List Char} (hne : cs ≠ []) (h : ∀ c ∈ cs, c.isDigit = true) (ds : List Char) :
    idle.lex (cs ++ ds) = (numeral .whole cs).lex ds := by
  cases cs with
  | nil => exact absurd rfl hne
  | cons c cs =>
    have hdigits := lex_digits_append (fun _ hd => next_digit_whole hd) [c]
      (fun d hd => h d (List.mem_cons_of_mem _ hd)) ds
    rw [List.cons_append, lex_cons (idle_next (ofChar_digit (h c (by simp)))), hdigits]
    rfl

theorem lex_point (read ds : List Char) :
    (numeral .whole read).lex ('.' :: ds) = (numeral .fraction (read ++ ['.'])).lex ds :=
  lex_cons rfl ds

theorem lex_letter {part : NumeralPart} (hpart : part = .whole ∨ part = .fraction) (read ds : List Char) :
    (numeral part read).lex ('e' :: ds) = (numeral .letter (read ++ ['e'])).lex ds := by
  obtain rfl | rfl := hpart <;> exact lex_cons rfl ds

theorem lex_exponent {sign : Char} (hsign : sign = '+' ∨ sign = '-') {cs : List Char} (hne : cs ≠ [])
    (h : ∀ c ∈ cs, c.isDigit = true) (read : List Char) :
    (numeral .letter read).lex (sign :: cs) = some [.numeral (String.ofList (read ++ sign :: cs))] := by
  have hstart : (numeral .letter read).next sign = some ([], numeral .sign (read ++ [sign])) := by
    obtain rfl | rfl := hsign <;> rfl
  rw [lex_cons hstart]
  cases cs with
  | nil => exact absurd rfl hne
  | cons c cs =>
    have hfirst : (numeral .sign (read ++ [sign])).next c = some ([], numeral .exponent (read ++ [sign] ++ [c])) := by
      simp [next, NumeralPart.next, h c (by simp)]
    have hdigits := lex_digits_append (fun _ hd => next_digit_exponent hd) (read ++ [sign] ++ [c])
      (fun d hd => h d (List.mem_cons_of_mem _ hd)) []
    rw [lex_cons hfirst, ← List.append_nil cs, hdigits]
    simp [lex, flush, NumeralPart.ends]

/-- Digits, a point and digits. -/
theorem lex_decimal {cs ds : List Char} (hne : cs ≠ []) (hcs : ∀ c ∈ cs, c.isDigit = true)
    (hds : ∀ c ∈ ds, c.isDigit = true) :
    idle.lex (cs ++ '.' :: ds) = some [.numeral (String.ofList (cs ++ '.' :: ds))] := by
  have hdigits := lex_digits_append (fun _ hd => next_digit_fraction hd) (cs ++ ['.']) hds []
  rw [lex_whole hne hcs, lex_point, ← List.append_nil ds, hdigits]
  simp [lex, flush, NumeralPart.ends]

end Pending

theorem toDigits_digits (k : Nat) : ∀ c ∈ Nat.toDigits 10 k, c.isDigit = true :=
  fun _ hc => Nat.isDigit_of_mem_toDigits (b := 10) (by decide) (by decide) hc

theorem head_toDigits {k : Nat} (hk : k ≠ 0) : (Nat.toDigits 10 k).head? ≠ some '0' := by
  induction k using Nat.strongRecOn with
  | _ k ih =>
    by_cases hlt : k < 10
    · rw [Nat.toDigits_of_lt_base hlt]
      have hsmall : ∀ k < 10, k ≠ 0 → [k.digitChar].head? ≠ some '0' := by decide
      exact hsmall k hlt hk
    · rw [Nat.toDigits_of_base_le (by decide) (by omega)]
      have hrest := ih (k / 10) (by omega) (by omega)
      cases hd : Nat.toDigits 10 (k / 10) with
      | nil => exact absurd hd Nat.toDigits_ne_nil
      | cons c cs =>
        rw [hd] at hrest
        simpa using hrest

theorem ne_space_of_digit {c : Char} (h : c.isDigit = true) : c ≠ ' ' := by
  rintro rfl
  revert h
  decide

theorem tokens_nat (k : Nat) : tokens? (toString k) = some [.numeral (toString k)] := by
  have hread := Pending.lex_whole Nat.toDigits_ne_nil (toDigits_digits k) []
  have hends : NumeralPart.whole.ends (Nat.toDigits 10 k) = true := by
    by_cases hk : k = 0
    · subst hk
      decide
    · simp [NumeralPart.ends, head_toDigits hk]
  rw [Nat.toString_eq_ofList_toDigits]
  cases hd : Nat.toDigits 10 k with
  | nil => exact absurd hd Nat.toDigits_ne_nil
  | cons c cs =>
    have hc : c.isDigit = true := toDigits_digits k c (by simp [hd])
    refine tokens_of_lex String.toList_ofList (ne_space_of_digit hc) ?_
    rw [hd] at hread hends
    rw [String.toList_ofList, ← List.append_nil (c :: cs), hread]
    simp [Pending.lex, Pending.flush, hends]

theorem scaled_eq {b : Nat} (hb : 0 < b) (n : Nat) (e : Int) : scaled n b e = (n : Rat) * (b : Rat) ^ e := by
  have hne : (b : Rat) ≠ 0 := by exact_mod_cast hb.ne'
  unfold scaled
  split
  · rename_i he
    obtain ⟨k, rfl⟩ := Int.eq_ofNat_of_zero_le he
    simp
  · rename_i he
    obtain ⟨k, hk⟩ := Int.eq_ofNat_of_zero_le (show 0 ≤ -e by omega)
    obtain rfl : e = -(k : Int) := by omega
    simp [Rat.mkRat_eq_div, div_eq_mul_inv]

theorem scaled_one_ten (e : Int) : scaled 1 10 e = (10 : Rat) ^ e := by
  rw [scaled_eq (by decide), Nat.cast_one, one_mul, Nat.cast_ofNat]

theorem scaled_pos {m b : Nat} (hm : 0 < m) (hb : 0 < b) (e : Int) : 0 < scaled m b e := by
  rw [scaled_eq hb]
  exact mul_pos (by exact_mod_cast hm) (zpow_pos (by exact_mod_cast hb) e)

namespace Double

theorem exponentText_eq (x : Int) : ∃ sign cs, exponentText x = sign :: cs ∧ (sign = '+' ∨ sign = '-') ∧
    cs ≠ [] ∧ ∀ c ∈ cs, c.isDigit = true := by
  have hdigits := toDigits_digits x.natAbs
  unfold exponentText
  dsimp only
  refine ⟨_, _, rfl, ?_, ?_, ?_⟩
  · split
    · exact Or.inr rfl
    · exact Or.inl rfl
  · split
    · simp
    · exact Nat.toDigits_ne_nil
  · intro c hc
    split at hc
    · rw [List.mem_cons] at hc
      obtain rfl | hc := hc
      · rfl
      · exact hdigits c hc
    · exact hdigits c hc

/-- A row of digits with its point set is a numeral. -/
theorem lex_layout {ds : List Char} (hne : ds ≠ []) (h : ∀ c ∈ ds, c.isDigit = true) (x : Int) :
    Pending.idle.lex (layout ds x) = some [.numeral (String.ofList (layout ds x))] := by
  have htake : ∀ k, ∀ c ∈ ds.take k, c.isDigit = true := fun k c hc => h c (List.mem_of_mem_take hc)
  have hdrop : ∀ k, ∀ c ∈ ds.drop k, c.isDigit = true := fun k c hc => h c (List.mem_of_mem_drop hc)
  have hfirst : ∀ k, 0 < k → ds.take k ≠ [] := by
    intro k hk htake
    rw [List.take_eq_nil_iff] at htake
    obtain rfl | rfl := htake
    · omega
    · exact hne rfl
  unfold layout
  dsimp only
  split
  · obtain ⟨sign, cs, hx, hsign, hcs, hdigits⟩ := exponentText_eq x
    rw [hx]
    split
    · rw [List.append_nil, Pending.lex_whole (hfirst 1 (by decide)) (htake 1), Pending.lex_letter (Or.inl rfl),
        Pending.lex_exponent hsign hcs hdigits]
      simp
    · rw [List.append_assoc, List.cons_append, Pending.lex_whole (hfirst 1 (by decide)) (htake 1), Pending.lex_point,
        Pending.lex_digits_append (fun _ hd => Pending.next_digit_fraction hd) _ (hdrop 1),
        Pending.lex_letter (Or.inr rfl), Pending.lex_exponent hsign hcs hdigits]
      simp
  · split
    · have hzero : ['0'] ≠ [] := by simp
      refine Pending.lex_decimal hzero (List.forall_mem_singleton.mpr rfl) ?_
      intro c hc
      rw [List.mem_append] at hc
      obtain hc | hc := hc
      · rw [List.eq_of_mem_replicate hc]
        rfl
      · exact h c hc
    · refine Pending.lex_decimal ?_ ?_ ?_
      · intro hnil
        exact hfirst (x.toNat + 1) (by omega) (List.append_eq_nil_iff.mp hnil).1
      · intro c hc
        rw [List.mem_append] at hc
        obtain hc | hc := hc
        · exact htake _ c hc
        · rw [List.eq_of_mem_replicate hc]
          rfl
      · intro c hc
        split at hc
        · rw [List.mem_singleton.mp hc]
          rfl
        · exact hdrop _ c hc

theorem layout_head {ds : List Char} (hne : ds ≠ []) (h : ∀ c ∈ ds, c.isDigit = true) (x : Int) :
    ∃ c cs, layout ds x = c :: cs ∧ c.isDigit = true := by
  cases ds with
  | nil => exact absurd rfl hne
  | cons d ds =>
    have hd := h d (by simp)
    unfold layout
    dsimp only
    split
    · exact ⟨d, _, rfl, hd⟩
    · split
      · exact ⟨'0', _, rfl, rfl⟩
      · exact ⟨d, _, rfl, hd⟩

theorem lt_ten_pow_length (k : Nat) : k < 10 ^ decimalLength k :=
  (Nat.length_toDigits_le_iff (by decide) Nat.length_toDigits_pos).mp (Nat.le_refl _)

theorem ten_pow_length_le {k : Nat} (hk : k ≠ 0) : 10 ^ (decimalLength k - 1) ≤ k := by
  by_cases hone : decimalLength k = 1
  · rw [hone]
    exact Nat.pos_of_ne_zero hk
  · have hpos : 0 < decimalLength k := Nat.length_toDigits_pos
    have hnot : ¬ k < 10 ^ (decimalLength k - 1) := by
      rw [← Nat.length_toDigits_le_iff (by decide) (by omega)]
      show ¬ decimalLength k ≤ decimalLength k - 1
      omega
    omega

theorem ten_pow_decimalExponent_le {r : Rat} (hr : 0 < r) : (10 : Rat) ^ decimalExponent r ≤ r := by
  unfold decimalExponent
  split
  · rename_i hone
    have hfloor : 1 ≤ r.floor := Rat.le_floor_iff.mpr (by exact_mod_cast hone)
    obtain ⟨k, hk⟩ := Int.eq_ofNat_of_zero_le (show 0 ≤ r.floor by omega)
    have hle : (k : Rat) ≤ r := by
      have := Rat.floor_le r
      rw [hk] at this
      exact_mod_cast this
    have hpos : 0 < decimalLength k := Nat.length_toDigits_pos
    have hpow := ten_pow_length_le (k := k) (by omega)
    rw [hk]
    have hexp : ((decimalLength (Int.toNat (k : Int)) : Int) - 1) = ((decimalLength k - 1 : Nat) : Int) := by
      simp only [Int.toNat_natCast]
      omega
    rw [hexp, zpow_natCast]
    refine le_trans ?_ hle
    exact_mod_cast hpow
  · have hinv : 0 < 1 / r := div_pos one_pos hr
    have hceil : 1 / r ≤ ((1 / r).ceil : Rat) := Rat.le_ceil
    have hone : 0 < (1 / r).ceil := by
      have := lt_of_lt_of_le hinv hceil
      exact_mod_cast this
    obtain ⟨k, hk⟩ := Int.eq_ofNat_of_zero_le (show 0 ≤ (1 / r).ceil - 1 by omega)
    have hsub : (1 / r).ceil.toNat - 1 = k := by omega
    have hle : 1 / r ≤ (10 : Rat) ^ decimalLength k := by
      have hsucc : ((1 / r).ceil : Rat) = (k : Rat) + 1 := by
        have : (1 / r).ceil = (k : Int) + 1 := by omega
        rw [this]
        push_cast
        rfl
      have hpow : k + 1 ≤ 10 ^ decimalLength k := lt_ten_pow_length k
      have hcast : (k : Rat) + 1 ≤ (10 : Rat) ^ decimalLength k := by exact_mod_cast hpow
      linarith
    rw [hsub, zpow_neg, zpow_natCast, inv_le_comm₀ (by positivity) hr]
    simpa using hle

/-- The factor of the shortest digits is not zero, since no multiple of zero lies in the cell. -/
theorem firstGrid_ne_zero {c : Cell} (hc : c.has 0 = false) {r : Rat} (k : Nat) (e : Int)
    (hr : (10 : Rat) ^ (e - k) ≤ r) : (firstGrid c r k e).1 ≠ 0 := by
  induction k generalizing e with
  | zero =>
    have hpos : (0 : Rat) < 10 ^ e := by positivity
    have hone : (1 : Rat) ≤ r / scaled 1 10 e := by
      rw [scaled_one_ten, le_div_iff₀ hpos]
      simpa using hr
    have hfloor : 1 ≤ (r / scaled 1 10 e).floor := Rat.le_floor_iff.mpr (by exact_mod_cast hone)
    simp only [firstGrid]
    omega
  | succ k ih =>
    simp only [firstGrid]
    split
    · rename_i n hn
      simp only [onGrid?] at hn
      -- a lower end of zero would lie in the cell
      have hlower : c.has (((r / scaled 1 10 e).floor.toNat : Rat) * scaled 1 10 e) = true →
          (r / scaled 1 10 e).floor.toNat ≠ 0 := by
        intro hin hzero
        rw [hzero] at hin
        simp [hc] at hin
      split at hn
      · rename_i hin _
        have hne := hlower hin
        split at hn <;> cases hn <;> omega
      · rename_i hin _
        cases hn
        exact hlower hin
      · cases hn
        simp
      · cases hn
    · refine ih (e - 1) ?_
      have hexp : e - 1 - (k : Int) = e - ((k + 1 : Nat) : Int) := by omega
      rw [hexp]
      exact hr

theorem shortest_ne_zero {m : Nat} (hm : 0 < m) (e : Int) : (shortest m e).1 ≠ 0 := by
  have hr : 0 < scaled m 2 e := scaled_pos hm (by decide) e
  have hlow : 0 < (cell m e).low := by
    unfold cell
    refine scaled_pos ?_ (by decide) _
    split <;> omega
  have hzero : (cell m e).has 0 = false := by
    have h1 : ¬ (cell m e).low ≤ 0 := by linarith
    have h2 : ¬ (cell m e).low < 0 := by linarith
    unfold Cell.has
    split <;> simp [h1, h2]
  refine firstGrid_ne_zero hzero maxDigits _ (le_trans ?_ (ten_pow_decimalExponent_le hr))
  exact zpow_le_zpow_right₀ (by norm_num) (by omega)

theorem digitRow_digits {n : Nat} (hn : n ≠ 0) (e : Int) :
    (digitRow n e).1 ≠ [] ∧ ∀ c ∈ (digitRow n e).1, c.isDigit = true := by
  unfold digitRow
  dsimp only
  refine ⟨fun hnil => ?_, fun c hc => ?_⟩
  · have hall : (Nat.toDigits 10 n).reverse.dropWhile (· == '0') = [] := by simpa using hnil
    rw [List.dropWhile_eq_nil_iff] at hall
    cases hd : Nat.toDigits 10 n with
    | nil => exact Nat.toDigits_ne_nil hd
    | cons c cs =>
      have hc : c = '0' := by
        have := hall c (by simp [hd])
        simpa using this
      exact head_toDigits hn (by rw [hd, hc]; rfl)
  · have hmem : c ∈ (Nat.toDigits 10 n).reverse := by
      refine (List.dropWhile_sublist (· == '0')).subset ?_
      simpa using hc
    exact toDigits_digits n c (by simpa using hmem)

/-- The text of a finite number is a numeral, or one behind a sign. -/
theorem tokens_text (negative : Bool) (m : Nat) (e : Int) : ∃ s, tokens? s = some [.numeral s] ∧
    Double.text (.finite negative m e) = (if negative then "-" else "") ++ s := by
  by_cases hm : m = 0
  · refine ⟨"0.0", by decide, ?_⟩
    simp [text, hm]
  · obtain ⟨hne, hdigits⟩ := digitRow_digits (shortest_ne_zero (Nat.pos_of_ne_zero hm) e) (shortest m e).2
    refine ⟨String.ofList (layout (digitRow (shortest m e).1 (shortest m e).2).1
      (digitRow (shortest m e).1 (shortest m e).2).2), ?_, ?_⟩
    · obtain ⟨c, cs, hlayout, hc⟩ := layout_head hne hdigits (digitRow (shortest m e).1 (shortest m e).2).2
      refine tokens_of_lex (String.toList_ofList.trans hlayout) (ne_space_of_digit hc) ?_
      rw [String.toList_ofList]
      exact lex_layout hne hdigits _
    · simp [text, hm]

theorem tokens_int (n : Int) : ∃ s, tokens? s = some [.numeral s] ∧
    (toString n = s ∨ toString n = "-" ++ s) := by
  cases n with
  | ofNat k => exact ⟨toString k, tokens_nat k, Or.inl rfl⟩
  | negSucc k => exact ⟨toString (k + 1), tokens_nat (k + 1), Or.inr rfl⟩

/-- A finite number is written as a numeral, or as one behind a sign. -/
theorem tokens_literal (negative : Bool) (m : Nat) (e : Int) : ∃ s, tokens? s = some [.numeral s] ∧
    (Double.literal (.finite negative m e) = s ∨ Double.literal (.finite negative m e) = "-" ++ s) := by
  simp only [literal]
  cases whole? (.finite negative m e) with
  | some n => exact tokens_int n
  | none =>
    obtain ⟨s, hs, htext⟩ := tokens_text negative m e
    refine ⟨s, hs, ?_⟩
    rw [htext]
    cases negative
    · exact Or.inl (by simp)
    · exact Or.inr rfl

end Double

end BlockScript
