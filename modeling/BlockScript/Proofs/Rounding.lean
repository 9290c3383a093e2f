import Mathlib.Algebra.Order.Field.Power
import Mathlib.Algebra.Order.Field.Rat
import Mathlib.Data.Rat.Floor
import Mathlib.Tactic.FieldSimp
import Mathlib.Tactic.Linarith
import Mathlib.Tactic.NormNum
import Mathlib.Tactic.Positivity
import Mathlib.Tactic.Ring
import BlockScript.Number.Shortest
import BlockScript.Proofs.Numerals

namespace BlockScript

/-- Rounding gives the whole number that is at most a half away, and of two such ones the even one. -/
theorem roundDiv_eq {n d q : Nat} (hd : 0 < d) (hlow : 2 * (q * d) < 2 * n + d ∨ 2 * (q * d) = 2 * n + d ∧ q % 2 = 0)
    (hhigh : 2 * n < 2 * (q * d) + d ∨ 2 * n = 2 * (q * d) + d ∧ q % 2 = 0) : roundDiv n d = q := by
  have hsplit := Nat.div_add_mod n d
  have hrest := Nat.mod_lt n hd
  unfold roundDiv
  dsimp only
  generalize n / d = k at *
  generalize n % d = r at *
  subst hsplit
  have hnear : q = k ∨ q = k + 1 := by
    have hupper : q < k + 2 := by
      by_contra hge
      have hmul : (k + 2) * d ≤ q * d := Nat.mul_le_mul_right d (by omega)
      rw [Nat.add_mul, Nat.mul_comm k d] at hmul
      omega
    have hlower : k ≤ q := by
      by_contra hlt
      have hmul : (q + 1) * d ≤ k * d := Nat.mul_le_mul_right d (by omega)
      rw [Nat.add_mul, Nat.mul_comm k d] at hmul
      omega
    omega
  obtain rfl | rfl := hnear
  · rw [Nat.mul_comm q d] at hlow hhigh
    rw [if_pos (by omega)]
  · rw [Nat.add_mul, Nat.mul_comm k d] at hlow hhigh
    rw [if_neg (by omega)]

theorem natAbs_num {r : Rat} (hr : 0 ≤ r) : (r.num.natAbs : Rat) = r * r.den := by
  have hnum : 0 ≤ r.num := Rat.num_nonneg.mpr hr
  rw [Rat.mul_den_eq_num, Nat.cast_natAbs, abs_of_nonneg hnum]

/-- Rounding a rational number to the nearest whole one. -/
theorem roundDiv_rat {s : Rat} (hs : 0 ≤ s) {q : Nat} (hlow : (q : Rat) - 1 / 2 < s ∨ (q : Rat) - 1 / 2 = s ∧ q % 2 = 0)
    (hhigh : s < q + 1 / 2 ∨ s = q + 1 / 2 ∧ q % 2 = 0) : roundDiv s.num.natAbs s.den = q := by
  have hden : (0 : Rat) < s.den := by exact_mod_cast s.den_pos
  have hnum := natAbs_num hs
  refine roundDiv_eq s.den_pos ?_ ?_
  · refine hlow.imp (fun h => ?_) (And.imp_left fun h => ?_)
    · have hmul : ((q : Rat) - 1 / 2) * s.den < s * s.den := mul_lt_mul_of_pos_right h hden
      have : (2 * (q * s.den) : Rat) < 2 * s.num.natAbs + s.den := by
        rw [hnum]
        linarith
      exact_mod_cast this
    · have : (2 * (q * s.den) : Rat) = 2 * s.num.natAbs + s.den := by
        rw [hnum, ← h]
        ring
      exact_mod_cast this
  · refine hhigh.imp (fun h => ?_) (And.imp_left fun h => ?_)
    · have hmul : s * s.den < ((q : Rat) + 1 / 2) * s.den := mul_lt_mul_of_pos_right h hden
      have : (2 * s.num.natAbs : Rat) < 2 * (q * s.den) + s.den := by
        rw [hnum]
        linarith
      exact_mod_cast this
    · have : (2 * s.num.natAbs : Rat) = 2 * (q * s.den) + s.den := by
        rw [hnum]
        nth_rewrite 1 [h]
        ring
      exact_mod_cast this

theorem le_roundDiv {n d q : Nat} (hd : 0 < d) (h : q * d ≤ n) : q ≤ roundDiv n d := by
  have hq : q ≤ n / d := (Nat.le_div_iff_mul_le hd).mpr h
  unfold roundDiv
  dsimp only
  split <;> omega

theorem roundDiv_le {n d q : Nat} (hd : 0 < d) (h : n < q * d) : roundDiv n d ≤ q := by
  have hq : n / d < q := (Nat.div_lt_iff_lt_mul hd).mpr h
  unfold roundDiv
  dsimp only
  split <;> omega

namespace Double

theorem two_zpow_pos (e : Int) : (0 : Rat) < 2 ^ e :=
  zpow_pos (by norm_num) e

/-- The power of two in a positive number. -/
theorem binaryExponent_spec {r : Rat} (hr : 0 < r) :
    (2 : Rat) ^ binaryExponent r ≤ r ∧ r < 2 ^ (binaryExponent r + 1) := by
  have hnum : r.num.natAbs ≠ 0 := by
    rw [Int.natAbs_ne_zero]
    exact (Rat.num_pos.mpr hr).ne'
  have hden : (0 : Rat) < r.den := by exact_mod_cast r.den_pos
  have hvalue := natAbs_num hr.le
  have hpow : ∀ k : Nat, ((2 ^ k : Nat) : Rat) = (2 : Rat) ^ (k : Int) := by
    intro k
    push_cast
    rw [zpow_natCast]
  have hsum : ∀ a b : Int, (2 : Rat) ^ (a + b) = 2 ^ a * 2 ^ b := fun a b => zpow_add₀ (by norm_num) a b
  have hn₁ : (2 : Rat) ^ ((Nat.log2 r.num.natAbs : Nat) : Int) ≤ r.num.natAbs := by
    rw [← hpow]
    exact_mod_cast Nat.log2_self_le hnum
  have hn₂ : (r.num.natAbs : Rat) < 2 ^ (((Nat.log2 r.num.natAbs : Nat) : Int) + 1) := by
    rw [show (((Nat.log2 r.num.natAbs : Nat) : Int) + 1) = ((Nat.log2 r.num.natAbs + 1 : Nat) : Int) by push_cast; rfl, ← hpow]
    exact_mod_cast Nat.lt_log2_self
  have hd₁ : (2 : Rat) ^ ((Nat.log2 r.den : Nat) : Int) ≤ r.den := by
    rw [← hpow]
    exact_mod_cast Nat.log2_self_le r.den_nz
  have hd₂ : (r.den : Rat) < 2 ^ (((Nat.log2 r.den : Nat) : Int) + 1) := by
    rw [show (((Nat.log2 r.den : Nat) : Int) + 1) = ((Nat.log2 r.den + 1 : Nat) : Int) by push_cast; rfl, ← hpow]
    exact_mod_cast Nat.lt_log2_self
  -- the quotient lies within a factor of two of the quotient of the powers
  have hupper : r < 2 ^ ((Nat.log2 r.num.natAbs : Int) - Nat.log2 r.den + 1) := by
    refine lt_of_mul_lt_mul_right ?_ hden.le
    calc r * r.den < 2 ^ ((Nat.log2 r.num.natAbs : Int) + 1) := hvalue ▸ hn₂
      _ = 2 ^ ((Nat.log2 r.num.natAbs : Int) - Nat.log2 r.den + 1) * 2 ^ (Nat.log2 r.den : Int) := by
        rw [← hsum]
        congr 1
        ring
      _ ≤ 2 ^ ((Nat.log2 r.num.natAbs : Int) - Nat.log2 r.den + 1) * r.den :=
        mul_le_mul_of_nonneg_left hd₁ (two_zpow_pos _).le
  have hlower : 2 ^ ((Nat.log2 r.num.natAbs : Int) - Nat.log2 r.den - 1) ≤ r := by
    refine le_of_mul_le_mul_right ?_ hden
    calc (2 : Rat) ^ ((Nat.log2 r.num.natAbs : Int) - Nat.log2 r.den - 1) * r.den
        ≤ 2 ^ ((Nat.log2 r.num.natAbs : Int) - Nat.log2 r.den - 1) * 2 ^ ((Nat.log2 r.den : Int) + 1) :=
          mul_le_mul_of_nonneg_left hd₂.le (two_zpow_pos _).le
      _ = 2 ^ (Nat.log2 r.num.natAbs : Int) := by
        rw [← hsum]
        congr 1
        ring
      _ ≤ r * r.den := hvalue ▸ hn₁
  unfold binaryExponent
  dsimp only
  rw [scaled_eq (by norm_num)]
  split
  · rename_i hle
    exact ⟨by simpa using hle, hupper⟩
  · rename_i hlt
    refine ⟨hlower, ?_⟩
    rw [sub_add_cancel]
    simpa using hlt

theorem two_zpow_mono {a b : Int} (h : a ≤ b) : (2 : Rat) ^ a ≤ 2 ^ b :=
  zpow_le_zpow_right₀ (by norm_num) h

/-- The exponent of a number of which the binade is known. -/
theorem binaryExponent_eq {r : Rat} {e : Int} (hlow : (2 : Rat) ^ e ≤ r) (hhigh : r < 2 ^ (e + 1)) :
    binaryExponent r = e := by
  obtain ⟨hle, hlt⟩ := binaryExponent_spec (lt_of_lt_of_le (two_zpow_pos e) hlow)
  have h₁ : binaryExponent r < e + 1 :=
    (zpow_lt_zpow_iff_right₀ (by norm_num : (1 : Rat) < 2)).mp (lt_of_le_of_lt hle hhigh)
  have h₂ : e < binaryExponent r + 1 :=
    (zpow_lt_zpow_iff_right₀ (by norm_num : (1 : Rat) < 2)).mp (lt_of_le_of_lt hlow hlt)
  omega

/-- The mantissas and exponents of finite numbers: all bits of the mantissa are used, except next to
zero. -/
structure Canonical (m : Nat) (e : Int) : Prop where
  mantissa_lt : m < 2 ^ 53
  min_le : minExponent ≤ e
  le_max : e ≤ maxExponent
  full : 2 ^ 52 ≤ m ∨ e = minExponent

theorem ofMagnitude_canonical {sign negative : Bool} {r : Rat} (hr : 0 ≤ r) {m : Nat} {e : Int}
    (h : ofMagnitude sign r = finite negative m e) : Canonical m e := by
  unfold ofMagnitude at h
  split at h
  · cases h
    exact ⟨by norm_num, le_refl _, by decide, Or.inr rfl⟩
  · rename_i hne
    have hpos : 0 < r := lt_of_le_of_ne hr (Ne.symm hne)
    obtain ⟨hlow, hhigh⟩ := binaryExponent_spec hpos
    dsimp only at h
    rw [scaled_eq (by norm_num)] at h
    push_cast at h
    rw [one_mul] at h
    generalize hk : max minExponent (binaryExponent r - ((precision : Int) - 1)) = k at h
    simp only [precision, minExponent] at hk
    push_cast at hk
    have hscale := two_zpow_pos k
    have hs : 0 ≤ r / 2 ^ k := div_nonneg hr hscale.le
    have hden : (0 : Rat) < (r / 2 ^ k).den := by exact_mod_cast (r / 2 ^ k).den_pos
    have hupper : roundDiv (r / 2 ^ k).num.natAbs (r / 2 ^ k).den ≤ 2 ^ 53 := by
      refine roundDiv_le (r / 2 ^ k).den_pos ?_
      have hlt : r / 2 ^ k < 2 ^ 53 := by
        rw [div_lt_iff₀ hscale]
        calc r < 2 ^ (binaryExponent r + 1) := hhigh
          _ ≤ 2 ^ (53 + k) := two_zpow_mono (by omega)
          _ = 2 ^ 53 * 2 ^ k := zpow_add₀ (by norm_num) 53 k
      have hmul := mul_lt_mul_of_pos_right hlt hden
      rw [← natAbs_num hs] at hmul
      exact_mod_cast hmul
    have hlower : minExponent < k → 2 ^ 52 ≤ roundDiv (r / 2 ^ k).num.natAbs (r / 2 ^ k).den := by
      intro hnormal
      simp only [minExponent] at hnormal
      refine le_roundDiv (r / 2 ^ k).den_pos ?_
      have hle : (2 : Rat) ^ 52 ≤ r / 2 ^ k := by
        rw [le_div_iff₀ hscale]
        calc (2 : Rat) ^ 52 * 2 ^ k = 2 ^ (52 + k) := (zpow_add₀ (by norm_num) 52 k).symm
          _ ≤ 2 ^ binaryExponent r := two_zpow_mono (by omega)
          _ ≤ r := hlow
      have hmul := mul_le_mul_of_nonneg_right hle hden.le
      rw [← natAbs_num hs] at hmul
      exact_mod_cast hmul
    generalize roundDiv (r / 2 ^ k).num.natAbs (r / 2 ^ k).den = q at h hupper hlower
    have hmin : minExponent ≤ k := by
      simp only [minExponent]
      omega
    by_cases hfull : q = Nat.pow 2 precision
    · simp only [hfull, if_true] at h
      split at h
      · cases h
      · rename_i hmax
        cases h
        exact ⟨by decide, by omega, by omega, Or.inl (by decide)⟩
    · simp only [hfull, if_false] at h
      have hfull' : q ≠ 2 ^ 53 := hfull
      split at h
      · cases h
      · rename_i hmax
        cases h
        exact ⟨by omega, hmin, by omega, (lt_or_eq_of_le hmin).imp hlower Eq.symm⟩

theorem Cell.has_iff (c : Cell) (x : Rat) : c.has x = true ↔
    (c.low < x ∨ c.low = x ∧ c.closed = true) ∧ (x < c.high ∨ x = c.high ∧ c.closed = true) := by
  unfold Cell.has
  cases c.closed <;> simp [le_iff_lt_or_eq]

theorem two_zpow_sub_two (e : Int) : (2 : Rat) ^ (e - 2) = 2 ^ e / 4 := by
  rw [zpow_sub₀ (by norm_num)]
  norm_num

theorem cell_low {m : Nat} (hm : 0 < m) (e : Int) : (cell m e).low =
    ((m : Rat) - if m = 2 ^ 52 ∧ minExponent < e then 1 / 4 else 1 / 2) * 2 ^ e := by
  have hpow : Nat.pow 2 (precision - 1) = 2 ^ 52 := rfl
  simp only [cell, scaled_eq (show 0 < 2 by norm_num), hpow]
  by_cases hedge : m = 2 ^ 52 ∧ minExponent < e
  · rw [if_pos hedge, if_pos hedge, Nat.cast_sub (by omega)]
    push_cast
    rw [two_zpow_sub_two]
    ring
  · rw [if_neg hedge, if_neg hedge, Nat.cast_sub (by omega)]
    push_cast
    rw [two_zpow_sub_two]
    ring

theorem cell_high (m : Nat) (e : Int) : (cell m e).high = ((m : Rat) + 1 / 2) * 2 ^ e := by
  simp only [cell, scaled_eq (show 0 < 2 by norm_num)]
  push_cast
  rw [two_zpow_sub_two]
  ring

/-- The lower end of a cell lies at most half a unit of the last place below the number. -/
theorem half_below_le_low {m : Nat} (hm : 0 < m) (e : Int) : ((m : Rat) - 1 / 2) * 2 ^ e ≤ (cell m e).low := by
  rw [cell_low hm]
  refine mul_le_mul_of_nonneg_right ?_ (two_zpow_pos e).le
  split <;> linarith

/-- In a scale, a number rounds to the whole number next to it. -/
theorem ofMagnitude_scale {x : Rat} (hx : 0 < x) {k : Int} (hk : max minExponent (binaryExponent x - 52) = k)
    {q : Nat} (hlow : ((q : Rat) - 1 / 2) * 2 ^ k < x ∨ ((q : Rat) - 1 / 2) * 2 ^ k = x ∧ q % 2 = 0)
    (hhigh : x < ((q : Rat) + 1 / 2) * 2 ^ k ∨ x = ((q : Rat) + 1 / 2) * 2 ^ k ∧ q % 2 = 0) (negative : Bool) :
    ofMagnitude negative x =
      let (m, e) := if q = 2 ^ 53 then (q / 2, k + 1) else (q, k)
      if maxExponent < e then infinite negative else finite negative m e := by
  have hscale := two_zpow_pos k
  have hround : roundDiv (x / 2 ^ k).num.natAbs (x / 2 ^ k).den = q := by
    refine roundDiv_rat (div_nonneg hx.le hscale.le) ?_ ?_
    · rw [lt_div_iff₀ hscale, eq_div_iff hscale.ne']
      exact hlow
    · rw [div_lt_iff₀ hscale, div_eq_iff hscale.ne']
      exact hhigh
  have hexp : max minExponent (binaryExponent x - ((precision : Int) - 1)) = k := hk
  unfold ofMagnitude
  rw [if_neg hx.ne']
  simp only [hexp, scaled_eq (show 0 < 2 by norm_num), Nat.cast_one, one_mul, Nat.cast_ofNat, hround]
  rfl

/-- Next below the least mantissa with all its bits the units are half as large. -/
theorem ofMagnitude_below_binade {e : Int} (hmin : minExponent < e) (hmax : e ≤ maxExponent) {x : Rat}
    (hlow : ((2 : Rat) ^ 52 - 1 / 4) * 2 ^ e ≤ x) (hhigh : x < 2 ^ 52 * 2 ^ e) (negative : Bool) :
    ofMagnitude negative x = finite negative (2 ^ 52) e := by
  have hdouble : (2 : Rat) ^ e = 2 * 2 ^ (e - 1) := by
    rw [zpow_sub₀ (by norm_num), zpow_one]
    ring
  have hscale := two_zpow_pos (e - 1)
  rw [hdouble] at hlow hhigh
  norm_num at hlow hhigh
  have hbelow : (2 : Rat) ^ (e - 1 + 52) ≤ x := by
    rw [zpow_add₀ (by norm_num)]
    norm_num
    linarith
  have habove : x < 2 ^ (e - 1 + 52 + 1) := by
    rw [add_assoc, zpow_add₀ (by norm_num)]
    norm_num
    linarith
  have hk : max minExponent (binaryExponent x - 52) = e - 1 := by
    rw [binaryExponent_eq hbelow habove]
    omega
  rw [ofMagnitude_scale (lt_of_lt_of_le (two_zpow_pos _) hbelow) hk (q := 2 ^ 53) ?_ ?_ negative]
  · rw [if_pos rfl]
    dsimp only
    rw [sub_add_cancel, if_neg (by omega)]
    rfl
  · norm_num
    exact lt_or_eq_of_le (by linarith)
  · norm_num
    exact Or.inl (by linarith)

/-- All numbers of a cell round to the number that it belongs to. -/
theorem ofMagnitude_cell {m : Nat} {e : Int} (hm : 0 < m) (hcanonical : Canonical m e) {x : Rat}
    (hx : (cell m e).has x = true) (negative : Bool) : ofMagnitude negative x = finite negative m e := by
  obtain ⟨hlt, hmin, hmax, hfull⟩ := hcanonical
  obtain ⟨hlow, hhigh⟩ := (Cell.has_iff _ _).mp hx
  have hclosed : (cell m e).closed = true ↔ m % 2 = 0 := by simp [cell]
  rw [hclosed] at hlow hhigh
  have hscale := two_zpow_pos e
  have hhalf := half_below_le_low hm e
  have hm' : (1 : Rat) ≤ m := by exact_mod_cast hm
  have hlow_le : (cell m e).low ≤ x := hlow.elim le_of_lt fun h => h.1.le
  have hpos : 0 < x := lt_of_lt_of_le (mul_pos (by linarith) hscale) (hhalf.trans hlow_le)
  have hbits (k : Nat) : (2 : Rat) ^ (e + k) = 2 ^ k * 2 ^ e := by
    rw [zpow_add₀ (by norm_num), zpow_natCast, mul_comm]
  have hupper : x < 2 ^ (e + (53 : Nat)) := by
    have hle : x ≤ (cell m e).high := hhigh.elim le_of_lt fun h => h.1.le
    have hsucc : (m : Rat) + 1 ≤ 2 ^ 53 := by exact_mod_cast hlt
    calc x ≤ ((m : Rat) + 1 / 2) * 2 ^ e := cell_high m e ▸ hle
      _ < 2 ^ 53 * 2 ^ e := mul_lt_mul_of_pos_right (by linarith) hscale
      _ = 2 ^ (e + (53 : Nat)) := (hbits 53).symm
  -- in the scale of the number itself the cell reaches at most half a unit to both sides
  have hsame : max minExponent (binaryExponent x - 52) = e → ofMagnitude negative x = finite negative m e := by
    intro hk
    rw [ofMagnitude_scale hpos hk (q := m) ?_ (cell_high m e ▸ hhigh) negative]
    · rw [if_neg (by omega)]
      dsimp only
      rw [if_neg (by omega)]
    · obtain hlow | ⟨hlow, heven⟩ := hlow
      · exact Or.inl (lt_of_le_of_lt hhalf hlow)
      · rw [← hlow]
        exact (lt_or_eq_of_le hhalf).imp id fun h => ⟨h, heven⟩
  by_cases hbinade : (2 : Rat) ^ (e + (52 : Nat)) ≤ x
  · refine hsame ?_
    rw [binaryExponent_eq hbinade (by simpa [add_assoc] using hupper)]
    omega
  · obtain rfl | hnormal := eq_or_lt_of_le hmin
    · have hexp : binaryExponent x < minExponent + (53 : Nat) :=
        (zpow_lt_zpow_iff_right₀ (by norm_num : (1 : Rat) < 2)).mp
          (lt_of_le_of_lt (binaryExponent_spec hpos).1 hupper)
      exact hsame (by omega)
    · rw [hbits] at hbinade
      have hleast : m = 2 ^ 52 := by
        by_contra hne
        have hgt : (2 : Rat) ^ 52 + 1 ≤ m := by
          have : 2 ^ 52 + 1 ≤ m := by omega
          exact_mod_cast this
        refine hbinade ?_
        calc (2 : Rat) ^ 52 * 2 ^ e ≤ ((m : Rat) - 1 / 2) * 2 ^ e :=
              mul_le_mul_of_nonneg_right (by linarith) hscale.le
          _ ≤ x := hhalf.trans hlow_le
      rw [cell_low hm, if_pos ⟨hleast, hnormal⟩] at hlow_le
      subst hleast
      exact ofMagnitude_below_binade hnormal hmax (by exact_mod_cast hlow_le) (not_le.mp hbinade) negative

/-- The first grid that meets a cell does so, if the last one is fine enough. -/
theorem firstGrid_has {c : Cell} {r : Rat} (hr : 0 < r) (k : Nat) (e : Int)
    (hfine : ∀ x, r - (10 : Rat) ^ (e - k) < x → x ≤ r → c.has x = true) :
    c.has (((firstGrid c r k e).1 : Rat) * 10 ^ (firstGrid c r k e).2) = true := by
  induction k generalizing e with
  | zero =>
    have hpos : (0 : Rat) < 10 ^ e := by positivity
    have hfloor : 0 ≤ (r / 10 ^ e).floor := Rat.le_floor_iff.mpr (by exact_mod_cast (div_pos hr hpos).le)
    have hcast : (((r / (10 : Rat) ^ e).floor.toNat : Nat) : Rat) = ((r / 10 ^ e).floor : Rat) := by
      exact_mod_cast Int.toNat_of_nonneg hfloor
    have hle := Rat.floor_le (r / 10 ^ e)
    have hlt := Rat.lt_floor_add_one (r / 10 ^ e)
    rw [le_div_iff₀ hpos] at hle
    rw [div_lt_iff₀ hpos] at hlt
    simp only [firstGrid, scaled_one_ten, hcast]
    refine hfine _ ?_ hle
    push_cast at hlt
    simp only [Nat.cast_zero, sub_zero]
    linarith
  | succ k ih =>
    simp only [firstGrid]
    split
    · rename_i n hn
      simp only [onGrid?, scaled_one_ten] at hn
      split at hn
      · rename_i hlower hupper
        split at hn
        · cases hn
          exact hlower
        · cases hn
          push_cast
          rwa [add_mul, one_mul]
      · rename_i hlower _
        cases hn
        exact hlower
      · rename_i _ hupper
        cases hn
        push_cast
        rwa [add_mul, one_mul]
      · cases hn
    · refine ih (e - 1) fun x => ?_
      rw [show e - 1 - (k : Int) = e - ((k + 1 : Nat) : Int) by omega]
      exact hfine x

/-- The shortest digits lie in the cell of the number that they stand for. -/
theorem shortest_has {m : Nat} {e : Int} (hm : 0 < m) (hlt : m < 2 ^ 53) :
    (cell m e).has (((shortest m e).1 : Rat) * 10 ^ (shortest m e).2) = true := by
  have hr : 0 < scaled m 2 e := scaled_pos hm (by decide) e
  refine firstGrid_has hr maxDigits _ fun x hlow hhigh => ?_
  have hexp := ten_pow_decimalExponent_le hr
  generalize decimalExponent (scaled m 2 e) = p at hlow hexp
  rw [scaled_eq (by norm_num)] at hlow hhigh hexp
  push_cast at hlow hhigh hexp
  have hscale := two_zpow_pos e
  have hmantissa : (m : Rat) * 2 ^ e ≤ 2 ^ 53 * 2 ^ e :=
    mul_le_mul_of_nonneg_right (by exact_mod_cast hlt.le) hscale.le
  -- the last grid has steps below a quarter of a unit
  have hstep : (10 : Rat) ^ (p - (maxDigits : Int)) < 1 / 4 * 2 ^ e := by
    rw [zpow_sub₀ (by norm_num), zpow_natCast]
    norm_num [maxDigits] at hmantissa ⊢
    linarith
  refine (Cell.has_iff _ _).mpr ⟨Or.inl ?_, Or.inl ?_⟩
  · rw [cell_low hm]
    have hpart : ((m : Rat) - if m = 2 ^ 52 ∧ minExponent < e then 1 / 4 else 1 / 2) * 2 ^ e ≤
        ((m : Rat) - 1 / 4) * 2 ^ e := by
      refine mul_le_mul_of_nonneg_right ?_ hscale.le
      split <;> linarith
    linarith
  · rw [cell_high]
    linarith

end Double

end BlockScript
