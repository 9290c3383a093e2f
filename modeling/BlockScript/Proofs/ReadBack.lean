import BlockScript.Number.Reading
import BlockScript.Proofs.Rounding

namespace BlockScript

namespace Text

theorem digitValue_of_isDigit {c : Char} (h : c.isDigit = true) : digitValue? c = some (c.toNat - 48) := by
  have hrange : 48 ≤ c.toNat ∧ c.toNat < 58 := by
    simp only [Char.isDigit, ge_iff_le, UInt32.le_iff_toNat_le, Bool.and_eq_true, decide_eq_true_eq] at h
    exact ⟨h.1, Nat.lt_succ_of_le h.2⟩
  simp [digitValue?, digitZeros, hrange]

theorem isDigit_of_isDigit {c : Char} (h : c.isDigit = true) : isDigit c = true := by
  simp [isDigit, digitValue_of_isDigit h]

theorem digitValue_lt {c : Char} {d : Nat} (h : digitValue? c = some d) : d < 10 := by
  simp only [digitValue?, Option.map_eq_some_iff] at h
  obtain ⟨z, hz, rfl⟩ := h
  have hin := List.find?_some hz
  simp only [Bool.and_eq_true, decide_eq_true_eq] at hin
  omega

theorem digitsValue_append (cs ds : List Char) :
    digitsValue (cs ++ ds) = digitsValue cs * 10 ^ ds.length + digitsValue ds := by
  have hstart : ∀ (es : List Char) (n : Nat), es.foldl (fun n c => 10 * n + (digitValue? c).getD 0) n =
      n * 10 ^ es.length + digitsValue es := by
    intro es
    induction es with
    | nil => simp [digitsValue]
    | cons c es ih =>
      intro n
      have hfirst : digitsValue (c :: es) = (digitValue? c).getD 0 * 10 ^ es.length + digitsValue es := by
        rw [← ih]
        simp [digitsValue]
      rw [List.foldl_cons, ih, hfirst, List.length_cons, Nat.pow_succ]
      ring
  rw [digitsValue, List.foldl_append, hstart]
  rfl

theorem digitsValue_cons (c : Char) (ds : List Char) :
    digitsValue (c :: ds) = (digitValue? c).getD 0 * 10 ^ ds.length + digitsValue ds := by
  have h := digitsValue_append [c] ds
  simpa [digitsValue] using h

theorem digitsValue_zeros (k : Nat) : digitsValue (List.replicate k '0') = 0 := by
  have hzero : digitValue? '0' = some 0 := by decide
  induction k with
  | zero => rfl
  | succ k ih => simp [List.replicate_succ, digitsValue_cons, ih, hzero]

theorem digitsValue_lt (cs : List Char) : digitsValue cs < 10 ^ cs.length := by
  induction cs with
  | nil => simp [digitsValue]
  | cons c cs ih =>
    have hd : (digitValue? c).getD 0 ≤ 9 := by
      cases hc : digitValue? c with
      | none => simp
      | some d => exact Nat.le_of_lt_succ (digitValue_lt hc)
    have hmul := Nat.mul_le_mul_right (10 ^ cs.length) hd
    rw [digitsValue_cons, List.length_cons, Nat.pow_succ]
    omega

theorem digitsValue_dropZeros (cs : List Char) :
    digitsValue (cs.dropWhile (digitValue? · == some 0)) = digitsValue cs := by
  induction cs with
  | nil => rfl
  | cons c cs ih =>
    rw [List.dropWhile_cons]
    split
    · rename_i hc
      rw [ih, digitsValue_cons, beq_iff_eq.mp hc]
      simp
    · rfl

/-- Digits that do not start with a zero. -/
theorem ten_pow_le_digitsValue {cs : List Char} (hdigits : ∀ c ∈ cs, isDigit c = true)
    (hne : cs.dropWhile (digitValue? · == some 0) ≠ []) :
    10 ^ ((cs.dropWhile (digitValue? · == some 0)).length - 1) ≤ digitsValue cs := by
  rw [← digitsValue_dropZeros]
  cases hd : cs.dropWhile (digitValue? · == some 0) with
  | nil => exact absurd hd hne
  | cons c ds =>
    have hc := List.head?_dropWhile_not (digitValue? · == some 0) cs
    have hdigit := hdigits c ((List.dropWhile_sublist _).subset (hd ▸ List.mem_cons_self))
    rw [hd] at hc
    obtain ⟨d, hvalue⟩ := Option.isSome_iff_exists.mp hdigit
    have hpos : 0 < d := by
      simp only [List.head?_cons, hvalue] at hc
      simp only [beq_eq_false_iff_ne, ne_eq, Option.some.injEq] at hc
      omega
    have hmul := Nat.mul_le_mul_right (10 ^ ds.length) hpos
    rw [digitsValue_cons, hvalue]
    simp only [List.length_cons, Nat.add_sub_cancel, Option.getD_some]
    omega

theorem digitsValue_toDigits (n : Nat) : digitsValue (Nat.toDigits 10 n) = n := by
  have hsmall : ∀ k < 10, digitsValue [Nat.digitChar k] = k := by decide
  induction n using Nat.strongRecOn with
  | _ n ih =>
    by_cases hlt : n < 10
    · rw [Nat.toDigits_of_lt_base hlt]
      exact hsmall n hlt
    · rw [Nat.toDigits_of_base_le (by decide) (by omega), digitsValue_append, ih (n / 10) (by omega),
        hsmall (n % 10) (Nat.mod_lt n (by decide))]
      simp only [List.length_singleton, Nat.pow_one]
      omega

end Text

open Text

section Reading

variable {cs ds rest : List Char}

/-- What follows a row of digits and is no part of it. -/
def NoDigitFirst (rest : List Char) : Prop :=
  ∀ c ∈ rest.head?, isDigit c = false

theorem takeWhile_digits (h : ∀ c ∈ cs, isDigit c = true) (hrest : NoDigitFirst rest) :
    (cs ++ rest).takeWhile isDigit = cs := by
  rw [List.takeWhile_append_of_pos h]
  cases rest with
  | nil => simp
  | cons c rest => simp [hrest c rfl]

theorem dropWhile_digits (h : ∀ c ∈ cs, isDigit c = true) (hrest : NoDigitFirst rest) :
    (cs ++ rest).dropWhile isDigit = rest := by
  rw [List.dropWhile_append_of_pos h]
  cases rest with
  | nil => rfl
  | cons c rest => simp [hrest c rfl]

theorem readSign_digit {c : Char} (h : isDigit c = true) (rest : List Char) : readSign (c :: rest) = (false, c :: rest) := by
  unfold readSign
  split
  · rename_i hc
    cases hc
    exact absurd h (by decide)
  · rename_i hc
    cases hc
    exact absurd h (by decide)
  · rfl

namespace Numeral

/-- Digits with a point between them. -/
theorem read_point (hne : cs ≠ []) (hcs : ∀ c ∈ cs, isDigit c = true) (hds : ∀ c ∈ ds, isDigit c = true)
    (hrest : NoDigitFirst rest) : read? (cs ++ '.' :: (ds ++ rest)) =
      some (⟨false, cs ++ ds, (readExponent rest).1 - ds.length⟩, (readExponent rest).2) := by
  have hpoint : NoDigitFirst ('.' :: (ds ++ rest)) := by
    rintro c hc
    cases hc
    decide
  obtain ⟨c, cs', rfl⟩ := List.exists_cons_of_ne_nil hne
  simp only [read?, List.cons_append, readSign_digit (hcs c (by simp))]
  rw [← List.cons_append, takeWhile_digits hcs hpoint, dropWhile_digits hcs hpoint]
  simp [takeWhile_digits hds hrest, dropWhile_digits hds hrest]

/-- Digits without a point. -/
theorem read_whole (hne : cs ≠ []) (hcs : ∀ c ∈ cs, isDigit c = true) (hrest : NoDigitFirst rest)
    (hpoint : '.' ∉ rest.head?) : read? (cs ++ rest) =
      some (⟨false, cs, (readExponent rest).1⟩, (readExponent rest).2) := by
  obtain ⟨c, cs', rfl⟩ := List.exists_cons_of_ne_nil hne
  simp only [read?, List.cons_append, readSign_digit (hcs c (by simp))]
  rw [← List.cons_append, takeWhile_digits hcs hrest, dropWhile_digits hcs hrest]
  cases rest with
  | nil => simp
  | cons d rest =>
    have hd : d ≠ '.' := fun hd => hpoint (by simp [hd])
    split
    · rename_i heq
      simp at heq
      exact absurd heq.1 hd
    · simp

end Numeral

theorem isDigit_zero : isDigit '0' = true := by decide

theorem digitsValue_zero_cons (cs : List Char) : digitsValue ('0' :: cs) = digitsValue cs := by
  have hzero : digitValue? '0' = some 0 := by decide
  simp [digitsValue_cons, hzero]

/-- The digits of an exponent, behind its sign. -/
theorem exponentText_digits (x : Int) : ∃ row, Double.exponentText x = (if x < 0 then '-' else '+') :: row ∧
    row ≠ [] ∧ (∀ c ∈ row, isDigit c = true) ∧ digitsValue row = x.natAbs := by
  have hdigits : ∀ c ∈ Nat.toDigits 10 x.natAbs, isDigit c = true :=
    fun c hc => isDigit_of_isDigit (toDigits_digits _ c hc)
  refine ⟨_, rfl, ?_⟩
  split
  · refine ⟨by simp, ?_, by rw [digitsValue_zero_cons, digitsValue_toDigits]⟩
    exact List.forall_mem_cons.mpr ⟨isDigit_zero, hdigits⟩
  · exact ⟨Nat.toDigits_ne_nil, hdigits, digitsValue_toDigits _⟩

theorem readExponent_exponentText (x : Int) : readExponent ('e' :: Double.exponentText x) = (x, []) := by
  obtain ⟨row, htext, hne, hdigits, hvalue⟩ := exponentText_digits x
  have hend : NoDigitFirst [] := fun _ h => absurd h (by simp)
  have htake : row.takeWhile isDigit = row := by simpa using takeWhile_digits hdigits hend
  have hdrop : row.dropWhile isDigit = [] := by simpa using dropWhile_digits hdigits hend
  rw [htext]
  by_cases hx : x < 0
  · have hsigned : signedValue true row = x := by
      simp only [signedValue, hvalue, if_true]
      omega
    simp [readExponent, readSign, hx, htake, hdrop, hne, hsigned]
  · have hsigned : signedValue false row = x := by
      simp only [signedValue, hvalue, Bool.false_eq_true, if_false]
      omega
    simp [readExponent, readSign, hx, htake, hdrop, hne, hsigned]

/-- The text is a numeral without sign, and this is its value. -/
def Numeral.Writes (cs : List Char) (r : Rat) : Prop :=
  ∃ a : Numeral, Numeral.read? cs = some (a, []) ∧ a.negative = false ∧ (∀ c ∈ a.digits, isDigit c = true) ∧
    (digitsValue a.digits : Rat) * 10 ^ a.exponent = r

namespace Numeral

theorem noDigitFirst_nil : NoDigitFirst [] :=
  fun _ h => absurd h (by simp)

theorem noDigitFirst_exponent (x : Int) : NoDigitFirst ('e' :: Double.exponentText x) := by
  rintro c hc
  cases hc
  decide

theorem writes_point (hne : cs ≠ []) (hcs : ∀ c ∈ cs, isDigit c = true) (hds : ∀ c ∈ ds, isDigit c = true) :
    Writes (cs ++ '.' :: ds) (digitsValue (cs ++ ds) * 10 ^ (-(ds.length : Int))) := by
  have hread := read_point hne hcs hds noDigitFirst_nil
  rw [List.append_nil] at hread
  exact ⟨_, hread, rfl, List.forall_mem_append.mpr ⟨hcs, hds⟩, by simp [readExponent]⟩

theorem writes_scientific (hne : cs ≠ []) (hcs : ∀ c ∈ cs, isDigit c = true) (hds : ∀ c ∈ ds, isDigit c = true)
    (x : Int) : Writes (cs ++ (if ds.isEmpty then [] else '.' :: ds) ++ 'e' :: Double.exponentText x)
      (digitsValue (cs ++ ds) * 10 ^ (x - ds.length)) := by
  by_cases hempty : ds = []
  · subst hempty
    have hread := read_whole hne hcs (noDigitFirst_exponent x) (by simp)
    rw [readExponent_exponentText] at hread
    exact ⟨_, by simpa using hread, rfl, hcs, by simp⟩
  · have hread := read_point hne hcs hds (noDigitFirst_exponent x)
    rw [readExponent_exponentText] at hread
    exact ⟨_, by simpa [hempty] using hread, rfl, List.forall_mem_append.mpr ⟨hcs, hds⟩, rfl⟩

/-- A row of digits with its point set is a numeral of the value that the digits have there. -/
theorem writes_layout (hne : ds ≠ []) (hds : ∀ c ∈ ds, isDigit c = true) (x : Int) :
    Writes (Double.layout ds x) (digitsValue ds * 10 ^ (x + 1 - ds.length)) := by
  have htake (k : Nat) : ∀ c ∈ ds.take k, isDigit c = true := fun c hc => hds c (List.mem_of_mem_take hc)
  have hdrop (k : Nat) : ∀ c ∈ ds.drop k, isDigit c = true := fun c hc => hds c (List.mem_of_mem_drop hc)
  have hfirst (k : Nat) : ds.take (k + 1) ≠ [] := by simpa using hne
  have hzeros (k : Nat) : ∀ c ∈ List.replicate k '0', isDigit c = true :=
    fun c hc => List.eq_of_mem_replicate hc ▸ isDigit_zero
  have hzero : ∀ c ∈ ['0'], isDigit c = true := by simpa using isDigit_zero
  have hlength : 0 < ds.length := List.length_pos_iff.mpr hne
  unfold Double.layout
  dsimp only
  split
  · -- one digit, the point and the exponent
    have hwrites := writes_scientific (hfirst 0) (htake 1) (hdrop 1) x
    rw [List.take_append_drop, List.length_drop] at hwrites
    rwa [show x + 1 - (ds.length : Int) = x - ((ds.length - 1 : Nat) : Int) by omega]
  · split
    · -- zeros between the point and the digits
      have hwrites := writes_point (show ['0'] ≠ [] by simp) hzero
        (List.forall_mem_append.mpr ⟨hzeros ((-x).toNat - 1), hds⟩)
      rw [List.singleton_append, List.singleton_append, digitsValue_zero_cons, digitsValue_append, digitsValue_zeros,
        Nat.zero_mul, Nat.zero_add, List.length_append, List.length_replicate] at hwrites
      rwa [show x + 1 - (ds.length : Int) = -(((-x).toNat - 1 + ds.length : Nat) : Int) by omega]
    · by_cases hwhole : ds.length ≤ x.toNat + 1
      · -- zeros between the digits and the point
        have hwrites := writes_point (show ds ++ List.replicate (x.toNat + 1 - ds.length) '0' ≠ [] by simp [hne])
          (List.forall_mem_append.mpr ⟨hds, hzeros _⟩) hzero
        have hvalue : (digitsValue (ds ++ List.replicate (x.toNat + 1 - ds.length) '0' ++ ['0']) : Rat) *
            10 ^ (-((['0'] : List Char).length : Int)) = digitsValue ds * 10 ^ (x + 1 - ds.length) := by
          have hshift : x + 1 - (ds.length : Int) = ((x.toNat + 1 - ds.length : Nat) : Int) := by omega
          rw [digitsValue_append, digitsValue_append, digitsValue_zeros, hshift, zpow_natCast, zpow_neg,
            zpow_natCast, show digitsValue ['0'] = 0 from digitsValue_zeros 1]
          push_cast [List.length_replicate, List.length_singleton]
          field_simp
          ring
        rw [hvalue] at hwrites
        simpa [List.drop_eq_nil_of_le hwhole, List.take_of_length_le hwhole] using hwrites
      · have hwrites := writes_point (hfirst x.toNat) (htake _) (hdrop (x.toNat + 1))
        rw [List.take_append_drop, List.length_drop] at hwrites
        have hrest : ds.drop (x.toNat + 1) ≠ [] := by
          rw [Ne, List.drop_eq_nil_iff]
          exact hwhole
        rw [show x + 1 - (ds.length : Int) = -((ds.length - (x.toNat + 1) : Nat) : Int) by omega]
        rwa [Nat.sub_eq_zero_of_le (by omega), List.replicate_zero, List.append_nil, if_neg (by simpa using hrest)]

theorem max_lt_ten_pow : (2 : Rat) ^ 53 * 2 ^ Double.maxExponent < 10 ^ (309 : Int) := by
  have hnat : 2 ^ 1024 < 10 ^ 309 := by decide +kernel
  have hcast : (2 : Rat) ^ 1024 < 10 ^ 309 := by exact_mod_cast hnat
  calc (2 : Rat) ^ 53 * 2 ^ Double.maxExponent = 2 ^ 1024 := by
        rw [show Double.maxExponent = ((971 : Nat) : Int) from rfl, zpow_natCast, ← pow_add]
    _ < 10 ^ 309 := hcast
    _ = 10 ^ (309 : Int) := (zpow_natCast (10 : Rat) 309).symm

theorem ten_pow_lt_min : (10 : Rat) ^ (-330 : Int) < 1 / 2 * 2 ^ Double.minExponent := by
  have hnat : 2 ^ 1075 < 10 ^ 330 := by decide +kernel
  have hcast : (2 : Rat) ^ 1075 < 10 ^ 330 := by exact_mod_cast hnat
  calc (10 : Rat) ^ (-330 : Int) = (10 ^ 330)⁻¹ := by
        rw [show (-330 : Int) = -((330 : Nat) : Int) from rfl, zpow_neg, zpow_natCast]
    _ < (2 ^ 1075)⁻¹ := inv_strictAnti₀ (by positivity) hcast
    _ = 1 / 2 * 2 ^ Double.minExponent := by
        rw [show Double.minExponent = -((1074 : Nat) : Int) from rfl, zpow_neg, zpow_natCast, pow_succ, mul_inv, mul_comm,
          one_div]

/-- A numeral whose value lies in the cell of a finite number is read as that number. -/
theorem toDouble_of_cell {a : Numeral} (hdigits : ∀ c ∈ a.digits, isDigit c = true) {m : Nat} {e : Int} (hm : 0 < m)
    (hcanonical : Double.Canonical m e)
    (hcell : (Double.cell m e).has ((digitsValue a.digits : Rat) * 10 ^ a.exponent) = true) :
    a.toDouble = .finite a.negative m e := by
  obtain ⟨hlow, hhigh⟩ := (Double.Cell.has_iff _ _).mp hcell
  have hleast : (1 / 2 : Rat) * 2 ^ Double.minExponent ≤ (digitsValue a.digits : Rat) * 10 ^ a.exponent := by
    have hone : (1 : Rat) ≤ m := by exact_mod_cast hm
    calc (1 / 2 : Rat) * 2 ^ Double.minExponent ≤ ((m : Rat) - 1 / 2) * 2 ^ e :=
          mul_le_mul (by linarith) (Double.two_zpow_mono hcanonical.min_le) (Double.two_zpow_pos _).le (by linarith)
      _ ≤ (Double.cell m e).low := Double.half_below_le_low hm e
      _ ≤ _ := hlow.elim le_of_lt fun h => h.1.le
  have hmost : (digitsValue a.digits : Rat) * 10 ^ a.exponent ≤ 2 ^ 53 * 2 ^ Double.maxExponent := by
    have hsucc : (m : Rat) + 1 ≤ 2 ^ 53 := by exact_mod_cast hcanonical.mantissa_lt
    calc (digitsValue a.digits : Rat) * 10 ^ a.exponent ≤ (Double.cell m e).high := hhigh.elim le_of_lt fun h => h.1.le
      _ = ((m : Rat) + 1 / 2) * 2 ^ e := Double.cell_high m e
      _ ≤ 2 ^ 53 * 2 ^ Double.maxExponent :=
        mul_le_mul (by linarith) (Double.two_zpow_mono hcanonical.le_max) (Double.two_zpow_pos _).le (by norm_num)
  have hne : digitsValue a.digits ≠ 0 := by
    intro hzero
    rw [hzero] at hleast
    have hpos := Double.two_zpow_pos Double.minExponent
    norm_num at hleast
    linarith
  have hrow : a.digits.dropWhile (digitValue? · == some 0) ≠ [] := by
    intro hnil
    have hvalue := digitsValue_dropZeros a.digits
    rw [hnil] at hvalue
    exact hne hvalue.symm
  have hlower := ten_pow_le_digitsValue hdigits hrow
  have hupper := digitsValue_lt (a.digits.dropWhile (digitValue? · == some 0))
  rw [digitsValue_dropZeros] at hupper
  have hlength : 0 < (a.digits.dropWhile (digitValue? · == some 0)).length := List.length_pos_iff.mpr hrow
  unfold toDouble
  dsimp only
  generalize (a.digits.dropWhile (digitValue? · == some 0)).length = k at hlower hupper hlength
  have hscale : (0 : Rat) < 10 ^ a.exponent := by positivity
  -- the first digit that is not zero gives the order of magnitude
  have htop : a.exponent + k - 1 < 309 := by
    have hpow : (10 : Rat) ^ (a.exponent + k - 1) < 10 ^ (309 : Int) := by
      calc (10 : Rat) ^ (a.exponent + k - 1) = ((10 ^ (k - 1) : Nat) : Rat) * 10 ^ a.exponent := by
            rw [show a.exponent + k - 1 = ((k - 1 : Nat) : Int) + a.exponent by omega, zpow_add₀ (by norm_num),
              zpow_natCast]
            push_cast
            rfl
        _ ≤ (digitsValue a.digits : Rat) * 10 ^ a.exponent :=
          mul_le_mul_of_nonneg_right (by exact_mod_cast hlower) hscale.le
        _ ≤ 2 ^ 53 * 2 ^ Double.maxExponent := hmost
        _ < 10 ^ (309 : Int) := max_lt_ten_pow
    exact (zpow_lt_zpow_iff_right₀ (by norm_num : (1 : Rat) < 10)).mp hpow
  have hbottom : -330 < a.exponent + k := by
    have hpow : (10 : Rat) ^ (-330 : Int) < 10 ^ (a.exponent + k) := by
      calc (10 : Rat) ^ (-330 : Int) < 1 / 2 * 2 ^ Double.minExponent := ten_pow_lt_min
        _ ≤ (digitsValue a.digits : Rat) * 10 ^ a.exponent := hleast
        _ ≤ ((10 ^ k : Nat) : Rat) * 10 ^ a.exponent :=
          mul_le_mul_of_nonneg_right (by exact_mod_cast hupper.le) hscale.le
        _ = 10 ^ (a.exponent + k) := by
          rw [add_comm, zpow_add₀ (by norm_num), zpow_natCast]
          push_cast
          rfl
    exact (zpow_lt_zpow_iff_right₀ (by norm_num : (1 : Rat) < 10)).mp hpow
  rw [if_neg hne, if_neg (by simp only [overflowFrom]; omega), if_neg (by simp only [underflowBelow]; omega),
    scaled_eq (by norm_num)]
  exact Double.ofMagnitude_cell hm hcanonical (by exact_mod_cast hcell) _

end Numeral

/-- The characters of a numeral without sign. -/
def IsNumeralChar (c : Char) : Prop :=
  c.isDigit = true ∨ c ∈ ['.', 'e', '+', '-']

theorem isNumeralChar_layout (hds : ∀ c ∈ ds, c.isDigit = true) (x : Int) : ∀ c ∈ Double.layout ds x, IsNumeralChar c := by
  obtain ⟨sign, row, hrow, hsign, -, hdigits⟩ := Double.exponentText_eq x
  have hzeros (k : Nat) : ∀ c ∈ List.replicate k '0', IsNumeralChar c :=
    fun c hc => List.eq_of_mem_replicate hc ▸ Or.inl rfl
  have hall : ∀ c ∈ ds, IsNumeralChar c := fun c hc => Or.inl (hds c hc)
  have htake (k : Nat) : ∀ c ∈ ds.take k, IsNumeralChar c := fun c hc => hall c (List.mem_of_mem_take hc)
  have hdrop (k : Nat) : ∀ c ∈ ds.drop k, IsNumeralChar c := fun c hc => hall c (List.mem_of_mem_drop hc)
  have hpoint : IsNumeralChar '.' := Or.inr (by simp)
  have hexponent : ∀ c ∈ 'e' :: Double.exponentText x, IsNumeralChar c := by
    rw [hrow]
    refine List.forall_mem_cons.mpr ⟨Or.inr (by simp), List.forall_mem_cons.mpr ⟨Or.inr ?_, fun c hc => Or.inl (hdigits c hc)⟩⟩
    obtain rfl | rfl := hsign <;> simp
  unfold Double.layout
  dsimp only
  split
  · refine List.forall_mem_append.mpr ⟨List.forall_mem_append.mpr ⟨htake 1, ?_⟩, hexponent⟩
    split
    · simp
    · exact List.forall_mem_cons.mpr ⟨hpoint, hdrop 1⟩
  · split
    · exact List.forall_mem_cons.mpr ⟨Or.inl rfl, List.forall_mem_cons.mpr ⟨hpoint,
        List.forall_mem_append.mpr ⟨hzeros _, hall⟩⟩⟩
    · refine List.forall_mem_append.mpr ⟨List.forall_mem_append.mpr ⟨htake _, hzeros _⟩,
        List.forall_mem_cons.mpr ⟨hpoint, ?_⟩⟩
      split
      · simpa using hzeros 1
      · exact hdrop _

theorem IsNumeralChar.not_blank {c : Char} (h : IsNumeralChar c) : isNumberBlank c = false := by
  have hrange : 43 ≤ c.toNat ∧ c.toNat ≤ 101 := by
    obtain h | h := h
    · simp only [Char.isDigit, ge_iff_le, UInt32.le_iff_toNat_le, Bool.and_eq_true, decide_eq_true_eq] at h
      exact ⟨le_trans (by decide) h.1, le_trans h.2 (by decide)⟩
    · simp only [List.mem_cons, List.not_mem_nil, or_false] at h
      obtain rfl | rfl | rfl | rfl := h <;> decide
  rw [isNumberBlank, isBlank, Bool.and_eq_false_iff]
  refine Or.inl (Bool.eq_false_iff.mpr fun hblank => ?_)
  obtain ⟨r, hr, hlow, hhigh⟩ := Ranges.has_iff.mp hblank
  simp only [blankRanges, List.mem_cons, List.not_mem_nil, or_false] at hr
  obtain rfl | rfl | rfl | rfl | rfl | rfl | rfl | rfl | rfl | rfl := hr <;> simp only at hlow hhigh <;> omega

theorem IsNumeralChar.ne_separator {c : Char} (h : IsNumeralChar c) : c ≠ '_' := by
  rintro rfl
  obtain h | h := h
  · exact absurd h (by decide)
  · simp at h

theorem dropNumberBlanks_ofList (h : ∀ c ∈ cs, IsNumeralChar c) : dropNumberBlanks (String.ofList cs) = cs := by
  have hkeep : ∀ row : List Char, (∀ c ∈ row, IsNumeralChar c) → row.dropWhile isNumberBlank = row := by
    intro row hrow
    cases row with
    | nil => rfl
    | cons c row => simp [(hrow c (by simp)).not_blank]
  rw [dropNumberBlanks, String.toList_ofList, hkeep cs h, hkeep _ (fun c hc => h c (List.mem_reverse.mp hc)),
    List.reverse_reverse]

theorem dropSeparators_of_none (after : Bool) (h : ∀ c ∈ cs, IsNumeralChar c) : dropSeparators? after cs = some cs := by
  induction cs generalizing after with
  | nil => rfl
  | cons c cs ih =>
    have hc := (h c (by simp)).ne_separator
    rw [dropSeparators?]
    · rw [ih _ fun d hd => h d (by simp [hd])]
      rfl
    · exact hc

end Reading

namespace Double

/-- A finite number that is not negative, as text. -/
def positiveText (m : Nat) (e : Int) : String :=
  String.ofList (layout (digitRow (shortest m e).1 (shortest m e).2).1 (digitRow (shortest m e).1 (shortest m e).2).2)

/-- Dropping zeros at the end moves the power of ten. -/
theorem digitRow_value (n : Nat) (e : Int) : (digitsValue (digitRow n e).1 : Rat) *
    10 ^ ((digitRow n e).2 + 1 - (digitRow n e).1.length) = n * 10 ^ e := by
  obtain ⟨k, hk⟩ : ∃ k, (Nat.toDigits 10 n).reverse.takeWhile (· == '0') = List.replicate k '0' := by
    refine ⟨_, List.eq_replicate_iff.mpr ⟨rfl, fun c hc => ?_⟩⟩
    simpa using List.mem_takeWhile_imp hc
  have hdigits : Nat.toDigits 10 n = (digitRow n e).1 ++ List.replicate k '0' := by
    have hsplit : (Nat.toDigits 10 n).reverse.takeWhile (· == '0') ++ (Nat.toDigits 10 n).reverse.dropWhile (· == '0') =
        (Nat.toDigits 10 n).reverse := List.takeWhile_append_dropWhile
    rw [hk] at hsplit
    have hreverse := congrArg List.reverse hsplit
    simpa [digitRow] using hreverse.symm
  have hvalue := digitsValue_toDigits n
  rw [hdigits, digitsValue_append, digitsValue_zeros, List.length_replicate, Nat.add_zero] at hvalue
  have hlength : (digitRow n e).2 + 1 - (digitRow n e).1.length = e + k := by
    have hlengths := congrArg List.length hdigits
    rw [List.length_append, List.length_replicate] at hlengths
    have hsecond : (digitRow n e).2 = e + (Nat.toDigits 10 n).length - 1 := rfl
    rw [hsecond]
    omega
  rw [hlength, add_comm, zpow_add₀ (by norm_num), zpow_natCast, ← mul_assoc]
  congr 1
  exact_mod_cast hvalue

/-- The text of a finite number reads back. -/
theorem ofText_positiveText {m : Nat} {e : Int} (hm : 0 < m) (hcanonical : Canonical m e) :
    ofText? (positiveText m e) = some (finite false m e) := by
  obtain ⟨hne, hdigits⟩ := digitRow_digits (shortest_ne_zero hm e) (shortest m e).2
  have hchars := isNumeralChar_layout hdigits (digitRow (shortest m e).1 (shortest m e).2).2
  obtain ⟨a, hread, hsign, hrow, hvalue⟩ := Numeral.writes_layout hne (fun c hc => isDigit_of_isDigit (hdigits c hc))
    (digitRow (shortest m e).1 (shortest m e).2).2
  rw [digitRow_value] at hvalue
  have hcell := shortest_has (e := e) hm hcanonical.mantissa_lt
  rw [← hvalue] at hcell
  unfold ofText? positiveText
  rw [dropNumberBlanks_ofList hchars, dropSeparators_of_none false hchars]
  simp only [hread, Numeral.toDouble_of_cell hrow hm hcanonical hcell, hsign]

end Double

end BlockScript
