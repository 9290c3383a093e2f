import Mathlib.Data.List.Nodup
import BlockScript.Proofs.Keys

namespace BlockScript

/-- A letter or underscore, then letters, digits and underscores. -/
def IsIdentifier (s : String) : Prop :=
  ∃ c cs, s.toList = c :: cs ∧ (c.isAlpha ∨ c = '_') ∧ ∀ d ∈ cs, isIdentifierChar d = true

theorem isIdentifierChar_of_digit {c : Char} (h : c.isDigit = true) : isIdentifierChar c = true := by
  simp [isIdentifierChar, Char.isAlphanum, h]

theorem toString_digits (k : Nat) : ∀ c ∈ (toString k).toList, c.isDigit = true := by
  intro c hc
  rw [Nat.toString_eq_ofList_toDigits, String.toList_ofList] at hc
  exact Nat.isDigit_of_mem_toDigits (b := 10) (by decide) (by decide) hc

theorem toString_injective : Function.Injective (toString : Nat → String) := by
  intro i j h
  rw [Nat.toString_eq_ofList_toDigits, Nat.toString_eq_ofList_toDigits, String.ofList_inj] at h
  rw [← Nat.ofDigitChars_ten_toDigits (n := i), h, Nat.ofDigitChars_ten_toDigits]

theorem identifierOf_isIdentifier (s : String) : IsIdentifier (identifierOf s) := by
  unfold identifierOf
  have hmap : ∀ c ∈ s.toList.map (fun c => if isIdentifierChar c then c else '_'),
      isIdentifierChar c = true := by
    simp only [List.mem_map]
    rintro c ⟨d, -, rfl⟩
    split
    · assumption
    · decide
  cases hcs : s.toList.map (fun c => if isIdentifierChar c then c else '_') with
  | nil => exact ⟨'u', "nnamed".toList, by decide, by decide, List.all_eq_true.mp (by decide)⟩
  | cons c cs =>
    rw [hcs] at hmap
    have hc := hmap c (by simp)
    have hrest : ∀ d ∈ cs, isIdentifierChar d = true := fun d hd => hmap d (by simp [hd])
    simp only
    split
    · refine ⟨'m', 'y' :: '_' :: c :: cs, by simp, by decide, ?_⟩
      intro d hd
      simp only [List.mem_cons] at hd
      obtain rfl | rfl | rfl | hd := hd
      · decide
      · decide
      · exact hc
      · exact hrest d hd
    · rename_i hdigit
      refine ⟨c, cs, by simp, ?_, hrest⟩
      simpa [isIdentifierChar, Char.isAlphanum, hdigit] using hc

namespace Names

theorem suffixed_isIdentifier {base : String} (h : IsIdentifier base) (k : Nat) :
    IsIdentifier (suffixed base k) := by
  obtain ⟨c, cs, hbase, hc, hcs⟩ := h
  refine ⟨c, cs ++ '_' :: (toString k).toList, by simp [suffixed, hbase], hc, ?_⟩
  intro d hd
  simp only [List.mem_append, List.mem_cons] at hd
  obtain hd | rfl | hd := hd
  · exact hcs d hd
  · decide
  · exact isIdentifierChar_of_digit (toString_digits k d hd)

theorem suffixed_injective (base : String) {i j : Nat} (h : suffixed base i = suffixed base j) : i = j := by
  simp only [suffixed, ← String.toList_inj, String.toList_append, List.append_cancel_left_eq] at h
  exact toString_injective (String.toList_inj.mp h)

theorem isTaken_iff (names : Names) (x : String) :
    names.isTaken x = true ↔ x ∈ names.used ∨ x ∈ names.reserved := by
  simp [isTaken]

/-- Among more suffixes than taken identifiers one is free. -/
theorem exists_free_suffix (names : Names) (base : String) :
    ∃ i ≤ names.used.length + names.reserved.length, names.isTaken (suffixed base (2 + i)) = false := by
  by_contra hall
  push Not at hall
  let tries := (List.range (names.used.length + names.reserved.length + 1)).map fun i => suffixed base (2 + i)
  have hn : tries.Nodup := by
    refine List.Nodup.map_on (fun i _ j _ h => ?_) List.nodup_range
    have := suffixed_injective base h
    omega
  have hs : tries ⊆ names.used ++ names.reserved := by
    intro x hx
    obtain ⟨i, hi, rfl⟩ := List.mem_map.mp hx
    have hi' : i ≤ names.used.length + names.reserved.length := by have := List.mem_range.mp hi; omega
    have ht := (names.isTaken_iff _).mp (by simpa using hall i hi')
    exact List.mem_append.mpr ht
  have hl := hn.length_le_of_subset hs
  simp only [tries, List.length_map, List.length_range, List.length_append] at hl
  omega

theorem freeSuffix_spec (names : Names) (base : String) (tries k : Nat)
    (h : ∃ i ≤ tries, names.isTaken (suffixed base (k + i)) = false) :
    k ≤ names.freeSuffix base tries k ∧
      names.isTaken (suffixed base (names.freeSuffix base tries k)) = false ∧
      ∀ j, k ≤ j → j < names.freeSuffix base tries k → names.isTaken (suffixed base j) = true := by
  induction tries generalizing k with
  | zero =>
    obtain ⟨i, hi, hfree⟩ := h
    obtain rfl : i = 0 := by omega
    refine ⟨Nat.le_refl k, by simpa [freeSuffix] using hfree, ?_⟩
    intro j hj hlt
    simp only [freeSuffix] at hlt
    omega
  | succ tries ih =>
    by_cases ht : names.isTaken (suffixed base k) = true
    · obtain ⟨i, hi, hfree⟩ := h
      have hne : i ≠ 0 := by
        rintro rfl
        simp [ht] at hfree
      have hi' : k + 1 + (i - 1) = k + i := by omega
      obtain ⟨hle, hout, hbetween⟩ := ih (k + 1) ⟨i - 1, by omega, by rw [hi']; exact hfree⟩
      have he : names.freeSuffix base (tries + 1) k = names.freeSuffix base tries (k + 1) := by
        simp [freeSuffix, ht]
      rw [he]
      refine ⟨by omega, hout, ?_⟩
      intro j hj hlt
      obtain rfl | hj := Nat.eq_or_lt_of_le hj
      · exact ht
      · exact hbetween j hj hlt
    · have he : names.freeSuffix base (tries + 1) k = k := by simp [freeSuffix, ht]
      rw [he]
      refine ⟨Nat.le_refl k, by simpa using ht, ?_⟩
      intro j hj hlt
      omega

/-- A base itself where it is not taken, otherwise with the smallest number from two on that gives
an identifier that is not taken. -/
def IsFirstFree (taken : String → Prop) (base identifier : String) : Prop :=
  (¬ taken base ∧ identifier = base) ∨
    (taken base ∧ ∃ k ≥ 2, identifier = suffixed base k ∧ ¬ taken identifier ∧
      ∀ j, 2 ≤ j → j < k → taken (suffixed base j))

theorem IsFirstFree.not_taken {taken : String → Prop} {base x : String}
    (h : IsFirstFree taken base x) : ¬ taken x := by
  obtain ⟨hfree, rfl⟩ | ⟨-, k, -, -, hfree, -⟩ := h
  · exact hfree
  · exact hfree

theorem IsFirstFree.isIdentifier {taken : String → Prop} {base x : String}
    (h : IsFirstFree taken base x) (hb : IsIdentifier base) : IsIdentifier x := by
  obtain ⟨-, rfl⟩ | ⟨-, k, -, rfl, -, -⟩ := h
  · exact hb
  · exact suffixed_isIdentifier hb k

theorem IsFirstFree.congr {taken taken' : String → Prop} {base x : String}
    (h : IsFirstFree taken base x) (he : ∀ y, taken y ↔ taken' y) : IsFirstFree taken' base x := by
  rwa [show taken' = taken from funext fun y => propext (he y).symm]

theorem freeIdentifier_firstFree (names : Names) (base : String) :
    IsFirstFree (fun x => x ∈ names.used ∨ x ∈ names.reserved) base (names.freeIdentifier base) := by
  unfold freeIdentifier
  by_cases ht : names.isTaken base = true
  · rw [if_pos ht]
    obtain ⟨hle, hfree, hbetween⟩ := names.freeSuffix_spec base _ 2 (names.exists_free_suffix base)
    refine Or.inr ⟨(names.isTaken_iff base).mp ht, _, hle, rfl, ?_, ?_⟩
    · intro h
      simp [(names.isTaken_iff _).mpr h] at hfree
    · intro j hj hlt
      exact (names.isTaken_iff _).mp (hbetween j hj hlt)
  · rw [if_neg ht]
    exact Or.inl ⟨fun h => ht ((names.isTaken_iff base).mpr h), rfl⟩

theorem identifier_isIdentifier (v : Value) : IsIdentifier v.identifier :=
  identifierOf_isIdentifier _

/-- Only the logical name itself is found under a new identifier. -/
theorem find?_allocateFor (names : Names) (l l' : Label) : (names.allocateFor l).2.find? l' =
    if (l == l') = true then some (names.allocate l).1 else names.find? l' :=
  Ledger.get?_put names.identifiers l l' _

end Names

end BlockScript
