namespace BlockScript

/-- A table that keeps its keys in the order of first entry. -/
structure Ledger (κ α : Type) where
  entries : List (κ × α) := []

namespace Ledger

variable {κ α : Type}

def keys (l : Ledger κ α) : List κ :=
  l.entries.map (·.1)

def values (l : Ledger κ α) : List α :=
  l.entries.map (·.2)

def size (l : Ledger κ α) : Nat :=
  l.entries.length

variable [BEq κ]

def get? (l : Ledger κ α) (k : κ) : Option α :=
  (l.entries.find? (·.1 == k)).map (·.2)

def contains (l : Ledger κ α) (k : κ) : Bool :=
  l.entries.any (·.1 == k)

def putEntry (k : κ) (a : α) : List (κ × α) → List (κ × α)
  | [] => [(k, a)]
  | e :: es => if e.1 == k then (e.1, a) :: es else e :: putEntry k a es

/-- An old key keeps its place. -/
def put (l : Ledger κ α) (k : κ) (a : α) : Ledger κ α :=
  ⟨putEntry k a l.entries⟩

def erase (l : Ledger κ α) (k : κ) : Ledger κ α :=
  ⟨l.entries.filter fun e => !(e.1 == k)⟩

theorem contains_eq (l : Ledger κ α) (k : κ) : l.contains k = (l.get? k).isSome := by
  rw [contains, get?, Option.isSome_map, List.isSome_find?]

/-- A new key comes last. -/
theorem keys_put (l : Ledger κ α) (k : κ) (a : α) :
    (l.put k a).keys = if l.contains k then l.keys else l.keys ++ [k] := by
  obtain ⟨es⟩ := l
  simp only [put, keys, contains]
  induction es with
  | nil => rfl
  | cons e es ih =>
    simp only [putEntry, List.any_cons]
    by_cases h : e.1 == k
    · simp [h]
    · simp only [h, Bool.false_eq_true, ↓reduceIte, List.map_cons, ih, Bool.false_or]
      by_cases hs : es.any (·.1 == k) <;> simp [hs]

theorem entries_put_new {l : Ledger κ α} {k : κ} (h : l.contains k = false) (a : α) :
    (l.put k a).entries = l.entries ++ [(k, a)] := by
  obtain ⟨es⟩ := l
  simp only [put, contains] at h ⊢
  induction es with
  | nil => rfl
  | cons e es ih =>
    simp only [List.any_cons, Bool.or_eq_false_iff] at h
    simp [putEntry, h.1, ih h.2]

theorem contains_iff [LawfulBEq κ] {l : Ledger κ α} {k : κ} : l.contains k = true ↔ k ∈ l.keys := by
  simp [contains, keys]

theorem mem_keys_put [LawfulBEq κ] {l : Ledger κ α} {k k' : κ} {a : α} :
    k' ∈ (l.put k a).keys ↔ k' = k ∨ k' ∈ l.keys := by
  rw [keys_put]
  by_cases h : l.contains k
  · rw [if_pos h]
    refine ⟨Or.inr, ?_⟩
    rintro (rfl | hk)
    · exact contains_iff.mp h
    · exact hk
  · rw [if_neg h]
    simp [or_comm]

theorem nodup_keys_put [LawfulBEq κ] {l : Ledger κ α} (h : l.keys.Nodup) (k : κ) (a : α) : (l.put k a).keys.Nodup := by
  rw [keys_put]
  by_cases hk : l.contains k
  · rw [if_pos hk]
    exact h
  · rw [if_neg hk]
    rw [contains_iff] at hk
    apply List.nodup_append.mpr
    refine ⟨h, by simp, ?_⟩
    rintro x hx y hy rfl
    exact hk (List.mem_singleton.mp hy ▸ hx)

/-- Only the value of this key changes. -/
theorem get?_put [PartialEquivBEq κ] (l : Ledger κ α) (k k' : κ) (a : α) :
    (l.put k a).get? k' = if k == k' then some a else l.get? k' := by
  obtain ⟨es⟩ := l
  simp only [put, get?]
  induction es with
  | nil => by_cases h : k == k' <;> simp [putEntry, h]
  | cons e es ih =>
    simp only [putEntry]
    by_cases h : e.1 == k
    · have hk : (e.1 == k') = (k == k') := BEq.congr_left h
      by_cases h' : k == k' <;> simp [h, hk, h']
    · by_cases he : e.1 == k'
      · have hk : ¬(k == k') := fun hk => h (BEq.trans he (BEq.symm hk))
        simp [h, he, hk]
      · simpa [h, he] using ih

theorem get?_erase [PartialEquivBEq κ] (l : Ledger κ α) (k k' : κ) :
    (l.erase k).get? k' = if k == k' then none else l.get? k' := by
  obtain ⟨es⟩ := l
  simp only [erase, get?]
  induction es with
  | nil => simp
  | cons e es ih =>
    by_cases h : e.1 == k
    · have hk : (e.1 == k') = (k == k') := BEq.congr_left h
      rw [List.filter_cons_of_neg (by simp [h]), ih]
      by_cases h' : k == k' <;> simp [hk, h']
    · by_cases he : e.1 == k'
      · have hk : ¬(k == k') := fun hk => h (BEq.trans he (BEq.symm hk))
        simp [h, he, hk]
      · simpa [h, he] using ih

end Ledger

end BlockScript
