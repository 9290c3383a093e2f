import BlockScript.Fault

namespace BlockScript

variable {ε α β : Type}

theorem ok_of_bind {x : Except ε α} {f : α → Except ε β} {b : β} (h : (x >>= f) = .ok b) :
    ∃ a, x = .ok a ∧ f a = .ok b := by
  cases x with
  | error e => cases h
  | ok a => exact ⟨a, rfl, h⟩

theorem error_of_bind {x : Except ε α} {f : α → Except ε β} {e : ε}
    (h : (x >>= f) = .error e) : x = .error e ∨ ∃ a, x = .ok a ∧ f a = .error e := by
  cases x with
  | error e' =>
    obtain rfl : e' = e := by cases h; rfl
    exact Or.inl rfl
  | ok a => exact Or.inr ⟨a, rfl, h⟩

theorem ok_of_foldlM {f : β → α → Except ε β} {l : List α} {b c : β} (h : l.foldlM f b = .ok c) :
    ∀ a ∈ l, ∃ b' c', f b' a = .ok c' := by
  induction l generalizing b with
  | nil => simp
  | cons a l ih =>
    rw [List.foldlM_cons] at h
    obtain ⟨b', hb, hl⟩ := ok_of_bind h
    intro x hx
    obtain rfl | hx := List.mem_cons.mp hx
    · exact ⟨b, b', hb⟩
    · exact ih hl x hx

theorem foldlM_keeps {P : β → Prop} {f : β → α → Except ε β} {l : List α}
    (hf : ∀ a ∈ l, ∀ b c, P b → f b a = .ok c → P c) {b c : β} (hb : P b) (h : l.foldlM f b = .ok c) : P c := by
  induction l generalizing b with
  | nil =>
    obtain rfl : b = c := by cases h; rfl
    exact hb
  | cons a l ih =>
    rw [List.foldlM_cons] at h
    obtain ⟨b', hb', hl⟩ := ok_of_bind h
    exact ih (fun x hx => hf x (by simp [hx])) (hf a (by simp) b b' hb hb') hl

theorem foldlM_total {f : β → α → Except ε β} {l : List α} (h : ∀ a ∈ l, ∀ b, ∃ c, f b a = .ok c) (b : β) :
    ∃ c, l.foldlM f b = .ok c := by
  induction l generalizing b with
  | nil => exact ⟨b, rfl⟩
  | cons a l ih =>
    obtain ⟨b', hb⟩ := h a (by simp) b
    obtain ⟨c, hc⟩ := ih (fun x hx => h x (by simp [hx])) b'
    refine ⟨c, ?_⟩
    rw [List.foldlM_cons, hb]
    exact hc

theorem error_of_foldlM {f : β → α → Except ε β} {l : List α} {b : β} {e : ε}
    (h : l.foldlM f b = .error e) : ∃ a ∈ l, ∃ b', f b' a = .error e := by
  induction l generalizing b with
  | nil => cases h
  | cons a l ih =>
    rw [List.foldlM_cons] at h
    obtain hb | ⟨b', -, hl⟩ := error_of_bind h
    · exact ⟨a, by simp, b, hb⟩
    · obtain ⟨x, hx, hf⟩ := ih hl
      exact ⟨x, List.mem_cons_of_mem a hx, hf⟩

theorem ok_of_mapM {f : α → Except ε β} {l : List α} {bs : List β} (h : l.mapM f = .ok bs) :
    ∀ a ∈ l, ∃ b, f a = .ok b := by
  induction l generalizing bs with
  | nil => simp
  | cons a l ih =>
    rw [List.mapM_cons] at h
    obtain ⟨b, hb, h⟩ := ok_of_bind h
    obtain ⟨bs', hl, -⟩ := ok_of_bind h
    intro x hx
    obtain rfl | hx := List.mem_cons.mp hx
    · exact ⟨b, hb⟩
    · exact ih hl x hx

theorem error_of_mapM {f : α → Except ε β} {l : List α} {e : ε} (h : l.mapM f = .error e) :
    ∃ a ∈ l, f a = .error e := by
  induction l with
  | nil => cases h
  | cons a l ih =>
    rw [List.mapM_cons] at h
    obtain hb | ⟨b, -, h⟩ := error_of_bind h
    · exact ⟨a, by simp, hb⟩
    · obtain hl | ⟨bs, -, h⟩ := error_of_bind h
      · obtain ⟨x, hx, hf⟩ := ih hl
        exact ⟨x, List.mem_cons_of_mem a hx, hf⟩
      · cases h

theorem error_of_forM {f : α → Except ε Unit} {l : List α} {e : ε} (h : l.forM f = .error e) :
    ∃ a ∈ l, f a = .error e := by
  induction l with
  | nil => cases h
  | cons a l ih =>
    obtain hb | ⟨b, -, h⟩ := error_of_bind (h : (f a >>= fun _ => l.forM f) = .error e)
    · exact ⟨a, by simp, hb⟩
    · obtain ⟨x, hx, hf⟩ := ih h
      exact ⟨x, List.mem_cons_of_mem a hx, hf⟩

end BlockScript
