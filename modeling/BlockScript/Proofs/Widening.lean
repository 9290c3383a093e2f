import Mathlib.Data.List.Forall2
import BlockScript.Typing.Inference

namespace BlockScript

namespace ValueKind

def width (k : ValueKind) : Nat :=
  k.width?.getD 0

theorem eq_of_width {k l : ValueKind} (hk : k.isNumeric = true) (hl : l.isNumeric = true) (h : k.width = l.width) :
    k = l := by
  revert k l
  intro k l
  cases k <;> cases l <;> decide

/-- The widest of the numeric kinds in a list. -/
structure IsWidest (kinds : List ValueKind) (k : ValueKind) : Prop where
  mem : k ∈ kinds
  numeric : k.isNumeric = true
  bound : ∀ l ∈ kinds, l.isNumeric = true → l.width ≤ k.width

variable {kinds others : List ValueKind} {k l : ValueKind}

theorem IsWidest.unique (hk : IsWidest kinds k) (hl : IsWidest kinds l) : k = l :=
  eq_of_width hk.numeric hl.numeric (Nat.le_antisymm (hl.bound k hk.mem hk.numeric) (hk.bound l hl.mem hl.numeric))

/-- Only the numeric kinds matter. -/
theorem IsWidest.congr (h : IsWidest kinds k) (hsame : ∀ l : ValueKind, l.isNumeric = true → (l ∈ others ↔ l ∈ kinds)) :
    IsWidest others k where
  mem := (hsame k h.numeric).mpr h.mem
  numeric := h.numeric
  bound l hl hnum := h.bound l ((hsame l hnum).mp hl) hnum

theorem isWidest_cons (hk : k.isNumeric = false) : IsWidest (k :: kinds) l ↔ IsWidest kinds l := by
  have hsame : ∀ m : ValueKind, m.isNumeric = true → (m ∈ kinds ↔ m ∈ k :: kinds) := by
    intro m hm
    refine ⟨List.mem_cons_of_mem k, fun hmem => (List.mem_cons.mp hmem).resolve_left ?_⟩
    rintro rfl
    cases hk.symm.trans hm
  exact ⟨fun h => h.congr hsame, fun h => h.congr fun m hm => (hsame m hm).symm⟩

theorem wider_isWidest (hk : k.isNumeric = true) (hl : l.isNumeric = true) : IsWidest [k, l] (wider k l) := by
  unfold wider
  split
  · rename_i hlt
    exact ⟨by simp, hl, by simpa [width] using fun _ => Nat.le_of_lt hlt⟩
  · rename_i hlt
    exact ⟨by simp, hk, by simpa [width] using fun _ => Nat.le_of_not_lt hlt⟩

/-- The wider of the first two stands for both. -/
theorem IsWidest.absorb {m : ValueKind} (hpair : IsWidest [k, l] m) {top : ValueKind} (h : IsWidest (m :: kinds) top) :
    IsWidest (k :: l :: kinds) top := by
  refine ⟨?_, h.numeric, fun a ha hnum => ?_⟩
  · obtain rfl | hmem := List.mem_cons.mp h.mem
    · exact List.mem_append_left kinds hpair.mem
    · exact List.mem_append_right [k, l] hmem
  · obtain ha | ha := List.mem_append.mp (show a ∈ [k, l] ++ kinds from ha)
    · exact Nat.le_trans (hpair.bound a ha hnum) (h.bound m List.mem_cons_self hpair.numeric)
    · exact h.bound a (List.mem_cons_of_mem m ha) hnum

theorem foldl_wider_isWidest (hk : k.isNumeric = true) (h : ∀ l ∈ kinds, l.isNumeric = true) :
    IsWidest (k :: kinds) (kinds.foldl wider k) := by
  induction kinds generalizing k with
  | nil => exact ⟨by simp, hk, by simp⟩
  | cons l kinds ih =>
    rw [List.forall_mem_cons] at h
    have hpair := wider_isWidest hk h.1
    exact hpair.absorb (ih hpair.numeric h.2)

theorem widest_isWidest (h : ∃ k ∈ kinds, k.isNumeric = true) : IsWidest kinds (widest kinds) := by
  obtain ⟨k, hk, hnum⟩ := h
  unfold widest
  cases hfilter : kinds.filter isNumeric with
  | nil => exact absurd hnum (List.filter_eq_nil_iff.mp hfilter k hk)
  | cons l rest =>
    have hmem : ∀ m, m ∈ l :: rest ↔ m ∈ kinds ∧ m.isNumeric = true := by
      intro m
      rw [← hfilter, List.mem_filter]
    refine (foldl_wider_isWidest ((hmem l).mp (by simp)).2 fun m hm => ((hmem m).mp (by simp [hm])).2).congr ?_
    intro m hm
    rw [hmem, and_iff_left hm]

theorem widest_of_none (h : ∀ k ∈ kinds, k.isNumeric = false) : widest kinds = number := by
  unfold widest
  rw [List.filter_eq_nil_iff.mpr fun k hk => by simp [h k hk]]

theorem widest_isNumeric (kinds : List ValueKind) : (widest kinds).isNumeric = true := by
  by_cases h : ∃ k ∈ kinds, k.isNumeric = true
  · exact (widest_isWidest h).numeric
  · rw [widest_of_none fun k hk => Bool.eq_false_iff.mpr fun hnum => h ⟨k, hk, hnum⟩]
    rfl

/-- The kind of a variable after one more assignment: what is unknown is passed over, numeric kinds widen, and otherwise
the first kind counts. -/
def joined (established : Option ValueKind) (assigned : ValueKind) : Option ValueKind :=
  if assigned = .undefined then established
  else match established with
    | none => some assigned
    | some kind =>
      if kind.isNumeric && assigned.isNumeric then some (widest [kind, assigned]) else some kind

/-- The kind that a variable has from its assignments. -/
def combined (kinds : List ValueKind) : ValueKind :=
  (kinds.foldl joined none).getD .undefined

/-- An assignment does not go together with the kind of its variable. -/
def Clashes (kind assigned : ValueKind) : Prop :=
  assigned ≠ .undefined ∧ assigned ≠ kind ∧ ¬ (assigned.isNumeric = true ∧ kind.isNumeric = true)

/-- What a variable with a first kind comes to: a numeric kind becomes the widest one, any other stays. -/
def Settles (kinds : List ValueKind) (first kind : ValueKind) : Prop :=
  if first.isNumeric then IsWidest kinds kind else kind = first

theorem Settles.numeric_iff (h : Settles kinds k l) : l.isNumeric = k.isNumeric := by
  unfold Settles at h
  split at h
  · rw [h.numeric]
    exact Eq.symm ‹_›
  · rw [h]

theorem foldl_joined_some (kinds : List ValueKind) (k : ValueKind) :
    ∃ l, kinds.foldl joined (some k) = some l ∧ Settles (k :: kinds) k l := by
  induction kinds generalizing k with
  | nil =>
    refine ⟨k, rfl, ?_⟩
    unfold Settles
    split
    · exact ⟨by simp, ‹_›, by simp⟩
    · rfl
  | cons a kinds ih =>
    rw [List.foldl_cons]
    by_cases hboth : k.isNumeric = true ∧ a.isNumeric = true
    · have hjoined : joined (some k) a = some (widest [k, a]) := by
        rw [joined, if_neg (by rintro rfl; cases hboth.2)]
        simp [hboth]
      have hpair : IsWidest [k, a] (widest [k, a]) := widest_isWidest ⟨k, by simp, hboth.1⟩
      obtain ⟨l, hl, hsettles⟩ := ih (widest [k, a])
      rw [Settles, if_pos hpair.numeric] at hsettles
      refine ⟨l, by rw [hjoined, hl], ?_⟩
      rw [Settles, if_pos hboth.1]
      exact hpair.absorb hsettles
    · have hjoined : joined (some k) a = some k := by
        simp [joined, hboth]
      obtain ⟨l, hl, hsettles⟩ := ih k
      refine ⟨l, by rw [hjoined, hl], ?_⟩
      unfold Settles at hsettles ⊢
      split
      · rename_i hk
        rw [if_pos hk] at hsettles
        have ha : a.isNumeric = false := Bool.eq_false_iff.mpr fun ha => hboth ⟨hk, ha⟩
        refine hsettles.congr fun m hm => ?_
        have hne : m ≠ a := by
          rintro rfl
          cases ha.symm.trans hm
        simp [hne]
      · rename_i hk
        rwa [if_neg hk] at hsettles

theorem foldl_joined_none : kinds.foldl joined none = none ↔ ∀ k ∈ kinds, k = .undefined := by
  induction kinds with
  | nil => simp
  | cons a kinds ih =>
    rw [List.foldl_cons, List.forall_mem_cons]
    by_cases ha : a = .undefined
    · rw [show joined none a = none from if_pos ha, ih, and_iff_right ha]
    · rw [show joined none a = some a from if_neg ha]
      obtain ⟨l, hl, -⟩ := foldl_joined_some kinds a
      simp [hl, ha]

/-- The first kind that is known decides whether a variable is numeric, and then the widest one counts. -/
theorem foldl_joined_eq_some : kinds.foldl joined none = some l ↔
    ∃ k, kinds.find? (· ≠ .undefined) = some k ∧ Settles kinds k l := by
  induction kinds with
  | nil => simp
  | cons a kinds ih =>
    rw [List.foldl_cons]
    by_cases ha : a = .undefined
    · subst ha
      rw [show joined none .undefined = none from rfl, ih, List.find?_cons_of_neg (by simp)]
      refine exists_congr fun k => and_congr_right fun _ => ?_
      unfold Settles
      rw [isWidest_cons (by rfl)]
    · rw [show joined none a = some a from if_neg ha, List.find?_cons_of_pos (by simp [ha])]
      obtain ⟨m, hm, hsettles⟩ := foldl_joined_some kinds a
      rw [hm, Option.some_inj]
      constructor
      · rintro rfl
        exact ⟨a, rfl, hsettles⟩
      · rintro ⟨_, ⟨⟩, hl⟩
        unfold Settles at hsettles hl
        split at hl
        · rw [if_pos ‹_›] at hsettles
          exact hsettles.unique hl
        · rw [if_neg ‹_›] at hsettles
          rw [hsettles, hl]

theorem joined_of_fit (established : Option ValueKind) (assigned : ValueKind) :
    match fit established assigned with
    | .unknown => joined established assigned = established
    | .fits k => joined established assigned = some k
    | .conflicts k => joined established assigned = some k := by
  unfold fit joined
  by_cases ha : assigned = .undefined
  · simp [ha]
  · simp only [ha, ↓reduceIte]
    cases established with
    | none => rfl
    | some kind =>
      dsimp only
      by_cases hboth : (kind.isNumeric && assigned.isNumeric) = true
      · simp [hboth]
      · rw [if_neg hboth, if_neg hboth]
        by_cases heq : assigned = kind <;> simp [heq]

theorem clashes_of_numeric (hk : k.isNumeric = true) : Clashes k l ↔ l ≠ .undefined ∧ l.isNumeric = false := by
  refine ⟨fun h => ⟨h.1, Bool.eq_false_iff.mpr fun hl => h.2.2 ⟨hl, hk⟩⟩, fun h => ⟨h.1, ?_, ?_⟩⟩
  · rintro rfl
    cases h.2.symm.trans hk
  · exact fun hboth => Bool.eq_false_iff.mp h.2 hboth.1

theorem Settles.clashes_iff (h : Settles kinds k l) (assigned : ValueKind) :
    Clashes l assigned ↔ Clashes k assigned := by
  unfold Settles at h
  split at h
  · rw [clashes_of_numeric h.numeric, clashes_of_numeric ‹_›]
  · rw [h]

theorem fit_conflicts_joined (established : Option ValueKind) {assigned : ValueKind} (ha : assigned ≠ .undefined) :
    ∃ kind, joined established assigned = some kind ∧
      ((∃ k, fit established assigned = .conflicts k) ↔ Clashes kind assigned) := by
  have hself : ¬ Clashes assigned assigned := fun h => h.2.1 rfl
  unfold fit joined
  rw [if_neg ha, if_neg ha]
  cases established with
  | none => exact ⟨assigned, rfl, by simp [hself]⟩
  | some kind =>
    by_cases hboth : (kind.isNumeric && assigned.isNumeric) = true
    · have hnumeric := (Bool.and_eq_true_iff.mp hboth).2
      refine ⟨widest [kind, assigned], if_pos hboth, ?_⟩
      rw [clashes_of_numeric (widest_isNumeric _)]
      simp only [if_pos hboth]
      simp [hnumeric]
    · refine ⟨kind, if_neg hboth, ?_⟩
      by_cases heq : assigned = kind
      · simp only [if_neg hboth, if_pos heq]
        simp [← heq, hself]
      · have hclash : Clashes kind assigned := ⟨ha, heq, fun h => hboth (by rw [h.1, h.2]; rfl)⟩
        simp only [if_neg hboth, if_neg heq]
        simp [hclash]

/-- An assignment is in conflict with the earlier ones exactly if it does not go together with what the variable comes
to. -/
theorem fit_conflicts_iff (established : Option ValueKind) (assigned : ValueKind) (later : List ValueKind) :
    (∃ k, fit established assigned = .conflicts k) ↔
      Clashes ((later.foldl joined (joined established assigned)).getD .undefined) assigned := by
  by_cases ha : assigned = .undefined
  · simp [fit, ha, Clashes]
  · obtain ⟨kind, hkind, hconflict⟩ := fit_conflicts_joined established ha
    obtain ⟨l, hl, hsettles⟩ := foldl_joined_some later kind
    rw [hkind, hl, Option.getD_some, hsettles.clashes_iff, hconflict]

/-- Where all assignments go together, their order does not matter. -/
theorem combined_perm (h : kinds.Perm others) (hfit : ∀ k ∈ kinds, ¬ Clashes (combined kinds) k) :
    combined others = combined kinds := by
  unfold combined at hfit ⊢
  cases hkind : kinds.foldl joined none with
  | none =>
    have hnone := foldl_joined_none.mp hkind
    rw [foldl_joined_none.mpr fun k hk => hnone k (h.mem_iff.mpr hk)]
  | some l =>
    rw [hkind, Option.getD_some] at hfit
    obtain ⟨k, hk, hsettles⟩ := foldl_joined_eq_some.mp hkind
    have hknown : ∃ m ∈ others, m ≠ .undefined :=
      ⟨k, h.mem_iff.mp (List.mem_of_find?_eq_some hk), by simpa using List.find?_some hk⟩
    obtain ⟨m, hm⟩ : ∃ m, others.find? (· ≠ .undefined) = some m := by
      rw [← Option.isSome_iff_exists, List.find?_isSome]
      simpa using hknown
    have hne : m ≠ .undefined := by simpa using List.find?_some hm
    have hgoes := hfit m (h.mem_iff.mpr (List.mem_of_find?_eq_some hm))
    have hnumeric := hsettles.numeric_iff
    rw [foldl_joined_eq_some.mpr ⟨m, hm, ?_⟩]
    unfold Settles at hsettles ⊢
    split
    · rename_i hmnum
      have hlnum : l.isNumeric = true := by
        by_contra hl
        have heq : m = l := by
          by_contra hml
          exact hgoes ⟨hne, hml, fun hboth => hl hboth.2⟩
        exact hl (heq ▸ hmnum)
      rw [if_pos (hnumeric ▸ hlnum)] at hsettles
      exact hsettles.congr fun _ _ => h.mem_iff.symm
    · rename_i hmnum
      by_contra hml
      exact hgoes ⟨hne, fun heq => hml heq.symm, fun hboth => hmnum hboth.1⟩

/-- How the kind of a value changes when the kind of a variable that it reads becomes known: it stays as it is, or it was
unknown and is that kind, or both are numeric, and it is at least as wide as the variable and no wider than it was before
or than the variable. -/
def Follows (kind before after : ValueKind) : Prop :=
  after = before ∨ (before = .undefined ∧ after = kind) ∨
    (kind.isNumeric = true ∧ before.isNumeric = true ∧ after.isNumeric = true ∧ kind.width ≤ after.width ∧
      (after.width ≤ before.width ∨ after.width ≤ kind.width))

theorem Follows.refl (kind k : ValueKind) : Follows kind k k :=
  Or.inl rfl

theorem Follows.clashes_iff {kind before after : ValueKind} (h : Follows kind before after) :
    Clashes kind after ↔ Clashes kind before := by
  obtain rfl | ⟨rfl, rfl⟩ | ⟨hkind, hbefore, hafter, -⟩ := h
  · rfl
  · exact iff_of_false (fun h => h.2.1 rfl) fun h => h.1 rfl
  · exact iff_of_false (fun h => h.2.2 ⟨hafter, hkind⟩) fun h => h.2.2 ⟨hbefore, hkind⟩

theorem exists_of_mem_right {α β : Type} {R : α → β → Prop} {as : List α} {bs : List β} (h : List.Forall₂ R as bs) {b : β}
    (hb : b ∈ bs) : ∃ a ∈ as, R a b := by
  induction h with
  | nil => cases hb
  | cons hab _ ih =>
    obtain rfl | hb := List.mem_cons.mp hb
    · exact ⟨_, List.mem_cons_self, hab⟩
    · obtain ⟨a, ha, hR⟩ := ih hb
      exact ⟨a, List.mem_cons_of_mem _ ha, hR⟩

section Changes

variable {kind : ValueKind}

theorem filter_isNumeric_of_follows (hkind : kind.isNumeric = false) (h : List.Forall₂ (Follows kind) kinds others) :
    others.filter isNumeric = kinds.filter isNumeric := by
  induction h with
  | nil => rfl
  | @cons before after _ _ hpair _ ih =>
    rw [List.filter_cons, List.filter_cons, ih]
    obtain rfl | ⟨rfl, rfl⟩ | ⟨hnum, -⟩ := hpair
    · rfl
    · rw [hkind]
      rfl
    · cases hkind.symm.trans hnum

/-- A list that has changed holds a kind that is at least as wide as the variable. -/
theorem exists_wide_of_follows (hkind : kind.isNumeric = true) (h : List.Forall₂ (Follows kind) kinds others)
    (hne : others ≠ kinds) : ∃ k ∈ others, k.isNumeric = true ∧ kind.width ≤ k.width := by
  induction h with
  | nil => exact absurd rfl hne
  | @cons before after _ _ hpair _ ih =>
    obtain rfl | ⟨rfl, rfl⟩ | ⟨-, -, hafter, hle, -⟩ := hpair
    · obtain ⟨k, hk, hwide⟩ := ih fun heq => hne (congrArg _ heq)
      exact ⟨k, List.mem_cons_of_mem _ hk, hwide⟩
    · exact ⟨_, List.mem_cons_self, hkind, Nat.le_refl _⟩
    · exact ⟨_, List.mem_cons_self, hafter, hle⟩

theorem Follows.width_le {before after : ValueKind} (h : Follows kind before after) (hafter : after.isNumeric = true) :
    (before.isNumeric = true ∧ after.width ≤ before.width) ∨ after.width ≤ kind.width := by
  obtain rfl | ⟨-, rfl⟩ | ⟨-, hbefore, -, -, hle | hle⟩ := h
  · exact Or.inl ⟨hafter, Nat.le_refl _⟩
  · exact Or.inr (Nat.le_refl _)
  · exact Or.inl ⟨hbefore, hle⟩
  · exact Or.inr hle

/-- Widening passes such a change on. -/
theorem widest_follows (h : List.Forall₂ (Follows kind) kinds others) :
    Follows kind (widest kinds) (widest others) := by
  cases hkind : kind.isNumeric with
  | false =>
    left
    unfold widest
    rw [filter_isNumeric_of_follows hkind h]
  | true =>
    by_cases hsame : others = kinds
    · exact Or.inl (congrArg widest hsame)
    · obtain ⟨wide, hwide, hnum, hle⟩ := exists_wide_of_follows hkind h hsame
      have hothers := widest_isWidest ⟨wide, hwide, hnum⟩
      refine Or.inr (Or.inr ⟨hkind, widest_isNumeric kinds, hothers.numeric, ?_, ?_⟩)
      · exact Nat.le_trans hle (hothers.bound wide hwide hnum)
      · obtain ⟨before, hbefore, hpair⟩ := exists_of_mem_right h hothers.mem
        refine (hpair.width_le hothers.numeric).imp_left fun ⟨hnumeric, hwidth⟩ => ?_
        exact Nat.le_trans hwidth ((widest_isWidest ⟨before, hbefore, hnumeric⟩).bound before hbefore hnumeric)

theorem find?_of_follows (hkind : kind ≠ .undefined) (h : List.Forall₂ (Follows kind) kinds others)
    (hk : kinds.find? (· ≠ .undefined) = some k) :
    ∃ m, others.find? (· ≠ .undefined) = some m ∧
      (m = k ∨ m = kind ∨ (kind.isNumeric = true ∧ m.isNumeric = true)) := by
  induction h with
  | nil => cases hk
  | @cons before after _ _ hpair _ ih =>
    by_cases hbefore : before = .undefined
    · rw [List.find?_cons_of_neg (by simpa using hbefore)] at hk
      by_cases hafter : after = .undefined
      · rw [List.find?_cons_of_neg (by simpa using hafter)]
        exact ih hk
      · refine ⟨after, List.find?_cons_of_pos (by simpa using hafter), Or.inr (Or.inl ?_)⟩
        obtain rfl | ⟨-, rfl⟩ | ⟨-, hnum, -⟩ := hpair
        · exact absurd hbefore hafter
        · rfl
        · rw [hbefore] at hnum
          cases hnum
    · rw [List.find?_cons_of_pos (by simpa using hbefore)] at hk
      cases hk
      obtain rfl | ⟨hundefined, -⟩ | ⟨hnum, -, hafter, -⟩ := hpair
      · exact ⟨_, List.find?_cons_of_pos (by simpa using hbefore), Or.inl rfl⟩
      · exact absurd hundefined hbefore
      · refine ⟨after, List.find?_cons_of_pos ?_, Or.inr (Or.inr ⟨hnum, hafter⟩)⟩
        suffices after ≠ .undefined by simpa
        rintro rfl
        cases hafter

theorem IsWidest.follows (hkind : IsWidest kinds kind) (h : List.Forall₂ (Follows kind) kinds others) :
    IsWidest others kind := by
  refine ⟨?_, hkind.numeric, fun after hafter hnum => ?_⟩
  · obtain ⟨after, hafter, hpair⟩ := exists_of_mem_right h.flip hkind.mem
    obtain rfl | ⟨-, rfl⟩ | ⟨-, -, hnum, hle, hge⟩ := hpair
    · exact hafter
    · exact hafter
    · rwa [eq_of_width hkind.numeric hnum (Nat.le_antisymm hle (hge.elim id id))]
  · obtain ⟨before, hbefore, hpair⟩ := exists_of_mem_right h hafter
    obtain ⟨hnumeric, hle⟩ | hle := hpair.width_le hnum
    · exact Nat.le_trans hle (hkind.bound before hbefore hnumeric)
    · exact hle

/-- What a variable comes to does not change when it becomes known. -/
theorem combined_follows (h : List.Forall₂ (Follows (combined kinds)) kinds others) :
    combined others = combined kinds := by
  unfold combined at h ⊢
  cases hkind : kinds.foldl joined none with
  | none =>
    rw [hkind, Option.getD_none] at h
    have hnone := foldl_joined_none.mp hkind
    rw [foldl_joined_none.mpr fun after hafter => ?_]
    obtain ⟨before, hbefore, rfl | ⟨-, rfl⟩ | ⟨hnum, -⟩⟩ := exists_of_mem_right h hafter
    · exact hnone _ hbefore
    · rfl
    · cases hnum
  | some kind =>
    rw [hkind, Option.getD_some] at h
    obtain ⟨k, hk, hsettles⟩ := foldl_joined_eq_some.mp hkind
    have hknown : k ≠ .undefined := by simpa using List.find?_some hk
    have hnumeric := hsettles.numeric_iff
    have hne : kind ≠ .undefined := by
      unfold Settles at hsettles
      split at hsettles
      · rintro rfl
        cases hsettles.numeric
      · rwa [hsettles]
    obtain ⟨m, hm, hcases⟩ := find?_of_follows hne h hk
    rw [foldl_joined_eq_some.mpr ⟨m, hm, ?_⟩]
    have hmnum : m.isNumeric = k.isNumeric := by
      obtain rfl | rfl | ⟨hkindnum, hmnum⟩ := hcases
      · rfl
      · exact hnumeric
      · rw [hmnum, ← hnumeric, hkindnum]
    unfold Settles at hsettles ⊢
    rw [hmnum]
    split at hsettles
    · rw [if_pos ‹_›]
      exact hsettles.follows h
    · rw [if_neg ‹_›]
      obtain rfl | rfl | ⟨hkindnum, -⟩ := hcases
      · exact hsettles
      · rfl
      · exact absurd (hnumeric ▸ hkindnum) ‹_›

end Changes

end ValueKind

end BlockScript
