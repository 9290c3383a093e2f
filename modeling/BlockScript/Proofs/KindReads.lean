import BlockScript.Proofs.Circularity
import BlockScript.Proofs.Widening

namespace BlockScript

namespace TypingScope

open Relation ValueKind

variable {n : Nat} {s : TypingScope n} {held held' : VariableKinds} {i j : Fin n}

/-- The kind of a block is found from the kind of a variable. -/
def Reads (s : TypingScope n) (i : Fin n) (v : Value) : Prop :=
  ∃ j, ReflTransGen s.Needs i j ∧ (s.diagram.block j).kind? = some .variableGet ∧
    (s.diagram.block j).fieldD Block.variableField .null = v

theorem Reads.of_needs {v : Value} (hij : s.Needs i j) (h : s.Reads j v) : s.Reads i v := by
  obtain ⟨k, hjk, hk⟩ := h
  exact ⟨k, .head hij hjk, hk⟩

/-- The kind that a variable is taken to have. -/
def kindHeld (held : VariableKinds) (v : Value) : ValueKind :=
  (held.get? v).getD .undefined

/-- A relation between kinds that widening respects. -/
structure Respected (R : ValueKind → ValueKind → Prop) : Prop where
  refl : ∀ k, R k k
  widest : ∀ {kinds others}, List.Forall₂ R kinds others → R (widest kinds) (widest others)

theorem respected_eq : Respected Eq where
  refl _ := rfl
  widest h := congrArg _ (List.forall₂_eq_eq_eq ▸ h)

theorem respected_follows (kind : ValueKind) : Respected (Follows kind) where
  refl := Follows.refl kind
  widest := widest_follows

variable {R : ValueKind → ValueKind → Prop}

/-- A block depends on the kinds of the variables that it reads alone, and where they change, its own kind changes with
them. -/
theorem kindOf_respects (hR : Respected R) {depth : Nat} {o : Option (Fin n)}
    (hreads : ∀ i, o = some i → ∀ v, s.Reads i v → R (kindHeld held v) (kindHeld held' v)) {k : ValueKind}
    (h : s.kindOf held depth o = .ok k) : ∃ l, s.kindOf held' depth o = .ok l ∧ R k l := by
  induction depth generalizing o k with
  | zero =>
    cases o with
    | none => exact ⟨k, h, hR.refl k⟩
    | some i => cases h
  | succ depth ih =>
    cases o with
    | none => exact ⟨k, h, hR.refl k⟩
    | some i =>
      replace hreads := hreads i rfl
      have hchild : ∀ {o : Option (Fin n)} {k : ValueKind}, (∀ j, o = some j → s.Needs i j) →
          s.kindOf held depth o = .ok k → ∃ l, s.kindOf held' depth o = .ok l ∧ R k l := by
        intro o k hneeds hk
        exact ih (fun j hj v hv => hreads v (.of_needs (hneeds j hj) hv)) hk
      simp only [kindOf] at h ⊢
      split at h
      · exact ⟨k, h, hR.refl k⟩
      · rename_i hkind
        obtain ⟨kind?, hfind, h⟩ := ok_of_bind h
        have hself := hreads _ ⟨i, .refl, hkind, rfl⟩
        unfold Ledger.find at hfind ⊢
        split at hfind
        · obtain rfl : _ = kind? := Except.ok.inj hfind
          obtain rfl := Except.ok.inj h
          exact ⟨_, by rw [if_pos ‹_›]; rfl, hself⟩
        · cases hfind
      · exact ⟨k, h, hR.refl k⟩
      · rename_i hkind
        split at h
        · rename_i hop
          exact ⟨k, by rwa [if_pos hop], hR.refl k⟩
        · rename_i hop
          obtain ⟨left, hleft, h⟩ := ok_of_bind h
          obtain ⟨right, hright, h⟩ := ok_of_bind h
          obtain rfl := Except.ok.inj h
          obtain ⟨left', hleft', hRleft⟩ := hchild (fun j hj => .left hkind hop hj) hleft
          obtain ⟨right', hright', hRright⟩ := hchild (fun j hj => .right hkind hop hj) hright
          refine ⟨widest [left', right'], ?_, hR.widest (.cons hRleft (.cons hRright .nil))⟩
          rw [if_neg hop, hleft', hright']
          rfl
      · exact hchild (fun j hj => .constrained ‹_› hj) h
      · exact hchild (fun j hj => .chosen ‹_› hj) h
      · rename_i hkind
        obtain ⟨d?, hfind, h⟩ := ok_of_bind h
        rw [hfind]
        cases d? with
        | none => exact ⟨k, h, hR.refl k⟩
        | some d =>
          cases hreturn : (s.diagram.block d).child? "RETURN" with
          | none =>
            simp only [hreturn] at h
            exact ⟨k, by simpa [hreturn, bind, Except.bind] using h, hR.refl k⟩
          | some j =>
            simp only [hreturn] at h
            obtain ⟨l, hl, hkl⟩ := hchild (fun _ hj => .returned hkind hfind (hj ▸ hreturn)) h
            exact ⟨l, by simpa [hreturn, bind, Except.bind] using hl, hkl⟩
      · exact ⟨k, h, hR.refl k⟩
      · exact ⟨k, h, hR.refl k⟩

theorem valueKind_respects (hR : Respected R) {o : Option (Fin n)}
    (hreads : ∀ i, o = some i → ∀ v, s.Reads i v → R (kindHeld held v) (kindHeld held' v)) {k : ValueKind}
    (h : s.valueKind held o = .ok k) : ∃ l, s.valueKind held' o = .ok l ∧ R k l :=
  kindOf_respects hR hreads h

/-- An assignment takes the kind of its variable from that of another one. -/
def AssignsFrom (s : TypingScope n) (i : Fin n) (v : Value) : Prop :=
  ∃ j, TakesFrom s.diagram i j ∧ s.Reads j v

theorem mapM_respects {α : Type} {f g : α → Except Fault ValueKind} {as : List α}
    (hfg : ∀ a ∈ as, ∀ k, f a = .ok k → ∃ l, g a = .ok l ∧ R k l) {kinds : List ValueKind} (h : as.mapM f = .ok kinds) :
    ∃ others, as.mapM g = .ok others ∧ List.Forall₂ R kinds others := by
  induction as generalizing kinds with
  | nil =>
    obtain rfl : [] = kinds := Except.ok.inj h
    exact ⟨[], rfl, .nil⟩
  | cons a as ih =>
    rw [List.mapM_cons] at h
    obtain ⟨k, hk, h⟩ := ok_of_bind h
    obtain ⟨rest, hrest, h⟩ := ok_of_bind h
    obtain rfl : k :: rest = kinds := Except.ok.inj h
    obtain ⟨l, hl, hkl⟩ := hfg a List.mem_cons_self k hk
    obtain ⟨others, hothers, hall⟩ := ih (fun b hb => hfg b (List.mem_cons_of_mem a hb)) hrest
    refine ⟨l :: others, ?_, .cons hkl hall⟩
    rw [List.mapM_cons, hl, hothers]
    rfl

theorem assignedKind_respects (hR : Respected R)
    (hreads : ∀ v, s.AssignsFrom i v → R (kindHeld held v) (kindHeld held' v)) {k : ValueKind}
    (h : s.assignedKind held i = .ok k) : ∃ l, s.assignedKind held' i = .ok l ∧ R k l := by
  unfold assignedKind at h ⊢
  dsimp only at h ⊢
  split at h
  · rename_i hkind
    refine valueKind_respects hR (fun j hj v hv => hreads v ⟨j, ⟨_, hkind, "VALUE", ?_, hj⟩, hv⟩) h
    simp [assignmentSlots]
  · rename_i hkind
    obtain ⟨kinds, hkinds, h⟩ := ok_of_bind h
    obtain rfl := Except.ok.inj h
    obtain ⟨others, hothers, hall⟩ := mapM_respects (fun slot hslot k hk => valueKind_respects hR
      (fun j hj v hv => hreads v ⟨j, ⟨_, hkind, slot, hslot, hj⟩, hv⟩) hk) hkinds
    refine ⟨widest others, ?_, hR.widest hall⟩
    rw [hothers]
    rfl
  · exact ⟨k, h, hR.refl k⟩
  · exact ⟨k, h, hR.refl k⟩

theorem assignedKind_congr (hreads : ∀ v, s.AssignsFrom i v → kindHeld held v = kindHeld held' v) {k : ValueKind}
    (h : s.assignedKind held i = .ok k) : s.assignedKind held' i = .ok k := by
  obtain ⟨l, hl, rfl⟩ := assignedKind_respects respected_eq hreads h
  exact hl

/-- Whether an assignment has a kind does not depend on the kinds of variables. -/
theorem assignedKind_isOk {k : ValueKind} (h : s.assignedKind held i = .ok k) (held' : VariableKinds) :
    ∃ l, s.assignedKind held' i = .ok l := by
  obtain ⟨l, hl, -⟩ := assignedKind_respects (R := fun _ _ => True) ⟨fun _ => trivial, fun _ => trivial⟩
    (fun _ _ => trivial) h
  exact ⟨l, hl⟩

end TypingScope

end BlockScript
