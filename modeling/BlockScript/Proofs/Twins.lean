import BlockScript.Proofs.Traversal

namespace BlockScript

namespace Run

variable {α β γ δ : Type} {S : Session → Session → Prop}

/-- Two outcomes that are related results or the same fault. -/
inductive Alike (Q : α → β → Prop) : Except Fault α → Except Fault β → Prop where
  | ok {a : α} {b : β} : Q a b → Alike Q (.ok a) (.ok b)
  | error (f : Fault) : Alike Q (.error f) (.error f)

/-- Two runs that lead from related sessions to related sessions and have outcomes that are alike. -/
def Twins (S : Session → Session → Prop) (Q : α → β → Prop) (r : Run α) (r' : Run β) : Prop :=
  ∀ s s', S s s' → S (r.run s).2 (r'.run s').2 ∧ Alike Q (r.run s).1 (r'.run s').1

theorem Alike.imp {P Q : α → β → Prop} {x : Except Fault α} {y : Except Fault β} (h : Alike P x y)
    (hPQ : ∀ a b, P a b → Q a b) : Alike Q x y := by
  cases h with
  | ok hab => exact .ok (hPQ _ _ hab)
  | error f => exact .error f

namespace Twins

variable {P : α → β → Prop} {Q : γ → δ → Prop} {r : Run α} {r' : Run β}

theorem pure {a : α} {b : β} (h : P a b) : Twins S P (pure a) (pure b) :=
  fun _ _ hs => ⟨hs, .ok h⟩

theorem throw (f : Fault) : Twins S P (throw f) (throw f) :=
  fun _ _ hs => ⟨hs, .error f⟩

theorem imp {P' : α → β → Prop} (h : Twins S P r r') (hP : ∀ a b, P a b → P' a b) : Twins S P' r r' :=
  fun s s' hs => ⟨(h s s' hs).1, (h s s' hs).2.imp hP⟩

theorem bind {next : α → Run γ} {next' : β → Run δ} (h : Twins S P r r')
    (hnext : ∀ a b, P a b → Twins S Q (next a) (next' b)) : Twins S Q (r >>= next) (r' >>= next') := by
  intro s s' hs
  rw [run_bind, run_bind]
  obtain ⟨ht, halike⟩ := h s s' hs
  cases hr : r.run s with
  | mk result t =>
    cases hr' : r'.run s' with
    | mk result' t' =>
      rw [hr, hr'] at ht halike
      cases halike with
      | ok hab => exact hnext _ _ hab t t' ht
      | error f => exact ⟨ht, .error f⟩

theorem mapM {f : α → Run γ} {f' : β → Run δ} {l : List α} {l' : List β} (hl : List.Forall₂ P l l')
    (h : ∀ a b, P a b → Twins S Q (f a) (f' b)) : Twins S (List.Forall₂ Q) (l.mapM f) (l'.mapM f') := by
  induction hl with
  | nil => exact pure .nil
  | cons hab _ ih =>
    rw [List.mapM_cons, List.mapM_cons]
    apply (h _ _ hab).bind
    intro c d hcd
    apply ih.bind
    intro cs ds hcds
    exact pure (.cons hcd hcds)

theorem forM {f : α → Run PUnit} {f' : β → Run PUnit} {l : List α} {l' : List β} (hl : List.Forall₂ P l l')
    (h : ∀ a b, P a b → Twins S Eq (f a) (f' b)) : Twins S Eq (l.forM f) (l'.forM f') := by
  induction hl with
  | nil => exact pure rfl
  | cons hab _ ih => exact (h _ _ hab).bind fun _ _ _ => ih

end Twins

end Run

/-- Rules go alike if the allowed changes do, and what they ask for does. -/
theorem Scripted.twins {n : Nat} {S : Session → Session → Prop} {s : Scene n} {emit : Option (Fin n) → Run Output}
    {α : Type} {ps : List Place} {P : α → Prop} {r r' : Run α} (h : Scripted s emit ps P r r')
    (hdeed : ∀ {β : Type} (d : Deed β), d.Allowed s.job s.index → Run.Twins S Eq d.run d.run)
    (hask : ∀ p, Run.Twins S Eq (s.emit (s.block.at? p)) (emit (s.block.at? p))) :
    Run.Twins S (fun a b => a = b ∧ P a) r r' := by
  induction h with
  | pure a ha => exact .pure ⟨rfl, ha⟩
  | throw f => exact .throw f
  | deed d hd => exact (hdeed d hd).imp fun _ _ hab => ⟨hab, trivial⟩
  | ask p => exact (hask p).imp fun _ _ hab => ⟨hab, trivial⟩
  | bind _ _ ih ihnext =>
    apply ih.bind
    rintro a _ ⟨rfl, ha⟩
    exact ihnext a ha
  | weaken _ _ hP ih => exact ih.imp fun a _ hab => ⟨hab.1, hP a hab.2⟩

end BlockScript
