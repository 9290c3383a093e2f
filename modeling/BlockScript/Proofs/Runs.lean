import BlockScript.Session

namespace BlockScript.Run

variable {α β : Type}

/-- Where a run in two parts succeeds, both parts do. -/
theorem ok_of_run_bind {r : Run α} {f : α → Run β} {s t : Session} {b : β}
    (h : (r >>= f).run s = (.ok b, t)) : ∃ a u, r.run s = (.ok a, u) ∧ (f a).run u = (.ok b, t) := by
  rw [run_bind] at h
  cases hr : r.run s with
  | mk result u =>
    cases result with
    | error e =>
      rw [hr] at h
      cases h
    | ok a =>
      rw [hr] at h
      exact ⟨a, u, rfl, h⟩

/-- Where a run in two parts fails, one of them does. -/
theorem error_of_run_bind {r : Run α} {f : α → Run β} {s t : Session} {e : Fault}
    (h : (r >>= f).run s = (.error e, t)) :
    r.run s = (.error e, t) ∨ ∃ a u, r.run s = (.ok a, u) ∧ (f a).run u = (.error e, t) := by
  rw [run_bind] at h
  cases hr : r.run s with
  | mk result u =>
    rw [hr] at h
    cases result with
    | error e' =>
      cases h
      exact Or.inl rfl
    | ok a => exact Or.inr ⟨a, u, rfl, h⟩

theorem ok_of_run_pure {a b : α} {s t : Session} (h : (pure a : Run α).run s = (.ok b, t)) :
    a = b ∧ s = t := by
  rw [run_pure] at h
  cases h
  exact ⟨rfl, rfl⟩

theorem not_ok_of_run_throw {f : Fault} {a : α} {s t : Session}
    (h : (throw f : Run α).run s = (.ok a, t)) : False := by
  rw [run_throw] at h
  cases h

theorem run_record (r : LogRecord) (s : Session) : (record r).run s = (.ok (), s.record r) := rfl

theorem run_checkOpen (s : Session) :
    checkOpen.run s = (if s.isOpen then .ok () else .error .finalized, s) := by
  rw [checkOpen, run_bind, run_get]
  dsimp only
  split <;> rfl

/-- The session after a record that is written on a condition. -/
def recordIf (p : Bool) (r : LogRecord) (s : Session) : Session :=
  if p then s.record r else s

theorem run_addFragment (part : Section) (tag : Value) (code : String) (overwrite : Bool) (s : Session) :
    (addFragment part tag code overwrite).run s =
      if s.isOpen then
        let added := (s.fragments part).add tag code overwrite
        (.ok added.1, recordIf added.1 (.debug (part.name ++ "[" ++ tag.toText ++ "] set"))
          (s.setFragments added.2 part))
      else (.error .finalized, s) := by
  rw [addFragment, run_bind, run_checkOpen]
  by_cases ho : s.isOpen = true
  · simp only [ho, ↓reduceIte, run_bind, run_get]
    cases (s.fragments part).add tag code overwrite with
    | mk changed r =>
      cases changed <;> rfl
  · simp only [ho]
    rfl

theorem run_identifier (realm : Realm) (name : Value) (s : Session) :
    (identifier realm name).run s = match s.names.get ⟨realm, name⟩ with
      | .error f => (.error f, s)
      | .ok (x, names) => (.ok x, recordIf (s.names.find? ⟨realm, name⟩).isNone
          (.debug ("Allocated " ++ realm.name ++ " name " ++ name.display ++ " -> " ++ Text.display x))
          { s with names }) := by
  rw [identifier]
  simp only [run_bind, run_get]
  cases s.names.get ⟨realm, name⟩ with
  | error f => rfl
  | ok found =>
    obtain ⟨x, names⟩ := found
    cases s.names.find? ⟨realm, name⟩ <;> rfl

/-- A logical name that cannot be looked up fails, one that has an identifier keeps it, and any other gets a new one. -/
theorem run_identifier_cases (realm : Realm) (name : Value) (s : Session) :
    (identifier realm name).run s = (.error .unsuitable, s) ∨
    (∃ x, s.names.find? ⟨realm, name⟩ = some x ∧ (identifier realm name).run s = (.ok x, s)) ∨
    (name.isKey = true ∧ s.names.find? ⟨realm, name⟩ = none ∧ ∃ r, (identifier realm name).run s =
      (.ok (s.names.allocateFor ⟨realm, name⟩).1,
        { s with names := (s.names.allocateFor ⟨realm, name⟩).2 }.record r)) := by
  rw [run_identifier, Names.get]
  by_cases hkey : name.isKey = true
  · rw [if_pos hkey]
    cases hfound : s.names.find? ⟨realm, name⟩ with
    | some x => exact Or.inr (Or.inl ⟨x, rfl, rfl⟩)
    | none => exact Or.inr (Or.inr ⟨hkey, rfl, _, rfl⟩)
  · rw [if_neg hkey]
    exact Or.inl rfl

theorem run_distinctIdentifier (realm : Realm) (name : Value) (s : Session) :
    (distinctIdentifier realm name).run s =
      (.ok (s.names.allocate ⟨realm, name⟩).1,
        { s with names := (s.names.allocate ⟨realm, name⟩).2 }.record
          (distinctRecord realm name (s.names.allocate ⟨realm, name⟩).1)) := rfl

theorem run_provide (preferred text : String) (s : Session) :
    (provide preferred text).run s =
      if s.isOpen then
        let given := s.functions.provide s.names preferred text
        (.ok given.1, recordIf (!s.functions.texts.contains preferred)
          (.debug ("functions[" ++ preferred ++ "] set"))
          (recordIf (s.functions.identifier? preferred).isNone
            (distinctRecord .generated (.text preferred) given.1)
            { s with functions := given.2.1, names := given.2.2 }))
      else (.error .finalized, s) := by
  rw [provide, run_bind, run_checkOpen]
  by_cases ho : s.isOpen = true
  · simp only [ho, ↓reduceIte, run_bind, run_get]
    cases s.functions.provide s.names preferred text with
    | mk x rest =>
      cases s.functions.identifier? preferred <;> cases s.functions.texts.contains preferred <;> rfl
  · simp only [ho]
    rfl

theorem run_addProcedure (name code : String) (s : Session) :
    (addProcedure name code).run s =
      if s.isOpen then (.ok (), { s with functions := s.functions.addProcedure name code })
      else (.error .finalized, s) := by
  rw [addProcedure, run_bind, run_checkOpen]
  by_cases ho : s.isOpen = true
  · rw [if_pos ho, if_pos ho]
    rfl
  · rw [if_neg ho, if_neg ho]

theorem run_claimPin (blockId : String) (pin : Value) (task : PinTask) (tag : String) (s : Session) :
    (claimPin blockId pin task tag).run s = match (s.pins.claim pin task).1 with
      | some earlier =>
        let text := Pins.conflictText pin tag task earlier
        let t := { s with pins := (s.pins.claim pin task).2 }.record (.warning text)
        (.ok true, { t with events := t.events ++ [⟨blockId, tag, some text⟩] })
      | none => (.ok false, { s with
          pins := (s.pins.claim pin task).2, events := s.events ++ [⟨blockId, tag, none⟩] }) := by
  rw [claimPin]
  simp only [run_bind, run_get]
  cases s.pins.claim pin task with
  | mk earlier pins => cases earlier <;> rfl

/-- A relation between sessions that steps can be put together along. -/
structure Joins (R : Session → Session → Prop) : Prop where
  refl : ∀ s, R s s
  trans : ∀ {s t u}, R s t → R t u → R s u

/-- Whatever a run does, it leads from a session to one that is related to it. -/
def Within (R : Session → Session → Prop) (r : Run α) : Prop :=
  ∀ s, R s (r.run s).2

theorem Within.of_run {R : Session → Session → Prop} {r : Run α} (h : r.Within R) {s t : Session}
    {result : Except Fault α} (hr : r.run s = (result, t)) : R s t := by
  have hs := h s
  rwa [hr] at hs

namespace Joins

variable {R : Session → Session → Prop}

theorem pure (h : Joins R) (a : α) : (pure a : Run α).Within R :=
  fun s => h.refl s

theorem throw (h : Joins R) (f : Fault) : (throw f : Run α).Within R :=
  fun s => h.refl s

theorem bind_result (h : Joins R) {r : Run α} {f : α → Run β} (hr : r.Within R)
    (hf : ∀ s a t, r.run s = (.ok a, t) → (f a).Within R) : (r >>= f).Within R := by
  intro s
  have hs := hr s
  rw [run_bind]
  cases hrun : r.run s with
  | mk result t =>
    rw [hrun] at hs
    cases result with
    | error e => exact hs
    | ok a => exact h.trans hs (hf s a t hrun t)

theorem bind (h : Joins R) {r : Run α} {f : α → Run β} (hr : r.Within R) (hf : ∀ a, (f a).Within R) :
    (r >>= f).Within R :=
  h.bind_result hr fun _ a _ _ => hf a

theorem mapM (h : Joins R) {f : α → Run β} (l : List α) (hf : ∀ a ∈ l, (f a).Within R) :
    (l.mapM f).Within R := by
  induction l with
  | nil => exact h.pure []
  | cons a l ih =>
    rw [List.mapM_cons]
    refine h.bind (hf a (by simp)) fun b => ?_
    refine h.bind (ih fun a ha => hf a (by simp [ha])) fun bs => ?_
    exact h.pure _

theorem forM (h : Joins R) {f : α → Run PUnit} (l : List α) (hf : ∀ a ∈ l, (f a).Within R) :
    (l.forM f).Within R := by
  induction l with
  | nil => exact h.pure _
  | cons a l ih => exact h.bind (hf a (by simp)) fun _ => ih fun a ha => hf a (by simp [ha])

end Joins

end BlockScript.Run
