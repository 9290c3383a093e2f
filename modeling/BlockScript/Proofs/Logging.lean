import BlockScript.Proofs.Scripts

namespace BlockScript

variable {n : Nat} {α β : Type}

namespace Session

def withLog (s : Session) (log : List LogRecord) : Session :=
  { s with log }

def notes (s : Session) : List LogRecord :=
  s.log.filter (·.level = .info)

def quiet (s : Session) : Session :=
  s.withLog (s.log.filter (·.level ≠ .info))

theorem eq_withLog_of_quiet {s t : Session} (h : s.quiet = t.quiet) : t = s.withLog t.log :=
  congrArg (fun u => u.withLog t.log) h.symm

@[simp] theorem withLog_isOpen (s : Session) (log : List LogRecord) : (s.withLog log).isOpen = s.isOpen := rfl

@[simp] theorem withLog_names (s : Session) (log : List LogRecord) : (s.withLog log).names = s.names := rfl

@[simp] theorem withLog_functions (s : Session) (log : List LogRecord) : (s.withLog log).functions = s.functions := rfl

@[simp] theorem withLog_pins (s : Session) (log : List LogRecord) : (s.withLog log).pins = s.pins := rfl

@[simp] theorem withLog_fragments (s : Session) (log : List LogRecord) (part : Section) :
    (s.withLog log).fragments part = s.fragments part := by
  cases part <;> rfl

@[simp] theorem withLog_setFragments (s : Session) (log : List LogRecord) (r : Fragments Value) (part : Section) :
    (s.withLog log).setFragments r part = (s.setFragments r part).withLog log := by
  cases part <;> rfl

theorem recordIf_withLog (p : Bool) (r : LogRecord) (s : Session) (log : List LogRecord) :
    Run.recordIf p r (s.withLog log) = (Run.recordIf p r s).withLog (log ++ if p then [r] else []) := by
  cases p with
  | false => simp [Run.recordIf]
  | true => rfl

theorem quiet_record (s : Session) {r : LogRecord} (h : r.level = .info) : (s.record r).quiet = s.quiet := by
  have hlog : (s.log ++ [r]).filter (·.level ≠ .info) = s.log.filter (·.level ≠ .info) := by simp [h]
  exact congrArg s.withLog hlog

theorem notes_record (s : Session) {r : LogRecord} (h : r.level = .info) : (s.record r).notes = s.notes ++ [r] := by
  simp [notes, record, h]

end Session

namespace Run

/-- A run that adds to the log, but no notes, and does not look at it. -/
def Logs (r : Run α) : Prop :=
  ∀ s : Session, ∃ added : List LogRecord, (∀ e ∈ added, e.level ≠ .info) ∧
    ∀ log, r.run (s.withLog log) = ((r.run s).1, (r.run s).2.withLog (log ++ added))

namespace Logs

/-- Notes in the log make no difference to such a run. -/
theorem alike {r : Run α} (h : r.Logs) {s s' : Session} (hquiet : s.quiet = s'.quiet) :
    (r.run s).1 = (r.run s').1 ∧ (r.run s).2.quiet = (r.run s').2.quiet ∧ (r.run s').2.notes = s'.notes := by
  obtain ⟨added, hadded, hrun⟩ := h s
  have hsame : r.run s = ((r.run s).1, (r.run s).2.withLog (s.log ++ added)) := hrun s.log
  have hother : r.run s' = ((r.run s).1, (r.run s).2.withLog (s'.log ++ added)) := by
    rw [Session.eq_withLog_of_quiet hquiet]
    exact hrun s'.log
  have hlog : s.log.filter (·.level ≠ .info) = s'.log.filter (·.level ≠ .info) := congrArg Session.log hquiet
  refine ⟨?_, ?_, ?_⟩
  · rw [hother]
  · rw [hother, hsame]
    unfold Session.quiet
    simp only [Session.withLog, List.filter_append, hlog]
  · have hnone : added.filter (·.level = .info) = [] := by simpa using hadded
    rw [hother]
    simp [Session.notes, Session.withLog, hnone]

theorem pure (a : α) : Logs (Pure.pure a) :=
  fun s => ⟨[], by simp, by simp⟩

theorem throw (f : Fault) : Logs (throw f : Run α) :=
  fun s => ⟨[], by simp, by simp⟩

theorem checkOpen : Run.checkOpen.Logs := by
  intro s
  refine ⟨[], by simp, fun log => ?_⟩
  rw [run_checkOpen, run_checkOpen, List.append_nil]
  rfl

theorem bind {r : Run α} {next : α → Run β} (hr : r.Logs) (hnext : ∀ a, (next a).Logs) : (r >>= next).Logs := by
  intro s
  obtain ⟨added, hadded, hrun⟩ := hr s
  cases hs : r.run s with
  | mk result t =>
    rw [hs] at hrun
    cases result with
    | error f =>
      refine ⟨added, hadded, fun log => ?_⟩
      rw [run_bind, run_bind, hs, hrun]
    | ok a =>
      obtain ⟨more, hmore, hlast⟩ := hnext a t
      refine ⟨added ++ more, ?_, fun log => ?_⟩
      · intro e he
        exact (List.mem_append.mp he).elim (hadded e) (hmore e)
      · rw [run_bind, run_bind, hs, hrun]
        dsimp only
        rw [hlast, List.append_assoc]

theorem forM {f : α → Run PUnit} (l : List α) (hf : ∀ a ∈ l, (f a).Logs) : (l.forM f).Logs := by
  induction l with
  | nil => exact .pure _
  | cons a l ih => exact (hf a (by simp)).bind fun _ => ih fun a ha => hf a (by simp [ha])

theorem addFragment (part : Section) (tag : Value) (code : String) (overwrite : Bool) :
    (Run.addFragment part tag code overwrite).Logs := by
  intro s
  by_cases ho : s.isOpen
  · refine ⟨if ((s.fragments part).add tag code overwrite).1 then
      [.debug (part.name ++ "[" ++ tag.toText ++ "] set")] else [], by simp [LogRecord.debug], fun log => ?_⟩
    simp [run_addFragment, ho, Session.recordIf_withLog]
  · exact ⟨[], by simp, by simp [run_addFragment, ho]⟩

theorem identifier (realm : Realm) (name : Value) : (Run.identifier realm name).Logs := by
  intro s
  cases hget : s.names.get ⟨realm, name⟩ with
  | error f => exact ⟨[], by simp, by simp [run_identifier, hget]⟩
  | ok found =>
    refine ⟨if (s.names.find? ⟨realm, name⟩).isNone then [.debug ("Allocated " ++ realm.name ++ " name " ++
      name.display ++ " -> " ++ Text.display found.1)] else [], by simp [LogRecord.debug], fun log => ?_⟩
    simp only [run_identifier, Session.withLog_names, hget]
    exact congrArg (Prod.mk _) (Session.recordIf_withLog _ _ { s with names := found.2 } log)

theorem distinctIdentifier (realm : Realm) (name : Value) : (Run.distinctIdentifier realm name).Logs :=
  fun s => ⟨[distinctRecord realm name (s.names.allocate ⟨realm, name⟩).1],
    by simp [distinctRecord, LogRecord.debug], fun _ => rfl⟩

theorem provide (preferred text : String) : (Run.provide preferred text).Logs := by
  intro s
  by_cases ho : s.isOpen
  · refine ⟨(if (s.functions.identifier? preferred).isNone then
      [distinctRecord .generated (.text preferred) (s.functions.provide s.names preferred text).1] else []) ++
      if !s.functions.texts.contains preferred then [.debug ("functions[" ++ preferred ++ "] set")] else [],
      ?_, fun log => ?_⟩
    · intro e he
      obtain he | he := List.mem_append.mp he
      · rw [(List.mem_ite_nil_right.mp he).2 |> List.mem_singleton.mp]
        simp [distinctRecord, LogRecord.debug]
      · rw [(List.mem_ite_nil_right.mp he).2 |> List.mem_singleton.mp]
        simp [LogRecord.debug]
    · simp only [run_provide, Session.withLog_isOpen, Session.withLog_functions, Session.withLog_names, ho, ↓reduceIte]
      rw [← List.append_assoc, ← Session.recordIf_withLog, ← Session.recordIf_withLog]
      rfl
  · exact ⟨[], by simp, by simp [run_provide, ho]⟩

theorem addProcedure (name code : String) : (Run.addProcedure name code).Logs := by
  intro s
  refine ⟨[], by simp, fun log => ?_⟩
  by_cases ho : s.isOpen
  · simp only [run_addProcedure, Session.withLog_isOpen, ho, ↓reduceIte, List.append_nil]
    rfl
  · simp [run_addProcedure, ho]

theorem claimPin (id : String) (pin : Value) (task : PinTask) (tag : String) : (Run.claimPin id pin task tag).Logs := by
  intro s
  cases hclaim : (s.pins.claim pin task).1 with
  | none =>
    refine ⟨[], by simp, fun log => ?_⟩
    simp only [run_claimPin, Session.withLog_pins, hclaim, List.append_nil]
    rfl
  | some earlier =>
    refine ⟨[.warning (Pins.conflictText pin tag task earlier)], by simp [LogRecord.warning], fun log => ?_⟩
    simp only [run_claimPin, Session.withLog_pins, hclaim]
    rfl

end Logs

end Run

theorem Deed.logs {job : Job n} {i : Fin n} (deed : Deed α) (h : deed.Allowed job i) : deed.run.Logs := by
  cases deed with
  | record r => exact fun s => ⟨[r], List.forall_mem_singleton.mpr h, fun _ => rfl⟩
  | fragment part tag code overwrite => exact .addFragment part tag code overwrite
  | identifier realm name => exact .identifier realm name
  | distinct realm name => exact .distinctIdentifier realm name
  | object label tag declaration overwrite =>
    exact (Run.Logs.identifier _ _).bind fun _ => (Run.Logs.addFragment _ _ _ _).bind fun _ => .pure _
  | provide preferred text => exact .provide preferred text
  | procedure name code => exact .addProcedure name code
  | warn id tag text => exact fun s => ⟨[], by simp, fun log => by rw [List.append_nil]; rfl⟩
  | claim id pin task tag => exact .claimPin id pin task tag
  | claims id pins task tag => exact .forM pins fun pin _ => (Run.Logs.claimPin id pin task tag).bind fun _ => .pure _

end BlockScript
