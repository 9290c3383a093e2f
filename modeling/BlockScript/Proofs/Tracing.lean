import BlockScript.Program.Generation
import BlockScript.Proofs.Logging
import BlockScript.Proofs.Traversal

namespace BlockScript

variable {n : Nat} {α β : Type}

/-- What the rule of a block gave: its output, and the text of the procedure if it defines one. -/
structure Applied (n : Nat) where
  index : Fin n
  output : Output
  text? : Option String

/-- Says in the log what the rule of a block gave. -/
def outcome (a : Applied n) : LogRecord :=
  .info (toString a.index.val ++ " " ++ a.output.code ++ " " ++ a.text?.getD "")

/-- The text of the procedure that a block defines. -/
def Session.procedureText? (s : Session) (b : Block n) : Option String :=
  if Workspace.isProcedure b then
    (s.names.find? ⟨.procedure, b.fieldD "NAME" (.text "procedure")⟩).bind s.functions.procedures.get?
  else none

/-- What becomes of the output of a rule: comments and marks in front of it, the blocks that follow behind it. -/
def Scene.finished (s : Scene n) : Output → Run Output
  | .nothing => return .nothing
  | .expression code rank => return .expression (← s.placed code) rank
  | .statement code => return .statement (← s.placed (if code.isEmpty then code else s.statementMark ++ code))

theorem Scene.output_eq (s : Scene n) : s.output = s.ruleOutput >>= s.finished := by
  refine congrArg (s.ruleOutput >>= ·) (funext fun o => ?_)
  cases o <;> rfl

theorem Scene.finished_scripted (s : Scene n) (emit : Option (Fin n) → Run Output) (o : Output) :
    Scripted s emit [.next] (fun _ => True) (s.finished o) ((s.withEmit emit).finished o) := by
  cases o with
  | nothing => exact (Scripted.done _).unasked
  | expression code rank => exact (placed_scripted _).last fun _ _ => .done _
  | statement code => exact (placed_scripted _).last fun _ _ => .done _

namespace Job

/-- Writes out a block and what follows it, and logs what every rule gives that is applied. -/
def tracedWithin (job : Job n) : Nat → Option (Fin n) → Run Output
  | _, none => do
    Run.checkOpen
    return .nothing
  | 0, some _ => throw .endless
  | depth + 1, some i => do
    Run.checkOpen
    let s : Scene n := ⟨job, i, job.tracedWithin depth⟩
    if s.block.disabled then job.tracedWithin depth s.block.next
    else do
      let o ← s.ruleOutput
      Run.record (outcome ⟨i, o, (← get).procedureText? s.block⟩)
      s.finished o

def tracedBody (job : Job n) (tops : List (Fin n)) : Run String := do
  return Text.tidyLineEnds (Text.joined ""
    (← tops.mapM fun i => do return (← job.tracedWithin n (some i)).topLines))

end Job

namespace Run

/-- Two runs that do the same after `σ`. The second one also logs outcomes of rules, which have the property at the end. -/
def Traced (R : Session → Session → Prop) (σ : Session) (A : Session → Applied n → Prop) (r r' : Run α) : Prop :=
  ∀ s s' : Session, s.quiet = s'.quiet → R σ s →
    (r.run s).1 = (r'.run s').1 ∧ (r.run s).2.quiet = (r'.run s').2.quiet ∧ R s (r.run s).2 ∧
      ∃ applied : List (Applied n), (∀ a ∈ applied, A (r.run s).2 a) ∧
        (r'.run s').2.notes = s'.notes ++ applied.map outcome

namespace Traced

variable {R : Session → Session → Prop} {σ : Session} {A : Session → Applied n → Prop} {r r' : Run α}

theorem of_logs (h : r.Logs) (hR : r.Within R) : Traced R σ A r r := by
  intro s s' hquiet _
  obtain ⟨hresult, hsession, hnotes⟩ := h.alike hquiet
  exact ⟨hresult, hsession, hR s, [], by simp, by simpa using hnotes⟩

theorem bind (hR : Joins R) (hA : ∀ s t a, R s t → A s a → A t a) {next next' : α → Run β} (hr : Traced R σ A r r')
    (hnext : ∀ s a t, r.run s = (.ok a, t) → Traced R σ A (next a) (next' a)) :
    Traced R σ A (r >>= next) (r' >>= next') := by
  intro s s' hquiet hs
  obtain ⟨hresult, hsession, hstep, applied, happlied, hnotes⟩ := hr s s' hquiet hs
  rw [run_bind, run_bind]
  cases hrun : r.run s with
  | mk result t =>
    cases hrun' : r'.run s' with
    | mk result' t' =>
      rw [hrun, hrun'] at hresult hsession
      rw [hrun] at hstep happlied
      rw [hrun'] at hnotes
      dsimp only at hresult hsession hnotes
      subst hresult
      cases result with
      | error f => exact ⟨rfl, hsession, hstep, applied, happlied, hnotes⟩
      | ok a =>
        obtain ⟨hresult', hsession', hstep', more, hmore, hnotes'⟩ :=
          hnext s a t hrun t t' hsession (hR.trans hs hstep)
        refine ⟨hresult', hsession', hR.trans hstep hstep', applied ++ more, ?_, ?_⟩
        · intro b hb
          exact (List.mem_append.mp hb).elim (fun hb => hA t _ b hstep' (happlied b hb)) (hmore b)
        · rw [hnotes', hnotes, List.map_append, List.append_assoc]

theorem outcome {r r' : Run Output} (h : Traced R σ A r r') {i : Fin n} {b : Block n}
    (hrule : ∀ s o t, R σ s → r.run s = (.ok o, t) → A t ⟨i, o, t.procedureText? b⟩) :
    Traced R σ A r (do
      let o ← r'
      Run.record (BlockScript.outcome ⟨i, o, (← get).procedureText? b⟩)
      return o) := by
  intro s s' hquiet hs
  obtain ⟨hresult, hsession, hstep, applied, happlied, hnotes⟩ := h s s' hquiet hs
  rw [run_bind]
  cases hrun : r.run s with
  | mk result t =>
    cases hrun' : r'.run s' with
    | mk result' t' =>
      rw [hrun, hrun'] at hresult hsession
      rw [hrun] at hstep happlied
      rw [hrun'] at hnotes
      dsimp only at hresult hsession hnotes
      subst hresult
      cases result with
      | error f => exact ⟨rfl, hsession, hstep, applied, happlied, hnotes⟩
      | ok o =>
        have htext : t'.procedureText? b = t.procedureText? b := by
          rw [Session.eq_withLog_of_quiet hsession]
          rfl
        refine ⟨rfl, ?_, hstep, applied ++ [⟨i, o, t'.procedureText? b⟩], ?_, ?_⟩
        · exact hsession.trans (t'.quiet_record rfl).symm
        · intro a ha
          obtain ha | ha := List.mem_append.mp ha
          · exact happlied a ha
          · rw [List.mem_singleton.mp ha, htext]
            exact hrule s o t hs hrun
        · rw [List.map_append, ← List.append_assoc, ← hnotes]
          exact t'.notes_record rfl

theorem mapM (hR : Joins R) (hA : ∀ s t a, R s t → A s a → A t a) {f f' : α → Run β} {l : List α}
    (hf : ∀ a ∈ l, Traced R σ A (f a) (f' a)) : Traced R σ A (l.mapM f) (l.mapM f') := by
  induction l with
  | nil => exact of_logs (.pure []) (hR.pure [])
  | cons a l ih =>
    rw [List.mapM_cons, List.mapM_cons]
    refine (hf a (by simp)).bind hR hA fun _ b _ _ => ?_
    exact (ih fun a ha => hf a (by simp [ha])).bind hR hA fun _ bs _ _ => of_logs (.pure _) (hR.pure _)

end Traced

end Run

section Emission

open Run

variable {R : Session → Session → Prop} {σ : Session} {A : Session → Applied n → Prop}

theorem Scripted.traced (hR : Joins R) (hA : ∀ s t a, R s t → A s a → A t a) {s : Scene n}
    {emit : Option (Fin n) → Run Output} {ps : List Place} {P : α → Prop} {r r' : Run α} (h : Scripted s emit ps P r r')
    (hdeed : ∀ {β : Type} (d : Deed β), d.Allowed s.job s.index → d.run.Within R)
    (hask : ∀ p, Traced R σ A (s.emit (s.block.at? p)) (emit (s.block.at? p))) : Traced R σ A r r' := by
  induction h with
  | pure a ha => exact .of_logs (.pure a) (hR.pure a)
  | throw f => exact .of_logs (.throw f) (hR.throw f)
  | deed d hd => exact .of_logs (d.logs hd) (hdeed d hd)
  | ask p => exact hask p
  | bind hr hnext ih ihnext => exact ih.bind hR hA fun _ a _ hrun => ihnext a (hr.result hrun)
  | weaken h hsub hP ih => exact ih

namespace Job

variable {job : Job n} {Q : Fin n → Prop}

/-- What holds of the output of every rule when it is given, and is kept by all that rules may do, holds at the end of all
outputs that were given. -/
theorem emitWithin_traced (hR : Joins R) (hA : ∀ s t a, R s t → A s a → A t a)
    (hQ : ∀ i, Q i → ∀ j ∈ job.diagram.childrenOf i, Q j)
    (hdeed : ∀ i, Q i → ∀ {β : Type} (d : Deed β), d.Allowed job i → d.run.Within R)
    (hrule : ∀ depth i, Q i → (job.diagram.block i).disabled = false → ∀ s o t, R σ s →
      (Scene.ruleOutput ⟨job, i, job.emitWithin depth⟩).run s = (.ok o, t) →
      A t ⟨i, o, t.procedureText? (job.diagram.block i)⟩)
    (depth : Nat) {o : Option (Fin n)} (ho : ∀ i ∈ o, Q i) :
    Traced R σ A (job.emitWithin depth o) (job.tracedWithin depth o) := by
  have hopen : Traced R σ A checkOpen checkOpen := .of_logs .checkOpen hR.checkOpen
  have hpure : ∀ (o : Output), Traced R σ A (Pure.pure o : Run Output) (Pure.pure o) :=
    fun o => .of_logs (.pure o) (hR.pure o)
  induction depth generalizing o with
  | zero =>
    cases o with
    | none => exact hopen.bind hR hA fun _ _ _ _ => hpure _
    | some i => exact .of_logs (.throw _) (hR.throw _)
  | succ depth ih =>
    cases o with
    | none => exact hopen.bind hR hA fun _ _ _ _ => hpure _
    | some i =>
      have hi := ho i rfl
      have hask : ∀ p, Traced R σ A (job.emitWithin depth ((job.diagram.block i).at? p))
          (job.tracedWithin depth ((job.diagram.block i).at? p)) :=
        fun p => ih fun j hj => hQ i hi j (Diagram.mem_childrenOf hj)
      refine hopen.bind hR hA fun _ _ _ _ => ?_
      dsimp only
      rw [Scene.output_eq]
      simp only [Scene.block]
      by_cases hon : (job.diagram.block i).disabled = true
      · simp only [hon, if_true]
        exact hask .next
      · simp only [hon, Bool.false_eq_true, if_false]
        obtain ⟨ps, -, hscript⟩ := Scene.ruleOutput_asks ⟨job, i, job.emitWithin depth⟩ (job.tracedWithin depth)
        have houtput := (hscript.traced hR hA (hdeed i hi) hask).outcome
          (hrule depth i hi (Bool.eq_false_iff.mpr hon))
        have hfinished := houtput.bind hR hA fun _ o _ _ =>
          (Scene.finished_scripted ⟨job, i, job.emitWithin depth⟩ (job.tracedWithin depth) o).traced hR hA
            (hdeed i hi) hask
        simpa only [bind_assoc, pure_bind, Scene.withEmit] using hfinished

theorem body_traced (hR : Joins R) (hA : ∀ s t a, R s t → A s a → A t a)
    (hQ : ∀ i, Q i → ∀ j ∈ job.diagram.childrenOf i, Q j)
    (hdeed : ∀ i, Q i → ∀ {β : Type} (d : Deed β), d.Allowed job i → d.run.Within R)
    (hrule : ∀ depth i, Q i → (job.diagram.block i).disabled = false → ∀ s o t, R σ s →
      (Scene.ruleOutput ⟨job, i, job.emitWithin depth⟩).run s = (.ok o, t) →
      A t ⟨i, o, t.procedureText? (job.diagram.block i)⟩)
    {tops : List (Fin n)} (htops : ∀ i ∈ tops, Q i) : Traced R σ A (job.body tops) (job.tracedBody tops) := by
  refine (Traced.mapM hR hA fun i hi => ?_).bind hR hA fun _ _ _ _ => .of_logs (.pure _) (hR.pure _)
  have hemit := emitWithin_traced (o := some i) hR hA hQ hdeed hrule n fun j hj => Option.some.inj hj ▸ htops i hi
  exact hemit.bind hR hA fun _ _ _ _ => .of_logs (.pure _) (hR.pure _)

end Job

end Emission

/-- What the rules give, block by block, while a drawing is written out from a session on. -/
def Generator.Traces (g : Generator) (w : Workspace n) (σ : Session) (applied : List (Applied n)) : Prop :=
  ((g.body w).run σ).1 = (((g.job w).tracedBody w.orderedTops).run σ).1 ∧
    ((g.body w).run σ).2.quiet = (((g.job w).tracedBody w.orderedTops).run σ).2.quiet ∧
    (((g.job w).tracedBody w.orderedTops).run σ).2.notes = σ.notes ++ applied.map outcome

end BlockScript
