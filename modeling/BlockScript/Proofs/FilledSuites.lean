import BlockScript.Program.Generation
import BlockScript.Proofs.BlockRuns
import BlockScript.Proofs.Chains
import BlockScript.Proofs.Layout

namespace BlockScript

open Run

variable {n : Nat} {H : Prop}

namespace Job.Ready

variable {job : Job n} {R : Fin n → Prop}

theorem body_ensures (hj : job.Ready R) {tops : List (Fin n)} (hR : ∀ i ∈ tops, R i)
    (hf : H → ∀ i ∈ tops, ¬ job.Flawed (some i)) : Ensures H (job.body tops) fun code =>
      Filled (outline code) ↔ ∀ i ∈ tops, ¬ job.Hollow (some i) := by
  refine (Ensures.mapM tops fun i hi => hj.topLines_ensures (hR i hi) fun hH => hf hH i hi).bind
    fun codes hcodes => .pure ?_
  rw [outline_tidyLineEnds]
  exact (Sheet.joined hcodes).filled

/-- A comment in a chain stands at one of the blocks. -/
theorem comment_of_remarks (hj : job.Ready R) {o : Option (Fin n)} (hR : ∀ i, o = some i → R i) (h : job.Remarks o) :
    ∃ i, R i ∧ (job.diagram.block i).comment? ≠ none := by
  induction h with
  | @here i place comments =>
    have hi := hR i rfl
    by_contra hnone
    push Not at hnone
    refine comments (Scene.comments_eq_empty (hnone i hi) fun slot hslot j hchild k hk => hnone k ?_)
    refine Diagram.descendants_closed hj.closed (hj.closed i hi j ?_) k hk
    refine List.mem_map.mpr ⟨(slot.name, j), List.mem_append_left _ ?_, rfl⟩
    exact List.mem_filterMap.mpr ⟨slot, hslot, by simp [hchild]⟩
  | @later i passes next ih => exact ih fun j hn => hj.next (hR i rfl) hn

theorem comment_of_flawed (hj : job.Ready R) {o : Option (Fin n)} (hR : ∀ i, o = some i → R i) (h : job.Flawed o) :
    ∃ i, R i ∧ (job.diagram.block i).comment? ≠ none := by
  induction h with
  | @here i o enabled suite remarks silent bare =>
    obtain ⟨kind, name, -, hname⟩ := mem_suites suite
    exact hj.comment_of_remarks (fun j hc => (hj.child (hR i rfl) (hname.trans hc)).1) remarks
  | @inside i kind name enabled known flawed ih => exact ih fun j hc => (hj.child (hR i rfl) hc).1
  | @later i flawed ih => exact ih fun j hn => hj.next (hR i rfl) hn

end Job.Ready

/-- A drawing in which value blocks hang in value slots only and have no blocks behind them, without line breaks in
fields. -/
structure Workspace.WellPlugged (w : Workspace n) : Prop where
  inline : ∀ i ∈ w.allBlocks, ∀ slot ∈ (w.block i).slots, ∀ j, slot.child = some j →
    (w.block j).isValue = true → (w.block j).isInline = true
  following : ∀ i ∈ w.allBlocks, ∀ j, (w.block i).next = some j → (w.block j).isValue = false
  alone : ∀ i ∈ w.allBlocks, (w.block i).isValue = true → (w.block i).next = none
  fields : ∀ i ∈ w.allBlocks, ∀ f ∈ (w.block i).fields, OneLine f.2.toText

theorem Workspace.WellPlugged.ready {w : Workspace n} (h : w.WellPlugged) :
    (Generator.job {} w).Ready (· ∈ w.allBlocks) where
  settings := rfl
  rules := rfl
  closed _ hi _ hj := allBlocks_children hi hj
  inline := h.inline
  following := h.following
  alone := h.alone
  fields := h.fields

namespace Generator

theorem initializer_oneLine (kind : ValueKind) : OneLine kind.initializer := by
  cases kind <;> decide

theorem start_texts {g : Generator} {w : Workspace n} {s : Session} (h : g.start w = .ok s) : s.Texts H := by
  obtain ⟨kinds, new, hnew, hfragments, hfunctions, hrun⟩ := run_of_start h
  have hdeclare : Ensures H (kinds.entries.forM fun e => declareVariable e.1 e.2) fun _ => True := by
    refine Ensures.forM _ fun e _ => (identifier_ensures _ _).bind fun x hx => ?_
    have hline := (hx.starts " = " (by decide) (by decide)).append (initializer_oneLine e.2)
    exact (addVariable_ensures fun _ => hline.filled).bind fun _ _ => .pure trivial
  refine (hdeclare.holds hrun hnew).2.2 ⟨?_, fun part _ => ?_, ?_⟩
  · rw [hfragments]
    simp [Ledger.values]
  · rw [hfragments]
    simp [Ledger.values]
  · rw [hfunctions]
    simp [Functions.values, Ledger.values]

/-- Every suite of a program has a line that is neither blank nor a comment, unless the drawing has a suite with
comments only; and if it has one in the lines of the body, the program is not filled. -/
theorem generate_fills_suites {w : Workspace n} (hw : w.WellPlugged) {out : Generated}
    (h : Generator.generate {} w = .ok out) :
    ((∀ i ∈ w.orderedTops, ¬ (Generator.job {} w).Flawed (some i)) → Filled (outline out.code)) ∧
      ((∀ i ∈ w.allBlocks, (w.block i).comment? = none) → Filled (outline out.code)) ∧
      (Filled (outline out.code) → ∀ i ∈ w.orderedTops, ¬ (Generator.job {} w).Hollow (some i)) := by
  obtain ⟨σ, τ, body, hσ, hbody, hcode⟩ := code_of_generate h
  have hready := hw.ready
  have hensures := hready.body_ensures (H := ∀ i ∈ w.orderedTops, ¬ (Generator.job {} w).Flawed (some i))
    (fun _ => Workspace.mem_allBlocks) id
  obtain ⟨hlines, -, htexts⟩ := hensures.holds hbody (start_plain hσ)
  have houtline : outline out.code = τ.front.flatMap outline ++ outline body := by
    rw [hcode]
    exact τ.outline_program body
  have hfilled : (∀ i ∈ w.orderedTops, ¬ (Generator.job {} w).Flawed (some i)) → Filled (outline out.code) := by
    intro hsound
    rw [houtline]
    refine filled_append_of (Session.filled_front (htexts (start_texts hσ)) hsound) (hlines.mpr fun i hi hollow => ?_)
    exact hsound i hi hollow.flawed
  refine ⟨hfilled, fun hnone => hfilled fun i hi hflawed => ?_, fun hall => ?_⟩
  · obtain ⟨k, hk, hcomment⟩ := hready.comment_of_flawed (by rintro _ ⟨⟩; exact Workspace.mem_allBlocks hi) hflawed
    exact hcomment (hnone k hk)
  · rw [houtline] at hall
    exact hlines.mp hall.right

end Generator

/-- A branch of which one block is disabled and the other one is not written out. -/
def mutedBranch : Workspace 3 where
  diagram := { blocks := #v[
    { type := "controls_if", id := "b1", slots := [⟨"DO0", .statement, some 1⟩] },
    { type := "serial_print", id := "b2", disabled := true, next := some 2 },
    { type := "lists_setIndex", id := "b3" }] : Diagram 3 }.adoptAll
  tops := [0]

theorem mutedBranch_wellPlugged : mutedBranch.WellPlugged where
  inline := by decide +kernel
  following := by decide +kernel
  alone := by decide +kernel
  fields := by decide +kernel

theorem mutedBranch_filled : ∃ out, Generator.generate {} mutedBranch = .ok out ∧ Filled (outline out.code) := by
  have hok : (Generator.generate {} mutedBranch).isOk = true := by decide +kernel
  cases hout : Generator.generate {} mutedBranch with
  | error f =>
    rw [hout] at hok
    cases hok
  | ok out =>
    exact ⟨out, rfl, (Generator.generate_fills_suites mutedBranch_wellPlugged hout).2.1 (by decide +kernel)⟩

/-- A branch with nothing but a block that has a comment and is written elsewhere. -/
def remarkedBranch : Workspace 3 where
  diagram := { blocks := #v[
    { type := "controls_if", id := "b1", slots := [⟨"IF0", .value, some 1⟩, ⟨"DO0", .statement, some 2⟩] },
    { type := "logic_boolean", id := "b2", fields := [("BOOL", .text "TRUE")], hasOutput := true },
    { type := "serial_setup", id := "b3", comment := some "port" }] : Diagram 3 }.adoptAll
  tops := [0]

theorem remarkedBranch_wellPlugged : remarkedBranch.WellPlugged where
  inline := by decide +kernel
  following := by decide +kernel
  alone := by decide +kernel
  fields := by decide +kernel

/-- The branch has a comment, so that it gets no line that does nothing. -/
theorem remarkedBranch_hollow : remarkedBranch.WellPlugged ∧
    (Generator.generate {} remarkedBranch).toOption.map (·.code) = some ("from machine import UART\n\n" ++
      "# ---- setup ----\nuart0 = UART(0, baudrate=115200)\n\n" ++ "# ---- main ----\nif True:\n    # port\n") ∧
    ∀ out, Generator.generate {} remarkedBranch = .ok out → ¬ Filled (outline out.code) := by
  refine ⟨remarkedBranch_wellPlugged, by decide +kernel, fun out hout => ?_⟩
  have hnot : ((Generator.generate {} remarkedBranch).toOption.any fun out => !decide (Filled (outline out.code))) = true := by
    decide +kernel
  rw [hout] at hnot
  simpa [Except.toOption] using hnot

end BlockScript
