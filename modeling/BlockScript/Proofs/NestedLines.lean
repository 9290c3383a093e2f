import BlockScript.Proofs.FilledSuites
import BlockScript.Proofs.Precedence

namespace BlockScript

variable {n : Nat}

/-- A comment in the lines of a chain stands at one of the blocks. -/
theorem Job.Ready.comment_of_annotated {job : Job n} {R : Fin n → Prop} (hj : job.Ready R) {o : Option (Fin n)}
    (hR : ∀ i, o = some i → R i) (h : job.Annotated o) : ∃ i, R i ∧ (job.diagram.block i).comment? ≠ none := by
  induction h with
  | here place comments => exact hj.comment_of_remarks hR (.here place comments)
  | @inside i o place suite annotated ih =>
    obtain ⟨kind, name, -, hname⟩ := mem_suites suite
    exact ih fun j hc => (hj.child (hR i rfl) (hname.trans hc)).1
  | @later i passes next ih => exact ih fun j hn => hj.next (hR i rfl) hn

/-- The lines that a statement is written as have, read by their indentation, the nesting of the blocks. -/
theorem Generator.emit_nests {w : Workspace n} {R : Fin n → Prop} (hw : (Generator.job {} w).Ready R)
    (hcomments : ∀ j, R j → (w.block j).comment? = none) {i : Fin n} (hi : R i) {s t : Session}
    (hs : Generator.Reaches {} w s) {code : String}
    (hrun : ((Generator.job {} w).emit (some i)).run s = (.ok (.statement code), t)) :
    Whole code ∧ Text.indented code = (Forest.ofText code).render 0 ∧
      (Generator.job {} w).Nests (some i) (Forest.ofText code) := by
  have hchains := (hw.writes n).1 False i hi False.elim
  obtain ⟨⟨hchain, -⟩, -⟩ := hchains.holds hrun hs.plain
  have hplain : ¬ (Generator.job {} w).Annotated (some i) := by
    intro hannotated
    obtain ⟨j, hj, hcomment⟩ := hw.comment_of_annotated (by rintro _ ⟨⟩; exact hi) hannotated
    exact hcomment (hcomments j hj)
  obtain ⟨f, hf, hlines⟩ := hchain.nests hplain
  rw [Forest.ofText_eq hlines]
  exact ⟨hchain.sheet.whole, hlines, hf⟩

/-- A loop around a branch with a disabled block and one around a block that is not written out. -/
def nestedBranches : Workspace 7 where
  diagram := { blocks := #v[
    { type := "arduino_functions", id := "m", slots := [⟨"SETUP_FUNC", .statement, some 1⟩, ⟨"LOOP_FUNC", .statement, some 2⟩] },
    { type := "serial_print", id := "once" },
    { type := "controls_if", id := "b", slots := [⟨"DO0", .statement, some 3⟩, ⟨"ELSE", .statement, some 4⟩] },
    { type := "serial_print", id := "off", disabled := true },
    { type := "controls_repeat", id := "r", fields := [("TIMES", .int 3)], slots := [⟨"DO", .statement, some 5⟩],
      next := some 6 },
    { type := "lists_setIndex", id := "l" },
    { type := "serial_print", id := "p" }] : Diagram 7 }.adoptAll
  tops := [0]

theorem nestedBranches_wellPlugged : nestedBranches.WellPlugged where
  inline := by decide +kernel
  following := by decide +kernel
  alone := by decide +kernel
  fields := by decide +kernel

def nestedBranchesText : String :=
  "while True:\n    if False:\n        pass\n    else:\n" ++
    "        for count in range(3):\n            pass\n        print('')\n"

def nestedBranchesForest : Forest :=
  let pass : Forest := .cons "pass".toList .nil .nil
  let loop : Forest := .cons "for count in range(3):".toList pass (.cons "print('')".toList .nil .nil)
  .cons "while True:".toList (.cons "if False:".toList pass (.cons "else:".toList loop .nil)) .nil

theorem nestedBranches_nests : Generator.firstOutput? {} nestedBranches 0 = some (.statement nestedBranchesText) ∧
    (Generator.job {} nestedBranches).Nests (some 0) nestedBranchesForest := by
  have hout : Generator.firstOutput? {} nestedBranches 0 = some (.statement nestedBranchesText) := by decide +kernel
  have hread : Forest.ofText nestedBranchesText = nestedBranchesForest := by decide +kernel
  obtain ⟨σ, τ, hσ, hrun⟩ := Generator.run_of_firstOutput hout
  have hcomments : ∀ j ∈ nestedBranches.allBlocks, (nestedBranches.block j).comment? = none := by decide +kernel
  have htop : (0 : Fin 7) ∈ nestedBranches.allBlocks := by decide +kernel
  obtain ⟨-, -, hnests⟩ := Generator.emit_nests nestedBranches_wellPlugged.ready hcomments htop (.start hσ) hrun
  rw [hread] at hnests
  exact ⟨hout, hnests⟩

end BlockScript
