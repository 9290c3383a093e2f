import BlockScript.Proofs.Chains
import BlockScript.Proofs.ValueBlocks

namespace BlockScript

open Run

variable {n : Nat} {u : Session}

namespace Diagram

variable {d : Diagram n} {i j : Fin n}

/-- A block is plugged into another one. -/
def PluggedInto (d : Diagram n) (i j : Fin n) : Prop :=
  ∃ name, (d.block i).child? name = some j

namespace ValueTree

theorem child (h : d.ValueTree i) {name : String} (hj : (d.block i).child? name = some j) : d.ValueTree j := by
  obtain ⟨-, -, -, hbelow⟩ := h
  obtain ⟨slot, hslot, hchild⟩ := Option.bind_eq_some_iff.mp hj
  exact hbelow slot (List.mem_of_find?_eq_some hslot) j hchild

theorem children (h : d.ValueTree i) : ∀ j ∈ d.childrenOf i, d.ValueTree j := by
  obtain ⟨hnext, -, -, hbelow⟩ := h
  intro j hj
  simp only [childrenOf, Block.children, hnext, Option.toList_none, List.map_nil, List.append_nil, List.mem_map,
    List.mem_filterMap, Option.map_eq_some_iff] at hj
  obtain ⟨_, ⟨slot, hslot, _, hchild, rfl⟩, rfl⟩ := hj
  exact hbelow slot hslot _ hchild

theorem descendants (h : d.ValueTree i) : ∀ j ∈ d.descendants i, d.ValueTree j :=
  descendants_closed (fun _ hi => hi.children) h

theorem reach (h : d.ValueTree i) (hij : Relation.ReflTransGen d.PluggedInto i j) : d.ValueTree j := by
  induction hij with
  | refl => exact h
  | tail _ hplug ih =>
    obtain ⟨name, hj⟩ := hplug
    exact ih.child hj

theorem not_circle (h : d.ValueTree i) : ¬ Relation.TransGen d.PluggedInto i i := by
  induction h with
  | @node i hnext hcomment hkind hbelow ih =>
    intro hcircle
    obtain ⟨j, ⟨name, hj⟩, hback⟩ := Relation.TransGen.head'_iff.mp hcircle
    obtain ⟨slot, hslot, hchild⟩ := Option.bind_eq_some_iff.mp hj
    exact ih slot (List.mem_of_find?_eq_some hslot) j hchild (.tail' hback ⟨name, hj⟩)

end ValueTree

end Diagram

namespace Job

variable {job : Job n} {i : Fin n}

/-- The number of blocks is depth enough: the tree of a block is made of the trees of what is plugged into it. -/
theorem tree_eq (h : job.diagram.ValueTree i) : job.tree u i =
    if (job.diagram.block i).disabled then none
    else (job.diagram.block i).kind?.bind ((job.scene i).tree? u fun name =>
      ((job.diagram.block i).child? name).bind (job.tree u)) := by
  show job.treeWithin u n i = job.treeWithin u (n + 1) i
  by_contra hne
  obtain ⟨j, hij, hcircle⟩ := circle_of_descent (R := job.diagram.PluggedInto)
    (P := fun depth i => job.treeWithin u depth i ≠ job.treeWithin u (depth + 1) i) (fun depth i hi => by
      by_contra hall
      push Not at hall
      have hsame : ∀ name, ((job.diagram.block i).child? name).bind (job.treeWithin u depth) =
          ((job.diagram.block i).child? name).bind (job.treeWithin u (depth + 1)) := by
        intro name
        cases hj : (job.diagram.block i).child? name with
        | none => rfl
        | some j => exact hall j ⟨name, hj⟩
      refine hi ?_
      rw [treeWithin_succ, treeWithin_succ, funext hsame]) hne
  exact (h.reach hij).not_circle hcircle

end Job

namespace Scene

variable {s : Scene n}

theorem comments_of_valueTree (h : s.job.diagram.ValueTree s.index) : s.comments = "" := by
  obtain ⟨-, hcomment, -, hbelow⟩ := h
  refine comments_eq_empty hcomment fun slot hslot j hj k hk => ?_
  obtain ⟨-, hnone, -, -⟩ := (hbelow slot hslot j hj).descendants k hk
  exact hnone

end Scene

namespace Job

variable {job : Job n} {i : Fin n}

/-- The text of a block in a tree of value blocks is its operator tree. -/
theorem emitWithin_gives (hr : job.rules = {}) (depth : Nat) (hi : job.diagram.ValueTree i) :
    Gives u (job.emitWithin depth (some i)) (Output.Tells (job.treeWithin u depth i) (job.Unranked i)) := by
  induction depth generalizing i with
  | zero => exact Gives.throw _ _
  | succ depth ih =>
    have hcomments : (job.scene i).comments = "" := Scene.comments_of_valueTree hi
    have hf : Scene.Faithful ⟨job, i, job.emitWithin depth⟩ u (job.treeWithin u depth) := fun name j hj =>
      (ih (hi.child hj)).imp fun _ h => h.shows
    obtain ⟨hnext, -, hvalue, -⟩ := hi
    refine (emitWithin_value hr hvalue hnext hf).imp ?_
    rintro o ⟨o', htells, rfl⟩
    rw [hcomments, Output.behind_empty]
    exact htells

end Job

namespace Generator

variable {g : Generator} {w : Workspace n} {σ τ : Session} {i : Fin n} {o : Output}

/-- Precedence is preserved. The text of a tree of value blocks reads as its operator tree and as no other, and in
a slot it stays a single operand. Its rank is that of an expression as loose as its outermost operator, unless the
block is a number without finite value. -/
theorem emit_preserves_precedence (hg : g.rules = {}) (hσ : g.Reaches w σ) (hi : w.diagram.ValueTree i)
    (h : ((g.job w).emit (some i)).run σ = (.ok o, τ)) (ho : o.code ≠ "") :
    ∃ code rank e, o = .expression code rank ∧ (g.job w).tree τ i = some e ∧
      Parses code e ∧ (∀ e', Parses code e' → e' = e) ∧
      (Written rank code e ↔ ¬ (g.job w).Unranked i) ∧
      ∀ outer, ((g.job w).Unranked i → OperatorClass.functionCall.rank ≤ outer) →
        Written outer (Rank.parenthesize code rank outer) e := by
  have hgives : Gives τ ((g.job w).emit (some i)) _ := Job.emitWithin_gives hg n hi
  obtain ⟨hcode, -⟩ | ⟨code, rank, e, rfl, htree, hemits, hrank⟩ := hgives.gives h hσ.plain (.refl τ)
  · exact absurd hcode ho
  · exact ⟨code, rank, e, rfl, htree, hemits.written.parses, fun e' he' => he'.unique hemits.written.parses, hrank,
      fun outer houter => hemits.slot fun hnot => houter (not_not.mp fun hu => hnot (hrank.mpr hu))⟩

/-- What a block gives in the session that is opened for its drawing. -/
def firstOutput? (g : Generator) (w : Workspace n) (i : Fin n) : Option Output := do
  let σ ← (g.start w).toOption
  (((g.job w).emit (some i)).run σ).1.toOption

theorem run_of_firstOutput (h : g.firstOutput? w i = some o) :
    ∃ σ τ, g.start w = .ok σ ∧ ((g.job w).emit (some i)).run σ = (.ok o, τ) := by
  obtain ⟨σ, hσ, ho⟩ := Option.bind_eq_some_iff.mp h
  cases hs : g.start w with
  | error f =>
    rw [hs] at hσ
    cases hσ
  | ok s =>
    rw [hs] at hσ
    cases hσ
    generalize hr : ((g.job w).emit (some i)).run σ = r at ho
    obtain ⟨r, τ⟩ := r
    cases r with
    | error f => cases ho
    | ok o' =>
      cases ho
      exact ⟨σ, τ, rfl, hr⟩
end Generator

/-- A difference whose second operand is a difference, both without numbers. -/
def nestedDifference : Workspace 2 where
  diagram := { blocks := #v[
    { type := "math_arithmetic", id := "b1", fields := [("OP", .text "MINUS")], slots := [⟨"B", .value, some 1⟩],
      hasOutput := true },
    { type := "math_arithmetic", id := "b2", fields := [("OP", .text "MINUS")], hasOutput := true }]
      : Diagram 2 }.adoptAll
  tops := [0]

theorem nestedDifference_valueTree : nestedDifference.diagram.ValueTree 0 := by
  have hkind : BlockKind.ofType? "math_arithmetic" = some .arithmetic := by decide
  have hone : nestedDifference.diagram.ValueTree 1 := by
    refine .node rfl rfl ?_ ?_
    · intro k hk
      cases hkind.symm.trans hk
      rfl
    · intro slot hslot
      cases hslot
  refine .node rfl rfl ?_ ?_
  · intro k hk
    cases hkind.symm.trans hk
    rfl
  · intro slot hslot j hj
    obtain rfl := List.mem_singleton.mp hslot
    cases hj
    exact hone

theorem nestedDifference_parses : Parses "0 - (0 - 0)" (.binary .minus .zero (.binary .minus .zero .zero)) := by
  have hout : Generator.firstOutput? {} nestedDifference 0 =
      some (.expression "0 - (0 - 0)" OperatorClass.additive.rank) := by decide +kernel
  obtain ⟨σ, τ, hσ, hrun⟩ := Generator.run_of_firstOutput hout
  obtain ⟨code, rank, e, ho, htree, hparses, -⟩ :=
    Generator.emit_preserves_precedence rfl (.start hσ) nestedDifference_valueTree hrun (by decide)
  cases ho
  have hsame : (Generator.job {} nestedDifference).tree τ 0 =
      some (.binary .minus .zero (.binary .minus .zero .zero)) := by
    rfl
  rw [hsame] at htree
  cases htree
  exact hparses

def infinityBlock : Workspace 1 where
  diagram := { blocks := #v[
    { type := "math_constant", id := "b1", fields := [("CONSTANT", .text "INFINITY")], hasOutput := true }]
      : Diagram 1 }
  tops := [0]

/-- The rank of an atom is tighter than the call that the text is. -/
theorem infinityBlock_too_tight :
    Generator.firstOutput? {} infinityBlock 0 = some (.expression "float('inf')" OperatorClass.atomic.rank) ∧
      Written OperatorClass.functionCall.rank "float('inf')" .infinity ∧
      ∀ e, ¬ Written OperatorClass.atomic.rank "float('inf')" e :=
  ⟨by decide +kernel, written_infinity, not_written_infinity⟩

end BlockScript
