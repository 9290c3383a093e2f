import BlockScript.Proofs.KindSweep

namespace BlockScript

open Relation ValueKind

namespace TypingScope

variable {n : Nat} {s : TypingScope n} {i j : Fin n} {v : Value}

theorem Needs.isParent (h : s.Needs i j) (hcall : (s.diagram.block i).kind? ≠ some .callValue) :
    s.diagram.IsParent i j := by
  cases h with
  | left _ _ hj => exact Diagram.mem_childrenOf (p := .slot "A") hj
  | right _ _ hj => exact Diagram.mem_childrenOf (p := .slot "B") hj
  | constrained _ hj => exact Diagram.mem_childrenOf (p := .slot "VALUE") hj
  | chosen _ hj => exact Diagram.mem_childrenOf (p := .slot "THEN") hj
  | returned hkind => exact absurd hkind hcall

theorem Reads.below (h : s.Reads i v) (hcalls : ∀ k ∈ s.diagram.descendants i, (s.diagram.block k).kind? ≠ some .callValue) :
    ∃ k ∈ s.diagram.descendants i, (s.diagram.block k).kind? = some .variableGet ∧
      (s.diagram.block k).fieldD Block.variableField .null = v := by
  obtain ⟨k, hpath, hk⟩ := h
  refine ⟨k, ?_, hk⟩
  clear hk
  induction hpath with
  | refl => exact s.diagram.mem_descendants i
  | tail _ hneeds ih => exact Diagram.descendants_children ih (hneeds.isParent (hcalls _ ih))

end TypingScope

namespace Workspace

open TypingScope

variable {n : Nat} {w : Workspace n} {p : Procedures n} {i : Fin n} {v : Value}

theorem assignedValues_of_takesFrom {j k : Fin n} (h : TakesFrom w.diagram i j) (hk : k ∈ w.diagram.descendants j) :
    k ∈ w.assignedValues i := by
  obtain ⟨kind, hkind, slot, hslot, hj⟩ := h
  have hkind : (w.block i).kind? = some kind := hkind
  have hj : (w.block i).child? slot = some j := hj
  unfold assignedValues
  simp only [hkind]
  exact List.mem_flatMap.mpr ⟨slot, hslot, List.mem_flatMap.mpr ⟨j, by simp [hj], hk⟩⟩

theorem assignsFrom_within (h : (p.scope w).AssignsFrom i v)
    (hcalls : ∀ j ∈ w.assignedValues i, (w.block j).kind? ≠ some .callValue) :
    ∃ k ∈ w.assignedValues i, (w.block k).kind? = some .variableGet ∧
      (w.block k).fieldD Block.variableField .null = v := by
  obtain ⟨j, hij, hreads⟩ := h
  have hbelow : ∀ k ∈ w.diagram.descendants j, k ∈ w.assignedValues i := fun k hk => assignedValues_of_takesFrom hij hk
  obtain ⟨k, hk, hkind, hfield⟩ := hreads.below fun k hk => hcalls k (hbelow k hk)
  exact ⟨k, hbelow k hk, hkind, hfield⟩

variable {a : Ledger Value (List (Fin n))} {names order : List Value} {start found : Inference} {held : VariableKinds}

/-- A block that does not say which variable it means reads none that is assigned. -/
theorem assignmentsTo_of_unnamed {k : Fin n} (hv : (w.block k).fieldD Block.variableField .null = v)
    (hnone : (w.block k).namedVariable? = none) (htext : v.IsText) : w.assignmentsTo v = [] := by
  apply List.eq_nil_iff_forall_not_mem.mpr
  intro i hi
  obtain ⟨-, -, hnamed⟩ := (mem_assignmentsTo htext).mp hi
  have hgiven : v.isGiven = true := (Option.filter_eq_some_iff.mp hnamed).2
  cases hfield : (w.block k).field? Block.variableField with
  | none =>
    obtain rfl : Value.null = v := by rw [← hv, Block.fieldD, hfield, Option.getD_none]
    cases hgiven
  | some u =>
    obtain rfl : u = v := by rw [← hv, Block.fieldD, hfield, Option.getD_some]
    rw [Block.namedVariable?, hfield, Option.filter_some, if_pos hgiven] at hnone
    cases hnone

/-- A value that is assigned reads variables whose kinds are final, or the variable itself. -/
theorem Swept.follows (h : w.Swept p a names order start found)
    (hcalls : ∀ i ∈ w.allBlocks, ∀ j ∈ w.assignedValues i, (w.block j).kind? ≠ some .callValue)
    (hturn : Turn (p.scope w) a order start v held) (hi : i ∈ w.assignmentsTo v) {u : Value}
    (hu : (p.scope w).AssignsFrom i u) :
    Follows (kindHeld found.kinds v) (kindHeld held u) (kindHeld found.kinds u) := by
  obtain ⟨hknown, hself, hany⟩ := h.known hturn
  obtain ⟨k, hk, hkind, hfield⟩ := assignsFrom_within hu (hcalls i (List.mem_filter.mp hi).1)
  by_cases huv : u = v
  · subst huv
    exact Or.inr (Or.inl ⟨hself, rfl⟩)
  · left
    cases hnamed : (w.block k).namedVariable? with
    | some u' =>
      have hfield' : (w.block k).field? Block.variableField = some u' := (Option.filter_eq_some_iff.mp hnamed).1
      obtain rfl : u' = u := by rw [← hfield, Block.fieldD, hfield', Option.getD_some]
      exact (hknown u' (.single ⟨huv, i, hi, k, hk, by simp [readVariable?, hkind, hnamed]⟩)).symm
    | none =>
      have hundefined : kindHeld found.kinds u = .undefined := by
        by_cases hmem : u ∈ names
        · exact h.kindHeld_of_unassigned (assignmentsTo_of_unnamed hfield hnamed (h.texts u hmem))
        · exact h.kindHeld_of_unused hmem
      obtain hheld | hheld := hany u
      · exact hheld.symm
      · rw [hheld, hundefined]

/-- The kind that a variable has from its assignments, if all variables are taken to have the given kinds. -/
def recomputedKind (w : Workspace n) (s : TypingScope n) (held : VariableKinds) (name : Value) :
    Except Fault ValueKind := do
  return ValueKind.combined (← (w.assignmentsTo name).mapM (s.assignedKind held))

def recomputed (w : Workspace n) (s : TypingScope n) (held : VariableKinds) : Except Fault VariableKinds := do
  let names ← w.allVariables
  return ⟨← names.mapM fun name => do return (name, ← w.recomputedKind s held name)⟩

theorem mapM_pair_eq {f : Value → Except Fault ValueKind} {g : Value → ValueKind} (h : ∀ v ∈ names, f v = .ok (g v)) :
    (names.mapM fun name => do return (name, ← f name)) = .ok (names.map fun name => (name, g name)) := by
  induction names with
  | nil => rfl
  | cons v names ih =>
    rw [List.mapM_cons, ih fun u hu => h u (List.mem_cons_of_mem v hu), h v List.mem_cons_self]
    rfl

theorem mem_names_of_assignmentsTo (hnames : w.allVariables = .ok names) (htexts : ∀ v ∈ names, v.IsText)
    (hi : i ∈ w.assignmentsTo v) : v ∈ names := by
  obtain ⟨hmem, hassigns⟩ := List.mem_filter.mp hi
  obtain ⟨u, hu, huv⟩ := (Option.any_eq_true _ _).mp (Bool.and_eq_true_iff.mp hassigns).2
  have hused := mem_names_of_named hnames htexts hmem hu
  rwa [← ((htexts u hused).beq_iff v).mp huv]

/-- Inference finds kinds that agree with each other: found once more from themselves they are the same, and exactly the
assignments that do not go together with the kind of their variable are told so. -/
theorem infer_consistent (hids : w.DistinctIds) (htexts : ∀ names, w.allVariables = .ok names → ∀ v ∈ names, v.IsText)
    (hcalls : ∀ i ∈ w.allBlocks, ∀ j ∈ w.assignedValues i, (w.block j).kind? ≠ some .callValue)
    (hacyclic : ∀ v, ¬ TransGen w.AssignedFrom v v) {typed : Typed n} (hinfer : w.infer = .ok typed) :
    w.recomputed typed.scope typed.found.kinds = .ok typed.found.kinds ∧
    ∀ i ∈ w.allBlocks, typed.found.Blames (w.block i).id ↔ ∃ v k, i ∈ w.assignmentsTo v ∧
      typed.scope.assignedKind typed.found.kinds i = .ok k ∧ Clashes (kindHeld typed.found.kinds v) k := by
  obtain ⟨p, a, names, order, start, found, -, h, rfl⟩ := infer_swept hinfer htexts hacyclic
  -- under the final kinds, every assignment has the kind that it had at its turn, up to what its variable came to
  have hfinal : ∀ {v held i k}, Turn (p.scope w) a order start v held → i ∈ w.assignmentsTo v →
      (p.scope w).assignedKind held i = .ok k → ∃ l, (p.scope w).assignedKind
        ⟨names.map fun name => (name, kindHeld found.kinds name)⟩ i = .ok l ∧ Follows (kindHeld found.kinds v) k l := by
    intro v held i k hturn hi hk
    refine assignedKind_respects (respected_follows _) (fun u hu => ?_) hk
    rw [h.kindHeld_names]
    exact h.follows hcalls hturn hi hu
  constructor
  · have hsame : ∀ v ∈ names, w.recomputedKind (p.scope w) ⟨names.map fun name => (name, kindHeld found.kinds name)⟩ v =
        .ok (kindHeld found.kinds v) := by
      intro v hv
      obtain ⟨held, hturn⟩ := h.exists_turn hv
      obtain ⟨kinds, hkinds, hfound⟩ := h.combined hturn
      obtain ⟨others, hothers, hfollow⟩ := mapM_respects (fun i hi k hk => hfinal hturn hi hk) hkinds
      rw [hfound] at hfollow
      rw [recomputedKind, hothers, hfound, ← combined_follows hfollow]
      rfl
    rw [recomputed, h.used]
    change (Except.bind (names.mapM _) fun entries => pure (⟨entries⟩ : VariableKinds)) = _
    rw [mapM_pair_eq hsame]
    rfl
  · intro i hi
    show found.Blames _ ↔ _
    rw [h.blames]
    simp only [h.kindHeld_names]
    constructor
    · rintro ⟨v, held, hturn, j, hj, hid, k, hk, hclash⟩
      obtain rfl := hids j i (mem_allBlocks_iff.mp (List.mem_filter.mp hj).1) (mem_allBlocks_iff.mp hi) hid
      obtain ⟨l, hl, hfollow⟩ := hfinal hturn hj hk
      exact ⟨v, l, hj, hl, hfollow.clashes_iff.mpr hclash⟩
    · rintro ⟨v, l, hassigns, hl, hclash⟩
      obtain ⟨held, hturn⟩ := h.exists_turn (mem_names_of_assignmentsTo h.used h.texts hassigns)
      obtain ⟨kinds, hkinds, -⟩ := h.combined hturn
      obtain ⟨k, hk⟩ := ok_of_mapM hkinds i hassigns
      obtain ⟨l', hl', hfollow⟩ := hfinal hturn hassigns hk
      obtain rfl := Except.ok.inj (hl'.symm.trans hl)
      exact ⟨v, held, hturn, i, hassigns, rfl, k, hk, hfollow.clashes_iff.mp hclash⟩

end Workspace

/-- A variable that is raised by a half, and another one that is assigned from it and then a text. -/
def raisedHalf : Workspace 10 where
  diagram := { blocks := #v[
    { type := "variables_set", id := "y1", fields := [("VAR", .text "y")], slots := [⟨"VALUE", .value, some 1⟩] },
    { type := "variables_get", id := "x0", fields := [("VAR", .text "x")], hasOutput := true },
    { type := "variables_set", id := "x1", fields := [("VAR", .text "x")], slots := [⟨"VALUE", .value, some 3⟩] },
    { type := "math_number", id := "one", fields := [("NUM", .int 1)], hasOutput := true },
    { type := "variables_set", id := "x2", fields := [("VAR", .text "x")], slots := [⟨"VALUE", .value, some 5⟩] },
    { type := "math_arithmetic", id := "sum", fields := [("OP", .text "ADD")],
      slots := [⟨"A", .value, some 6⟩, ⟨"B", .value, some 7⟩], hasOutput := true },
    { type := "variables_get", id := "old", fields := [("VAR", .text "x")], hasOutput := true },
    { type := "math_number", id := "half", fields := [("NUM", .text "0.5")], hasOutput := true },
    { type := "variables_set", id := "y2", fields := [("VAR", .text "y")], slots := [⟨"VALUE", .value, some 9⟩] },
    { type := "text", id := "word", fields := [("TEXT", .text "half")], hasOutput := true }] : Diagram 10 }
  tops := [0, 2, 4, 8]

theorem raisedHalf_consistent :
    raisedHalf.DistinctIds ∧ (∀ names, raisedHalf.allVariables = .ok names → ∀ v ∈ names, v.IsText) ∧
    (∀ i ∈ raisedHalf.allBlocks, ∀ j ∈ raisedHalf.assignedValues i, (raisedHalf.block j).kind? ≠ some .callValue) ∧
    (∀ v, ¬ TransGen raisedHalf.AssignedFrom v v) ∧
    ∃ typed, raisedHalf.infer = .ok typed ∧
      TypingScope.kindHeld typed.found.kinds (.text "x") = .decimal ∧
      TypingScope.kindHeld typed.found.kinds (.text "y") = .decimal ∧
      raisedHalf.recomputed typed.scope typed.found.kinds = .ok typed.found.kinds ∧
      typed.found.Blames "y2" ∧ ¬ typed.found.Blames "x2" := by
  have hids : raisedHalf.DistinctIds := by
    have hall : ∀ i j, (raisedHalf.block i).id = (raisedHalf.block j).id → i = j := by decide +kernel
    exact fun i j _ _ => hall i j
  have htexts : ∀ names, raisedHalf.allVariables = .ok names → ∀ v ∈ names, v.IsText := by
    have hall : ∀ names ∈ raisedHalf.allVariables.toOption, ∀ v ∈ names, v.IsText := by decide +kernel
    exact fun names hnames => hall names (by rw [hnames]; rfl)
  have hcalls : ∀ i ∈ raisedHalf.allBlocks, ∀ j ∈ raisedHalf.assignedValues i,
      (raisedHalf.block j).kind? ≠ some .callValue := by decide +kernel
  have hsource : ∀ i, ∀ j ∈ raisedHalf.assignedValues i, ∀ u ∈ raisedHalf.readVariable? j,
      (Value.text "x" == u) = true := by decide +kernel
  have hx : ∀ u v, raisedHalf.AssignedFrom u v → u = .text "x" ∧ v ≠ .text "x" := by
    rintro u v ⟨hne, i, -, j, hj, hu⟩
    have hux := (Value.IsText.beq_iff ⟨"x", rfl⟩ u).mp (hsource i j hj u hu)
    exact ⟨hux.symm, fun hv => hne (hux.symm.trans hv.symm)⟩
  have hacyclic : ∀ v, ¬ TransGen raisedHalf.AssignedFrom v v := not_transGen_of_source hx
  have hkinds : (raisedHalf.infer.toOption.map fun typed =>
      ((TypingScope.kindHeld typed.found.kinds (.text "x"), TypingScope.kindHeld typed.found.kinds (.text "y")),
        typed.found.events)) =
      some ((.decimal, .decimal), [⟨"x1", typeTag, none⟩, ⟨"x2", typeTag, none⟩, ⟨"y1", typeTag, none⟩,
        ⟨"y2", typeTag, some (conflictText (.text "y") .decimal .text)⟩]) := by decide +kernel
  refine ⟨hids, htexts, hcalls, hacyclic, ?_⟩
  cases hinfer : raisedHalf.infer with
  | error f =>
    rw [hinfer] at hkinds
    cases hkinds
  | ok typed =>
    rw [hinfer] at hkinds
    obtain ⟨hboth, hevents⟩ := Prod.mk.inj (Option.some.inj hkinds)
    obtain ⟨hxkind, hykind⟩ := Prod.mk.inj hboth
    obtain ⟨hsame, -⟩ := Workspace.infer_consistent hids htexts hcalls hacyclic hinfer
    refine ⟨typed, rfl, hxkind, hykind, hsame, ?_, ?_⟩
    · unfold Inference.Blames
      simp [hevents]
    · unfold Inference.Blames
      simp [hevents]

end BlockScript
