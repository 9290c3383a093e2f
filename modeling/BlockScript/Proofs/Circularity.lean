import BlockScript.Program.Generation
import BlockScript.Proofs.Chains
import BlockScript.Proofs.Faults
import BlockScript.Proofs.Keys
import BlockScript.Proofs.Runs

namespace BlockScript

namespace TypingScope

variable {n : Nat} {s : TypingScope n}

/-- The kind of a block is found from the kind of another one. -/
inductive Needs (s : TypingScope n) (i : Fin n) : Fin n → Prop where
  | left {j : Fin n} : (s.diagram.block i).kind? = some .arithmetic →
      ¬ ((s.diagram.block i).fieldD "OP" .null == .text "DIVIDE") = true →
      (s.diagram.block i).child? "A" = some j → Needs s i j
  | right {j : Fin n} : (s.diagram.block i).kind? = some .arithmetic →
      ¬ ((s.diagram.block i).fieldD "OP" .null == .text "DIVIDE") = true →
      (s.diagram.block i).child? "B" = some j → Needs s i j
  | constrained {j : Fin n} : (s.diagram.block i).kind? = some .constrain →
      (s.diagram.block i).child? "VALUE" = some j → Needs s i j
  | chosen {j : Fin n} : (s.diagram.block i).kind? = some .ternary →
      (s.diagram.block i).child? "THEN" = some j → Needs s i j
  | returned {d j : Fin n} : (s.diagram.block i).kind? = some .callValue →
      s.procedures.find ((s.diagram.block i).fieldD "NAME" .null) = .ok (some d) →
      (s.diagram.block d).child? "RETURN" = some j → Needs s i j

/-- A block whose kind leads to one that needs its own kind. -/
def Circular (s : TypingScope n) (i : Fin n) : Prop :=
  ∃ j, Relation.ReflTransGen s.Needs i j ∧ Relation.TransGen s.Needs j j

variable {held : VariableKinds} {depth : Nat} {i : Fin n}

theorem kindOf_none : s.kindOf held depth none = .ok .missing := by
  cases depth <;> rfl

theorem ofNumeral_ends (t : String) : ValueKind.ofNumeral t ≠ .error .endless := by
  unfold ValueKind.ofNumeral
  dsimp only
  split
  · split <;> simp
  · split <;> simp

theorem find_ends {α : Type} (l : Ledger Value α) (v : Value) : l.find v ≠ .error .endless := by
  unfold Ledger.find
  split <;> simp

theorem lookup_ends {α : Type} (v : Value) (table : List (String × α)) :
    v.lookup table ≠ .error .endless := by
  cases v <;> simp [Value.lookup]

theorem child_of_endless {o : Option (Fin n)} (h : s.kindOf held depth o = .error .endless) :
    ∃ j, o = some j ∧ s.kindOf held depth (some j) = .error .endless := by
  cases o with
  | none => simp [kindOf_none] at h
  | some j => exact ⟨j, rfl, h⟩

/-- A block runs out of depth because one that it needs does. -/
theorem kindOf_endless_step (h : s.kindOf held (depth + 1) (some i) = .error .endless) :
    ∃ j, s.Needs i j ∧ s.kindOf held depth (some j) = .error .endless := by
  simp only [kindOf] at h
  split at h
  · exact absurd h (ofNumeral_ends _)
  · obtain hf | ⟨_, -, h⟩ := error_of_bind h
    · exact absurd hf (find_ends _ _)
    · cases h
  · obtain hf | ⟨_, -, h⟩ := error_of_bind h
    · exact absurd hf (lookup_ends _ _)
    · cases h
  · rename_i hk
    split at h
    · cases h
    · rename_i hop
      obtain ha | ⟨_, -, h⟩ := error_of_bind h
      · obtain ⟨j, hj, he⟩ := child_of_endless ha
        exact ⟨j, .left hk hop hj, he⟩
      · obtain hb | ⟨_, -, h⟩ := error_of_bind h
        · obtain ⟨j, hj, he⟩ := child_of_endless hb
          exact ⟨j, .right hk hop hj, he⟩
        · cases h
  · rename_i hk
    obtain ⟨j, hj, he⟩ := child_of_endless h
    exact ⟨j, .constrained hk hj, he⟩
  · rename_i hk
    obtain ⟨j, hj, he⟩ := child_of_endless h
    exact ⟨j, .chosen hk hj, he⟩
  · rename_i hk
    obtain hf | ⟨d, hd, h⟩ := error_of_bind h
    · exact absurd hf (find_ends _ _)
    · cases d with
      | none => cases h
      | some d =>
        simp only at h
        split at h
        · cases h
        · rename_i j hj
          exact ⟨j, .returned hk hd hj, h⟩
  · cases h
  · cases h

/-- A block with a kind needs only blocks with a kind. -/
theorem kindOf_ok_step {k : ValueKind} (h : s.kindOf held (depth + 1) (some i) = .ok k) {j : Fin n}
    (hj : s.Needs i j) : ∃ k', s.kindOf held depth (some j) = .ok k' := by
  cases hj with
  | left hk hop hj =>
    simp only [kindOf, hk, hop] at h
    obtain ⟨k', hk', -⟩ := ok_of_bind h
    exact ⟨k', hj ▸ hk'⟩
  | right hk hop hj =>
    simp only [kindOf, hk, hop] at h
    obtain ⟨_, -, h⟩ := ok_of_bind h
    obtain ⟨k', hk', -⟩ := ok_of_bind h
    exact ⟨k', hj ▸ hk'⟩
  | constrained hk hj =>
    simp only [kindOf, hk, hj] at h
    exact ⟨k, h⟩
  | chosen hk hj =>
    simp only [kindOf, hk, hj] at h
    exact ⟨k, h⟩
  | returned hk hd hj =>
    simp only [kindOf, hk, hd, hj, bind, Except.bind] at h
    exact ⟨k, h⟩

theorem circular_of_endless (h : s.valueKind held (some i) = .error .endless) : s.Circular i :=
  circle_of_descent (P := fun depth i => s.kindOf held depth (some i) = .error .endless)
    (fun _ _ => kindOf_endless_step) h

theorem ok_of_transGen {k : ValueKind} {j : Fin n} (hij : Relation.TransGen s.Needs i j)
    (h : s.kindOf held depth (some i) = .ok k) :
    ∃ depth' < depth, ∃ k', s.kindOf held depth' (some j) = .ok k' := by
  induction hij with
  | single hj =>
    cases depth with
    | zero => cases h
    | succ depth => exact ⟨depth, by omega, kindOf_ok_step h hj⟩
  | tail _ hj ih =>
    obtain ⟨depth', hlt, k', hk'⟩ := ih
    cases depth' with
    | zero => cases hk'
    | succ depth' => exact ⟨depth', by omega, kindOf_ok_step hk' hj⟩

theorem not_circular_of_ok {k : ValueKind} (h : s.valueKind held (some i) = .ok k) : ¬ s.Circular i := by
  rintro ⟨j, hij, hjj⟩
  have hnone : ∀ depth k, s.kindOf held depth (some j) ≠ .ok k := by
    intro depth
    induction depth using Nat.strongRecOn with
    | _ depth ih =>
      intro k hk
      obtain ⟨depth', hlt, k', hk'⟩ := ok_of_transGen hjj hk
      exact ih depth' hlt k' hk'
  obtain rfl | hij := Relation.reflTransGen_iff_eq_or_transGen.mp hij
  · exact hnone n k h
  · obtain ⟨depth, -, k', hk'⟩ := ok_of_transGen hij h
    exact hnone depth k' hk'

/-- An assignment takes the kind of its variable from a block. -/
def TakesFrom (d : Diagram n) (i j : Fin n) : Prop :=
  ∃ kind, (d.block i).kind? = some kind ∧ ∃ slot ∈ assignmentSlots kind, (d.block i).child? slot = some j

theorem assignedKind_endless (h : s.assignedKind held i = .error .endless) :
    ∃ j, TakesFrom s.diagram i j ∧ s.Circular j := by
  simp only [assignedKind] at h
  split at h
  · rename_i hk
    obtain ⟨j, hj, he⟩ := child_of_endless h
    exact ⟨j, ⟨_, hk, "VALUE", by simp [assignmentSlots], hj⟩, circular_of_endless he⟩
  · rename_i hk
    obtain hm | ⟨_, -, h⟩ := error_of_bind h
    · obtain ⟨slot, hslot, hs⟩ := error_of_mapM hm
      obtain ⟨j, hj, he⟩ := child_of_endless hs
      exact ⟨j, ⟨_, hk, slot, hslot, hj⟩, circular_of_endless he⟩
    · cases h
  · cases h
  · cases h

theorem assignedKind_ok {k : ValueKind} (h : s.assignedKind held i = .ok k) {j : Fin n}
    (hj : TakesFrom s.diagram i j) : ¬ s.Circular j := by
  obtain ⟨kind, hk, slot, hslot, hj⟩ := hj
  cases kind with
  | variableSet =>
    obtain rfl : slot = "VALUE" := by simpa [assignmentSlots] using hslot
    simp only [assignedKind, hk, hj] at h
    exact not_circular_of_ok h
  | counting =>
    simp only [assignedKind, hk] at h
    obtain ⟨_, hm, -⟩ := ok_of_bind h
    obtain ⟨k', hk'⟩ := ok_of_mapM hm slot hslot
    exact not_circular_of_ok (hj ▸ hk')
  | _ => simp [assignmentSlots] at hslot

theorem inferFrom_endless {name : Value} {is : List (Fin n)} {established : Option ValueKind}
    {found : Inference} (h : s.inferFrom name is established found = .error .endless) :
    ∃ i ∈ is, ∃ j, TakesFrom s.diagram i j ∧ s.Circular j := by
  induction is generalizing established found with
  | nil => cases h
  | cons i is ih =>
    rw [inferFrom] at h
    obtain ha | ⟨assigned, -, h⟩ := error_of_bind h
    · exact ⟨i, by simp, assignedKind_endless ha⟩
    · have hrest : ∃ i ∈ is, ∃ j, TakesFrom s.diagram i j ∧ s.Circular j := by
        simp only at h
        split at h
        · exact ih h
        · exact ih h
        · exact ih h
      obtain ⟨i', hi', hj⟩ := hrest
      exact ⟨i', List.mem_cons_of_mem i hi', hj⟩

theorem inferFrom_ok {name : Value} {is : List (Fin n)} {established : Option ValueKind}
    {found out : Inference} (h : s.inferFrom name is established found = .ok out) :
    ∀ i ∈ is, ∀ j, TakesFrom s.diagram i j → ¬ s.Circular j := by
  induction is generalizing established found with
  | nil => simp
  | cons i is ih =>
    rw [inferFrom] at h
    obtain ⟨assigned, ha, h⟩ := ok_of_bind h
    have hrest : ∀ i ∈ is, ∀ j, TakesFrom s.diagram i j → ¬ s.Circular j := by
      simp only at h
      split at h
      · exact ih h
      · exact ih h
      · exact ih h
    intro i' hi' j hj
    obtain rfl | hi' := List.mem_cons.mp hi'
    · exact assignedKind_ok ha hj
    · exact hrest i' hi' j hj

end TypingScope

namespace Workspace

variable {n : Nat} {w : Workspace n}

/-- A block that gives a named variable its kind, somewhere in the drawing. -/
def IsAsked (w : Workspace n) (j : Fin n) : Prop :=
  ∃ i ∈ w.allBlocks, (w.block i).namedVariable?.isSome = true ∧ TypingScope.TakesFrom w.diagram i j

theorem assigns_of_takesFrom {i j : Fin n} (h : TypingScope.TakesFrom w.diagram i j) :
    ((w.block i).kind?.map BlockKind.assigns).getD false = true := by
  obtain ⟨kind, hk, slot, hslot, -⟩ := h
  have hk : (w.block i).kind? = some kind := hk
  cases kind with
  | variableSet => simp [hk, BlockKind.assigns]
  | counting => simp [hk, BlockKind.assigns]
  | _ => simp [assignmentSlots] at hslot

/-- One step of collecting assignments. -/
def assignmentStep (w : Workspace n) (found : Ledger Value (List (Fin n))) (i : Fin n) :
    Except Fault (Ledger Value (List (Fin n))) :=
  let b := w.block i
  if (b.kind?.map BlockKind.assigns).getD false then
    match b.namedVariable? with
    | some name =>
      if name.isKey then .ok (found.put name ((found.get? name).getD [] ++ [i]))
      else .error .unsuitable
    | none => .ok found
  else .ok found

theorem assignments_eq (w : Workspace n) : w.assignments = w.allBlocks.foldlM w.assignmentStep {} := rfl

/-- The block assigns a variable of this name. -/
def Assigns (w : Workspace n) (i : Fin n) (name : Value) : Prop :=
  ((w.block i).kind?.map BlockKind.assigns).getD false = true ∧
    ∃ v, (w.block i).namedVariable? = some v ∧ v.isKey = true ∧ (v == name) = true

theorem mem_assignmentStep {found out : Ledger Value (List (Fin n))} {i : Fin n}
    (h : w.assignmentStep found i = .ok out) (name : Value) (j : Fin n) :
    j ∈ (out.get? name).getD [] ↔ j ∈ (found.get? name).getD [] ∨ (j = i ∧ w.Assigns i name) := by
  unfold assignmentStep at h
  unfold Assigns
  dsimp only at h
  split at h
  · rename_i ha
    split at h
    · rename_i v hv
      split at h
      · rename_i hkey
        obtain rfl : found.put v ((found.get? v).getD [] ++ [i]) = out := by cases h; rfl
        rw [Ledger.get?_put]
        by_cases hvn : (v == name) = true
        · rw [if_pos hvn, found.get?_congr hvn]
          simp [ha, hv, hkey, hvn]
        · simp [hv, hvn]
      · cases h
    · rename_i hv
      obtain rfl : found = out := by cases h; rfl
      simp [hv]
  · rename_i ha
    obtain rfl : found = out := by cases h; rfl
    simp [ha]

theorem mem_assignments {a : Ledger Value (List (Fin n))} (h : w.assignments = .ok a) (name : Value)
    (i : Fin n) : i ∈ (a.get? name).getD [] ↔ i ∈ w.allBlocks ∧ w.Assigns i name := by
  rw [assignments_eq] at h
  have hrun : ∀ (is : List (Fin n)) (found : Ledger Value (List (Fin n))),
      is.foldlM w.assignmentStep found = .ok a →
        (i ∈ (a.get? name).getD [] ↔ i ∈ (found.get? name).getD [] ∨ (i ∈ is ∧ w.Assigns i name)) := by
    intro is
    induction is with
    | nil =>
      intro found h
      obtain rfl : found = a := by cases h; rfl
      simp
    | cons j is ih =>
      intro found h
      rw [List.foldlM_cons] at h
      obtain ⟨next, hnext, h⟩ := ok_of_bind h
      rw [ih next h, mem_assignmentStep hnext]
      simp only [List.mem_cons]
      constructor
      · rintro ((hi | ⟨rfl, hi⟩) | ⟨hi, ha⟩)
        · exact Or.inl hi
        · exact Or.inr ⟨Or.inl rfl, hi⟩
        · exact Or.inr ⟨Or.inr hi, ha⟩
      · rintro (hi | ⟨rfl | hi, ha⟩)
        · exact Or.inl (Or.inl hi)
        · exact Or.inl (Or.inr ⟨rfl, ha⟩)
        · exact Or.inr ⟨hi, ha⟩
  simpa [Ledger.get?] using hrun w.allBlocks {} h

theorem addNew_covers (old new : List Value) :
    (∀ v ∈ old, v ∈ addNew old new) ∧ ∀ v ∈ new, ∃ u ∈ addNew old new, (u == v) = true := by
  induction new generalizing old with
  | nil => simp [addNew]
  | cons v new ih =>
    have hstep : addNew old (v :: new) = addNew (if old.contains v then old else old ++ [v]) new := rfl
    rw [hstep]
    obtain ⟨hkeep, hcover⟩ := ih (if old.contains v then old else old ++ [v])
    refine ⟨fun u hu => hkeep u (by split <;> simp [hu]), fun u hu => ?_⟩
    obtain rfl | hu := List.mem_cons.mp hu
    · by_cases hc : old.contains u = true
      · obtain ⟨x, hx, hux⟩ := List.contains_iff_exists_mem_beq.mp hc
        exact ⟨x, hkeep x (by simp [hc, hx]), BEq.symm hux⟩
      · exact ⟨u, hkeep u (by simp [hc]), BEq.rfl⟩
    · exact hcover u hu

theorem mem_variableNames {b : Block n} {names : List Value} (h : b.variableNames = .ok names) {v : Value}
    (hv : b.namedVariable? = some v) : v ∈ names := by
  simp only [Block.variableNames, hv, Option.toList_some] at h
  split at h
  · obtain ⟨args, -, h⟩ := ok_of_bind h
    obtain rfl : [v] ++ args = names := by cases h; rfl
    simp
  · obtain rfl : [v] = names := by cases h; rfl
    simp

/-- Whatever a block names is among the variables in use. -/
theorem allVariables_covers_named {names : List Value} (h : w.allVariables = .ok names) {i : Fin n}
    (hi : i ∈ w.allBlocks) :
    ∃ new, (w.block i).variableNames = .ok new ∧ ∀ v ∈ new, ∃ u ∈ names, (u == v) = true := by
  have hrun : ∀ (is : List (Fin n)) (old : List Value),
      is.foldlM (fun names i => do return addNew names (← (w.block i).variableNames)) old = .ok names →
        (∀ u ∈ old, u ∈ names) ∧ (i ∈ is →
          ∃ new, (w.block i).variableNames = .ok new ∧ ∀ v ∈ new, ∃ u ∈ names, (u == v) = true) := by
    intro is
    induction is with
    | nil =>
      intro old h
      obtain rfl : old = names := by cases h; rfl
      simp
    | cons j is ih =>
      intro old h
      rw [List.foldlM_cons] at h
      obtain ⟨next, hnext, h⟩ := ok_of_bind h
      obtain ⟨new, hnew, hnext⟩ := ok_of_bind hnext
      obtain rfl : addNew old new = next := by cases hnext; rfl
      obtain ⟨hkeep, hcover⟩ := ih (addNew old new) h
      refine ⟨fun u hu => hkeep u ((addNew_covers old new).1 u hu), fun hij => ?_⟩
      obtain rfl | hij := List.mem_cons.mp hij
      · refine ⟨new, hnew, fun v hv => ?_⟩
        obtain ⟨u, hu, huv⟩ := (addNew_covers old new).2 v hv
        exact ⟨u, hkeep u hu, huv⟩
      · exact hcover hij
  exact (hrun w.allBlocks [] h).2 hi

theorem allVariables_covers {names : List Value} (h : w.allVariables = .ok names) {i : Fin n}
    (hi : i ∈ w.allBlocks) {v : Value} (hv : (w.block i).namedVariable? = some v) :
    ∃ u ∈ names, (u == v) = true := by
  obtain ⟨new, hnew, hcover⟩ := allVariables_covers_named h hi
  exact hcover v (mem_variableNames hnew hv)

end Workspace

theorem mem_erase_or_beq {v u : Value} {left : List Value} (hu : u ∈ left) :
    (v == u) = true ∨ u ∈ left.erase v := by
  induction left with
  | nil => cases hu
  | cons x left ih =>
    rw [List.erase_cons]
    obtain rfl | hu := List.mem_cons.mp hu
    · by_cases hx : (u == v) = true
      · exact Or.inl (BEq.symm hx)
      · simp [hx]
    · obtain hv | hv := ih hu
      · exact Or.inl hv
      · split
        · exact Or.inr hu
        · exact Or.inr (List.mem_cons_of_mem x hv)

theorem takeReady?_covers {sources : Value → List Value} {count : Nat} {left order : List Value}
    (hc : left.length ≤ count) (h : takeReady? sources count left = some order) :
    ∀ u ∈ left, ∃ v ∈ order, (v == u) = true := by
  induction count generalizing left order with
  | zero =>
    obtain rfl := List.length_eq_zero_iff.mp (Nat.le_zero.mp hc)
    simp
  | succ count ih =>
    simp only [takeReady?] at h
    obtain ⟨v, hv, h⟩ := Option.bind_eq_some_iff.mp h
    obtain ⟨rest, hrest, h⟩ := Option.bind_eq_some_iff.mp h
    obtain rfl : v :: rest = order := by simpa using h
    have hmem : v ∈ left := List.mem_of_find?_eq_some hv
    have hlen : (left.erase v).length ≤ count := by
      rw [List.erase_eq_eraseP', List.length_eraseP_of_mem (p := (· == v)) hmem BEq.rfl]
      omega
    intro u hu
    obtain hvu | hu := mem_erase_or_beq (v := v) hu
    · exact ⟨v, by simp, hvu⟩
    · obtain ⟨x, hx, hxu⟩ := ih hlen hrest u hu
      exact ⟨x, List.mem_cons_of_mem v hx, hxu⟩

namespace Workspace

variable {n : Nat} {w : Workspace n}

theorem procedures_ends : w.procedures ≠ .error .endless := by
  intro h
  obtain ⟨i, -, p, h⟩ := error_of_foldlM h
  unfold Procedures.add at h
  split at h
  · cases h
  · split at h <;> cases h

theorem assignments_ends : w.assignments ≠ .error .endless := by
  intro h
  obtain ⟨i, -, found, h⟩ := error_of_foldlM h
  dsimp only at h
  split at h
  · split at h
    · split at h <;> cases h
    · cases h
  · cases h

theorem toList_ends (v : Value) : v.toList ≠ .error .endless := by
  cases v <;> simp [Value.toList]

theorem allVariables_ends : w.allVariables ≠ .error .endless := by
  intro h
  obtain ⟨i, -, names, h⟩ := error_of_foldlM h
  obtain h | ⟨_, -, h⟩ := error_of_bind h
  · simp only [Block.variableNames] at h
    split at h
    · obtain h | ⟨_, -, h⟩ := error_of_bind h
      · unfold Block.arguments at h
        split at h
        · exact toList_ends _ h
        · cases h
      · cases h
    · cases h
  · cases h

theorem checkAttribute_ends (pair : Value) : checkAttribute pair ≠ .error .endless := by
  intro h
  obtain h | ⟨_, -, h⟩ := error_of_bind h
  · exact toList_ends _ h
  · split at h
    · split at h <;> cases h
    · cases h

theorem declared_ends (name : Value) : declared name ≠ .error .endless := by
  intro h
  unfold declared at h
  split at h
  · cases h
  · dsimp only at h
    split at h
    · cases h
    · obtain h | ⟨_, -, h⟩ := error_of_bind h
      · exact toList_ends _ h
      · obtain h | ⟨_, -, h⟩ := error_of_bind h
        · obtain ⟨pair, -, h⟩ := error_of_forM h
          exact checkAttribute_ends pair h
        · split at h <;> cases h
  · cases h
  · cases h

theorem checkVariables_ends (names : List Value) (sources : Ledger Value (List Value)) :
    checkVariables names sources ≠ .error .endless := by
  intro h
  unfold checkVariables at h
  obtain h | ⟨_, -, h⟩ := error_of_bind h
  · obtain ⟨name, -, h⟩ := error_of_mapM h
    exact declared_ends name h
  · dsimp only at h
    split at h
    · cases h
    · split at h <;> cases h

/-- The scope in which kinds are inferred. -/
def Procedures.scope (p : Procedures n) (w : Workspace n) : TypingScope n :=
  ⟨w.diagram, p.definitions⟩

theorem infer_endless (h : w.infer = .error .endless) :
    ∃ p a name found, w.procedures = .ok p ∧ w.assignments = .ok a ∧
      (p.scope w).inferVariable a name found = .error .endless := by
  simp only [infer] at h
  obtain h | ⟨p, hp, h⟩ := error_of_bind h
  · exact absurd h procedures_ends
  obtain h | ⟨a, ha, h⟩ := error_of_bind h
  · exact absurd h assignments_ends
  obtain h | ⟨names, -, h⟩ := error_of_bind h
  · exact absurd h allVariables_ends
  obtain h | ⟨_, -, h⟩ := error_of_bind h
  · exact absurd h (checkVariables_ends _ _)
  obtain h | ⟨found, -, h⟩ := error_of_bind h
  · obtain ⟨name, -, found, h⟩ := error_of_foldlM h
    exact ⟨p, a, name, found, hp, ha, h⟩
  · split at h <;> cases h

theorem infer_ok {typed : Typed n} (h : w.infer = .ok typed) :
    ∃ p a names, ∃ order : List Value, w.procedures = .ok p ∧ w.assignments = .ok a ∧ w.allVariables = .ok names ∧
      (∀ u ∈ names, u.isKey = true → ∃ v ∈ order, (v == u) = true) ∧
      ∀ v ∈ order, ∃ found out, (p.scope w).inferVariable a v found = .ok out := by
  simp only [infer] at h
  obtain ⟨p, hp, h⟩ := ok_of_bind h
  obtain ⟨a, ha, h⟩ := ok_of_bind h
  obtain ⟨names, hnames, h⟩ := ok_of_bind h
  obtain ⟨_, -, h⟩ := ok_of_bind h
  obtain ⟨found, hfold, -⟩ := ok_of_bind h
  refine ⟨p, a, names, _, hp, ha, hnames, ?_, ok_of_foldlM hfold⟩
  intro u hu hkey
  split
  · rename_i order ho
    exact takeReady?_covers (Nat.le_refl _) ho u (List.mem_filter.mpr ⟨hu, hkey⟩)
  · exact ⟨u, hu, BEq.rfl⟩

/-- The kind of a value that is assigned somewhere depends on itself. -/
def TypesInCircle (w : Workspace n) : Prop :=
  ∃ p, w.procedures = .ok p ∧ ∃ j, w.IsAsked j ∧ (p.scope w).Circular j

/-- Only a value that is asked for can make inference run for ever. -/
theorem circular_of_infer_endless (h : w.infer = .error .endless) : w.TypesInCircle := by
  obtain ⟨p, a, name, found, hp, ha, h⟩ := infer_endless h
  refine ⟨p, hp, ?_⟩
  unfold TypingScope.inferVariable at h
  split at h
  · obtain ⟨i, hi, j, hij, hj⟩ := TypingScope.inferFrom_endless h
    obtain ⟨hi, -, v, hv, -⟩ := (mem_assignments ha name i).mp hi
    exact ⟨j, ⟨i, hi, by simp [hv], hij⟩, hj⟩
  · cases h

/-- Where inference finds kinds, no value that is asked for leads to itself. -/
theorem not_circular_of_infer_ok {typed : Typed n} (h : w.infer = .ok typed) {p : Procedures n}
    (hp : w.procedures = .ok p) {j : Fin n} (hj : w.IsAsked j) : ¬ (p.scope w).Circular j := by
  obtain ⟨p', a, names, order, hp', ha, hnames, hcover, hall⟩ := infer_ok h
  obtain rfl : p' = p := by rw [hp] at hp'; cases hp'; rfl
  obtain ⟨i, hi, hv, hij⟩ := hj
  obtain ⟨v, hv⟩ := Option.isSome_iff_exists.mp hv
  have hassigns := assigns_of_takesFrom hij
  have hkey : v.isKey = true := by
    rw [assignments_eq] at ha
    obtain ⟨found, out, hstep⟩ := ok_of_foldlM ha i hi
    simp only [assignmentStep, hassigns, hv, ↓reduceIte] at hstep
    split at hstep
    · assumption
    · cases hstep
  obtain ⟨u, hu, huv⟩ := allVariables_covers hnames hi hv
  obtain ⟨name, hname, hnu⟩ := hcover u hu ((Value.isKey_congr huv).trans hkey)
  obtain ⟨found, out, hinfer⟩ := hall name hname
  have hmem : i ∈ (a.get? name).getD [] :=
    (mem_assignments ha name i).mpr ⟨hi, hassigns, v, hv, hkey, BEq.symm (BEq.trans hnu huv)⟩
  unfold TypingScope.inferVariable at hinfer
  split at hinfer
  · exact TypingScope.inferFrom_ok hinfer i hmem j hij
  · cases hinfer

end Workspace

namespace Generator

variable {n : Nat}

theorem validate_ends (w : Workspace n) : w.validate ≠ .error .endless := by
  unfold Workspace.validate
  dsimp only
  split
  · simp
  · split <;> simp

theorem declareVariable_ends (name : Value) (kind : ValueKind) (s t : Session) :
    (declareVariable name kind).run s ≠ (.error .endless, t) := by
  intro h
  obtain h | ⟨x, u, -, h⟩ := Run.error_of_run_bind h
  · rw [Run.variableName, Run.run_identifier] at h
    unfold Names.get at h
    split at h
    · rename_i f hf
      cases h
      split at hf <;> cases hf
    · cases h
  · obtain h | ⟨_, _, -, h⟩ := Run.error_of_run_bind h
    · rw [Run.addVariable, Run.run_addFragment] at h
      split at h <;> cases h
    · cases h

theorem declareVariables_end (entries : List (Value × ValueKind)) (s t : Session) :
    (entries.forM fun (name, kind) => declareVariable name kind).run s ≠ (.error .endless, t) := by
  intro h
  induction entries generalizing s with
  | nil => cases h
  | cons e entries ih =>
    obtain h | ⟨_, u, -, h⟩ := Run.error_of_run_bind h
    · exact declareVariable_ends e.1 e.2 s t h
    · exact ih u h

/-- A session fails to open for want of an end exactly if inference does. -/
theorem start_endless_iff (g : Generator) (w : Workspace n) {c : Connections n} (hc : w.validate = .ok c) :
    g.start w = .error .endless ↔ w.infer = .error .endless := by
  constructor
  · intro h
    obtain h | ⟨_, -, h⟩ := error_of_bind h
    · exact absurd h (validate_ends w)
    · obtain h | ⟨typed, -, h⟩ := error_of_bind h
      · exact h
      · dsimp only at h
        split at h
        · cases h
        · rename_i f t hrun
          obtain rfl : f = .endless := by cases h; rfl
          exact absurd hrun (declareVariables_end _ _ t)
  · intro h
    simp only [start, hc, h, bind, Except.bind]

/-- A session cannot be opened for want of an end only if the kind of an assigned value depends on itself,
and where one does, there is no session. -/
theorem start_endless_circular (g : Generator) (w : Workspace n) {c : Connections n}
    (hc : w.validate = .ok c) :
    (w.infer = .error .endless → w.TypesInCircle) ∧
    (w.TypesInCircle → ∀ typed, w.infer ≠ .ok typed) ∧
    (g.start w = .error .endless ↔ w.infer = .error .endless) := by
  refine ⟨Workspace.circular_of_infer_endless, ?_, start_endless_iff g w hc⟩
  rintro ⟨p, hp, j, hj, hcircle⟩ typed h
  exact Workspace.not_circular_of_infer_ok h hp hj hcircle

end Generator

/-- A function that returns a call of itself, and a variable that is set to another call of it. -/
def selfCalling : Workspace 4 where
  diagram := { blocks := #v[
    { type := "procedures_defreturn", id := "b1", fields := [("NAME", .text "f")],
      slots := [⟨"RETURN", .value, some 1⟩] },
    { type := "procedures_callreturn", id := "b2", fields := [("NAME", .text "f")], hasOutput := true },
    { type := "variables_set", id := "b3", fields := [("VAR", .text "m")],
      slots := [⟨"VALUE", .value, some 3⟩], y := .whole 1 },
    { type := "procedures_callreturn", id := "b4", fields := [("NAME", .text "f")], hasOutput := true }]
      : Diagram 4 }.adoptAll
  tops := [0, 2]

def isEndless {α : Type} : Except Fault α → Bool
  | .error .endless => true
  | _ => false

theorem eq_endless {α : Type} {r : Except Fault α} (h : isEndless r = true) : r = .error .endless := by
  cases r with
  | ok a => cases h
  | error f =>
    cases f <;> first | rfl | cases h

theorem selfCalling_valid : selfCalling.validate = .ok selfCalling.connections := by
  have h : selfCalling.validate.isOk = true := by decide +kernel
  unfold Workspace.validate at h ⊢
  dsimp only at h ⊢
  split at h
  · cases h
  · split at h
    · rfl
    · cases h

theorem selfCalling_never_typed :
    selfCalling.validate = .ok selfCalling.connections ∧ selfCalling.infer = .error .endless ∧
      Generator.start {} selfCalling = .error .endless :=
  ⟨selfCalling_valid, eq_endless (by decide +kernel), eq_endless (by decide +kernel)⟩

theorem selfCalling_circular : selfCalling.TypesInCircle :=
  (Generator.start_endless_circular {} selfCalling selfCalling_valid).1 (eq_endless (by decide +kernel))

end BlockScript
