import Mathlib.Tactic.FinCases
import BlockScript.Proofs.Definitions
import BlockScript.Proofs.KindSweep

namespace BlockScript

open Relation ValueKind

theorem find?_perm_of_unique {α : Type} {l l' : List α} {q : α → Bool} (h : l.Perm l')
    (hunique : ∀ a ∈ l, ∀ b ∈ l, q a = true → q b = true → a = b) : l.find? q = l'.find? q := by
  cases hfound : l.find? q with
  | none =>
    symm
    rw [List.find?_eq_none] at hfound ⊢
    exact fun a ha => hfound a (h.mem_iff.mpr ha)
  | some a =>
    have ha := List.mem_of_find?_eq_some hfound
    obtain ⟨b, hb⟩ : ∃ b, l'.find? q = some b :=
      Option.isSome_iff_exists.mp (List.find?_isSome.mpr ⟨a, h.mem_iff.mp ha, List.find?_some hfound⟩)
    rw [hb, hunique a ha b (h.mem_iff.mpr (List.mem_of_find?_eq_some hb)) (List.find?_some hfound) (List.find?_some hb)]

theorem mapM_perm {α β ε : Type} {f : α → Except ε β} {as as' : List α} (h : as.Perm as') {bs : List β}
    (hbs : as.mapM f = .ok bs) : ∃ bs', as'.mapM f = .ok bs' ∧ bs.Perm bs' := by
  induction h generalizing bs with
  | nil => exact ⟨bs, hbs, .refl bs⟩
  | cons a _ ih =>
    rw [List.mapM_cons] at hbs
    obtain ⟨b, hb, hbs⟩ := ok_of_bind hbs
    obtain ⟨rest, hrest, hbs⟩ := ok_of_bind hbs
    obtain rfl := Except.ok.inj hbs
    obtain ⟨rest', hrest', hperm⟩ := ih hrest
    refine ⟨b :: rest', ?_, hperm.cons b⟩
    rw [List.mapM_cons, hb, hrest']
    rfl
  | swap a a' as =>
    rw [List.mapM_cons, List.mapM_cons] at hbs
    obtain ⟨b', hb', hbs⟩ := ok_of_bind hbs
    obtain ⟨_, hlater, hbs⟩ := ok_of_bind hbs
    obtain ⟨b, hb, hlater⟩ := ok_of_bind hlater
    obtain ⟨rest, hrest, hlater⟩ := ok_of_bind hlater
    obtain rfl := Except.ok.inj hlater
    obtain rfl := Except.ok.inj hbs
    refine ⟨b :: b' :: rest, ?_, .swap b b' rest⟩
    rw [List.mapM_cons, List.mapM_cons, hb, hb', hrest]
    rfl
  | trans _ _ ih ih' =>
    obtain ⟨cs, hcs, hperm⟩ := ih hbs
    obtain ⟨ds, hds, hperm'⟩ := ih' hcs
    exact ⟨ds, hds, hperm.trans hperm'⟩

theorem exists_of_mapM {α β ε : Type} {f : α → Except ε β} {as : List α} {bs : List β} (h : as.mapM f = .ok bs) :
    ∀ b ∈ bs, ∃ a ∈ as, f a = .ok b := by
  induction as generalizing bs with
  | nil =>
    obtain rfl : [] = bs := Except.ok.inj h
    simp
  | cons a as ih =>
    rw [List.mapM_cons] at h
    obtain ⟨b, hb, h⟩ := ok_of_bind h
    obtain ⟨rest, hrest, h⟩ := ok_of_bind h
    obtain rfl := Except.ok.inj h
    rintro c hc
    obtain rfl | hc := List.mem_cons.mp hc
    · exact ⟨a, List.mem_cons_self, hb⟩
    · obtain ⟨x, hx, hfx⟩ := ih hrest c hc
      exact ⟨x, List.mem_cons_of_mem a hx, hfx⟩

namespace TypingScope

variable {n : Nat} {s s' : TypingScope n} {held : VariableKinds}

/-- Two scopes in which a block means the same. -/
structure Alike (s s' : TypingScope n) : Prop where
  kind : ∀ i, (s'.diagram.block i).kind? = (s.diagram.block i).kind?
  field : ∀ i, (s'.diagram.block i).fieldD = (s.diagram.block i).fieldD
  child : ∀ i, (s'.diagram.block i).child? = (s.diagram.block i).child?
  procedure : ∀ v, s'.procedures.find v = s.procedures.find v

theorem Alike.kindOf (h : Alike s s') (depth : Nat) (o : Option (Fin n)) :
    s'.kindOf held depth o = s.kindOf held depth o := by
  induction depth generalizing o with
  | zero => cases o <;> rfl
  | succ depth ih =>
    cases o with
    | none => rfl
    | some i => simp only [TypingScope.kindOf, h.kind, h.field, h.child, h.procedure, ih]

theorem Alike.assignedKind (h : Alike s s') (i : Fin n) : s'.assignedKind held i = s.assignedKind held i := by
  simp only [TypingScope.assignedKind, valueKind, h.kind, h.child, h.kindOf]

end TypingScope

namespace Workspace

open TypingScope

variable {n : Nat} {w w' : Workspace n}

/-- The same top blocks at other places. -/
structure Moved (w w' : Workspace n) : Prop where
  blocks : ∀ i, w'.block i = { w.block i with x := (w'.block i).x, y := (w'.block i).y }
  tops : w'.tops.Perm w.tops

namespace Moved

theorem kind? (h : w.Moved w') (i : Fin n) : (w'.block i).kind? = (w.block i).kind? := by
  rw [h.blocks]
  rfl

theorem fieldD (h : w.Moved w') (i : Fin n) : (w'.block i).fieldD = (w.block i).fieldD := by
  rw [h.blocks]
  rfl

theorem child? (h : w.Moved w') (i : Fin n) : (w'.block i).child? = (w.block i).child? := by
  rw [h.blocks]
  rfl

theorem namedVariable? (h : w.Moved w') (i : Fin n) : (w'.block i).namedVariable? = (w.block i).namedVariable? := by
  rw [h.blocks]
  rfl

theorem variableNames (h : w.Moved w') (i : Fin n) : (w'.block i).variableNames = (w.block i).variableNames := by
  rw [h.blocks]
  rfl

theorem childrenOf (h : w.Moved w') (i : Fin n) : w'.diagram.childrenOf i = w.diagram.childrenOf i := by
  change (w'.block i).children.map _ = (w.block i).children.map _
  rw [h.blocks]
  rfl

theorem descendants (h : w.Moved w') (i : Fin n) : w'.diagram.descendants i = w.diagram.descendants i := by
  have hvisit : ∀ count seen stack, w'.diagram.visit count seen stack = w.diagram.visit count seen stack := by
    intro count
    induction count with
    | zero => exact fun _ _ => rfl
    | succ count ih =>
      intro seen stack
      simp only [Diagram.visit, ih, h.childrenOf]
  exact hvisit n [] [i]

theorem orderedTops (h : w.Moved w') : w'.orderedTops.Perm w.orderedTops :=
  (runSort_perm _ _).trans (h.tops.trans (runSort_perm _ _).symm)

theorem allBlocks (h : w.Moved w') : w'.allBlocks.Perm w.allBlocks := by
  unfold Workspace.allBlocks
  rw [show w'.diagram.descendants = w.diagram.descendants from funext h.descendants]
  exact h.orderedTops.flatMap_right _

theorem assignmentsTo (h : w.Moved w') (v : Value) : (w'.assignmentsTo v).Perm (w.assignmentsTo v) := by
  unfold Workspace.assignmentsTo
  simp only [h.kind?, h.namedVariable?]
  exact h.allBlocks.filter _

theorem assignedValues (h : w.Moved w') (i : Fin n) : w'.assignedValues i = w.assignedValues i := by
  unfold Workspace.assignedValues
  simp only [h.kind?, h.child?, show w'.diagram.descendants = w.diagram.descendants from funext h.descendants]

theorem readVariable? (h : w.Moved w') (i : Fin n) : w'.readVariable? i = w.readVariable? i := by
  unfold Workspace.readVariable?
  rw [h.kind?, h.namedVariable?]

theorem assignedFrom (h : w.Moved w') : w'.AssignedFrom = w.AssignedFrom := by
  funext u v
  unfold Workspace.AssignedFrom
  simp only [(h.assignmentsTo v).mem_iff, h.assignedValues, h.readVariable?]

theorem definedName (h : w.Moved w') (i : Fin n) : w'.definedName i = w.definedName i := by
  unfold Workspace.definedName
  rw [h.fieldD]

theorem definitions (h : w.Moved w') : w'.definitions.Perm w.definitions := by
  unfold Workspace.definitions
  have hsame : ∀ i, isProcedure (w'.block i) = isProcedure (w.block i) := by
    intro i
    unfold isProcedure
    rw [h.kind?]
  simp only [hsame]
  exact h.orderedTops.filter _

end Moved

theorem mem_addNew {old new : List Value} {v : Value} (h : v ∈ addNew old new) : v ∈ old ∨ v ∈ new := by
  induction new generalizing old with
  | nil => exact Or.inl h
  | cons u new ih =>
    have hstep : addNew old (u :: new) = addNew (if old.contains u then old else old ++ [u]) new := rfl
    rw [hstep] at h
    obtain h | h := ih h
    · split at h
      · exact Or.inl h
      · rw [List.mem_append, List.mem_singleton] at h
        exact h.imp_right fun heq => by simp [heq]
    · exact Or.inr (List.mem_cons_of_mem u h)

theorem mem_allVariables {names : List Value} (h : w.allVariables = .ok names) {v : Value} (hv : v ∈ names) :
    ∃ i ∈ w.allBlocks, ∃ new, (w.block i).variableNames = .ok new ∧ v ∈ new := by
  refine foldlM_keeps (c := names)
    (P := fun names => ∀ v ∈ names, ∃ i ∈ w.allBlocks, ∃ new, (w.block i).variableNames = .ok new ∧ v ∈ new)
    (fun i hi old next hold hnext v hv => ?_) (by simp) h v hv
  obtain ⟨new, hnew, hnext⟩ := ok_of_bind hnext
  obtain rfl : addNew old new = next := Except.ok.inj hnext
  obtain hv | hv := mem_addNew hv
  · exact hold v hv
  · exact ⟨i, hi, new, hnew, hv⟩

namespace Moved

variable {names : List Value}

theorem allVariables (h : w.Moved w') (hnames : w.allVariables = .ok names) (htexts : ∀ v ∈ names, v.IsText) :
    ∃ names', w'.allVariables = .ok names' ∧ ∀ v, v ∈ names' ↔ v ∈ names := by
  have htotal : ∃ names', w'.allVariables = .ok names' := by
    apply foldlM_total
    intro i hi old
    obtain ⟨new, hnew, -⟩ := allVariables_covers_named hnames (h.allBlocks.mem_iff.mp hi)
    rw [h.variableNames, hnew]
    exact ⟨_, rfl⟩
  obtain ⟨names', hnames'⟩ := htotal
  have hsubset : ∀ v ∈ names', v ∈ names := by
    intro v hv
    obtain ⟨i, hi, new, hnew, hv⟩ := mem_allVariables hnames' hv
    obtain ⟨new', hnew', hcover⟩ := allVariables_covers_named hnames (h.allBlocks.mem_iff.mp hi)
    rw [h.variableNames, hnew'] at hnew
    obtain rfl := Except.ok.inj hnew
    obtain ⟨u, hu, huv⟩ := hcover v hv
    rwa [← ((htexts u hu).beq_iff v).mp huv]
  refine ⟨names', hnames', fun v => ⟨hsubset v, fun hv => ?_⟩⟩
  obtain ⟨i, hi, new, hnew, hv⟩ := mem_allVariables hnames hv
  obtain ⟨new', hnew', hcover⟩ := allVariables_covers_named hnames' (h.allBlocks.mem_iff.mpr hi)
  rw [h.variableNames, hnew] at hnew'
  obtain rfl := Except.ok.inj hnew'
  obtain ⟨u, hu, huv⟩ := hcover v hv
  rwa [← ((htexts u (hsubset u hu)).beq_iff v).mp huv]

end Moved

/-- No two definitions are of the same procedure. -/
def DefinesOnce (w : Workspace n) : Prop :=
  ∀ i ∈ w.definitions, ∀ j ∈ w.definitions, (w.definedName i == w.definedName j) = true → i = j

variable {p : Procedures n}

theorem Moved.procedures (h : w.Moved w') (honce : w.DefinesOnce) (hp : w.procedures = .ok p) :
    ∃ p', w'.procedures = .ok p' ∧ Alike (p.scope w) (p'.scope w') := by
  have hkeys : ∀ i ∈ w'.definitions, (w'.definedName i).isKey = true := by
    intro i hi
    rw [h.definedName]
    exact definedName_isKey hp (h.definitions.mem_iff.mp hi)
  obtain ⟨p', hp'⟩ := procedures_total hkeys
  refine ⟨p', hp', h.kind?, h.fieldD, h.child?, fun v => ?_⟩
  have hget : p'.definitions.get? v = p.definitions.get? v := by
    rw [procedures_get? hp, procedures_get? hp']
    simp only [h.definedName]
    refine (find?_perm_of_unique h.definitions.symm fun i hi j hj hiv hjv => ?_).symm
    exact honce i hi j hj (BEq.trans hiv (BEq.symm hjv))
  show p'.definitions.find v = p.definitions.find v
  unfold Ledger.find
  rw [hget]

theorem assignments_total {names : List Value} (hnames : w.allVariables = .ok names) (htexts : ∀ v ∈ names, v.IsText) :
    ∃ a, w.assignments = .ok a := by
  apply foldlM_total
  intro i hi found
  dsimp only
  split
  · split
    · rename_i v hv
      rw [if_pos (htexts v (mem_names_of_named hnames htexts hi hv)).isKey]
      exact ⟨_, rfl⟩
    · exact ⟨_, rfl⟩
  · exact ⟨_, rfl⟩

/-- What is inferred at one place is inferred at any other. -/
theorem Moved.infer (h : w.Moved w') (honce : w.DefinesOnce)
    (htexts : ∀ names, w.allVariables = .ok names → ∀ v ∈ names, v.IsText)
    (hacyclic : ∀ v, ¬ TransGen w.AssignedFrom v v) {typed : Typed n} (hinfer : w.infer = .ok typed) :
    ∃ typed', w'.infer = .ok typed' := by
  obtain ⟨p, a, names, order, start, found, hp, hs, -⟩ := infer_swept hinfer htexts hacyclic
  obtain ⟨p', hp', halike⟩ := h.procedures honce hp
  obtain ⟨names', hnames', hsame⟩ := h.allVariables hs.used hs.texts
  have htexts' : ∀ v ∈ names', v.IsText := fun v hv => hs.texts v ((hsame v).mp hv)
  obtain ⟨a', ha'⟩ := assignments_total hnames' htexts'
  obtain ⟨order', hperm', -, heq⟩ := infer_eq hp' ha' hnames' htexts' (by rwa [h.assignedFrom])
  have hkinds : ∀ v ∈ order', ∀ i ∈ (a'.get? v).getD [], ∀ held, ∃ k, (p'.scope w').assignedKind held i = .ok k := by
    intro v hv i hi held
    rw [assignments_get? ha', (h.assignmentsTo v).mem_iff] at hi
    obtain ⟨_, hturn⟩ := hs.exists_turn ((hsame v).mp (hperm'.mem_iff.mp hv))
    obtain ⟨_, hkinds, -⟩ := hs.combined hturn
    obtain ⟨k, hk⟩ := ok_of_mapM hkinds i hi
    rw [halike.assignedKind]
    exact assignedKind_isOk hk held
  obtain ⟨found', hfound'⟩ := sweep_total (fun v hv => (htexts' v (hperm'.mem_iff.mp hv)).isKey) hkinds
    { log := p'.log ++ [] }
  rw [heq, hfound']
  exact ⟨_, rfl⟩

/-- The kind of a variable is taken from that of another one that is assigned, if only through a call. -/
def TypedFrom (w : Workspace n) (s : TypingScope n) (u v : Value) : Prop :=
  u ≠ v ∧ w.assignmentsTo u ≠ [] ∧ ∃ i ∈ w.assignmentsTo v, s.AssignsFrom i u

/-- All that the kind of a variable is taken from shows in the values that are assigned. -/
def Foreseen (w : Workspace n) (s : TypingScope n) (v : Value) : Prop :=
  ∀ u, ReflTransGen (w.TypedFrom s) u v → ∀ t, w.TypedFrom s t u → TransGen w.AssignedFrom t u

theorem Foreseen.of_typedFrom {s : TypingScope n} {u v : Value} (h : w.Foreseen s v) (huv : w.TypedFrom s u v) :
    w.Foreseen s u :=
  fun t htu => h t (htu.tail huv)

section Kinds

variable {p' : Procedures n} {a a' : Ledger Value (List (Fin n))} {names names' order order' : List Value}
  {start start' found found' : Inference}

theorem Swept.goes_together (h : w.Swept p a names order start found) (hfit : ∀ id, ¬ found.Blames id) {v : Value}
    {held : VariableKinds} (hturn : Turn (p.scope w) a order start v held) {kinds : List ValueKind}
    (hkinds : (w.assignmentsTo v).mapM ((p.scope w).assignedKind held) = .ok kinds)
    (hfound : kindHeld found.kinds v = ValueKind.combined kinds) : ∀ k ∈ kinds, ¬ Clashes (ValueKind.combined kinds) k := by
  intro k hk hclash
  obtain ⟨i, hi, hki⟩ := exists_of_mapM hkinds k hk
  exact hfit (w.block i).id ((h.blames _).mpr ⟨v, held, hturn, i, hi, rfl, k, hki, hfound ▸ hclash⟩)

/-- A variable has the same kind at both places if all that it is taken from has. -/
theorem Swept.same_kind (hs : w.Swept p a names order start found) (hs' : w'.Swept p' a' names' order' start' found')
    (h : w.Moved w') (halike : Alike (p.scope w) (p'.scope w')) (hsame : ∀ v, v ∈ names' ↔ v ∈ names)
    (hfit : ∀ id, ¬ found.Blames id) {v : Value} (hv : v ∈ names)
    (hsources : ∀ u, w.TypedFrom (p.scope w) u v → TransGen w.AssignedFrom u v ∧
      kindHeld found'.kinds u = kindHeld found.kinds u) :
    kindHeld found'.kinds v = kindHeld found.kinds v := by
  obtain ⟨held, hturn⟩ := hs.exists_turn hv
  obtain ⟨held', hturn'⟩ := hs'.exists_turn ((hsame v).mpr hv)
  obtain ⟨hknown, hself, hany⟩ := hs.known hturn
  obtain ⟨hknown', hself', hany'⟩ := hs'.known hturn'
  rw [h.assignedFrom] at hknown'
  have hread : ∀ i ∈ w.assignmentsTo v, ∀ u, (p.scope w).AssignsFrom i u → kindHeld held u = kindHeld held' u := by
    intro i hi u hu
    by_cases huv : u = v
    · rw [huv, hself, hself']
    · by_cases hassigned : w.assignmentsTo u = []
      · -- a variable that is never assigned is unknown at any time
        have hassigned' : w'.assignmentsTo u = [] := List.Perm.eq_nil (hassigned ▸ h.assignmentsTo u)
        have hnone := hany u
        have hnone' := hany' u
        rw [hs.kindHeld_of_unassigned hassigned, or_self] at hnone
        rw [hs'.kindHeld_of_unassigned hassigned', or_self] at hnone'
        rw [hnone, hnone']
      · obtain ⟨hseen, hkind⟩ := hsources u ⟨huv, hassigned, i, hi, hu⟩
        rw [hknown u hseen, hknown' u hseen, hkind]
  obtain ⟨kinds, hkinds, hfound⟩ := hs.combined hturn
  obtain ⟨kinds', hkinds', hfound'⟩ := hs'.combined hturn'
  have hmoved : (w.assignmentsTo v).mapM ((p'.scope w').assignedKind held') = .ok kinds := by
    obtain ⟨others, hothers, heq⟩ := mapM_respects (R := Eq) (g := (p'.scope w').assignedKind held')
      (fun i hi k hk => ⟨k, by rw [halike.assignedKind]; exact assignedKind_congr (hread i hi) hk, rfl⟩) hkinds
    rw [List.forall₂_eq_eq_eq] at heq
    rwa [heq]
  obtain ⟨others, hothers, hperm⟩ := mapM_perm (h.assignmentsTo v).symm hmoved
  obtain rfl := Except.ok.inj (hothers.symm.trans hkinds')
  rw [hfound, hfound', combined_perm hperm (hs.goes_together hfit hturn hkinds hfound)]

theorem Swept.same_kinds (hs : w.Swept p a names order start found) (hs' : w'.Swept p' a' names' order' start' found')
    (h : w.Moved w') (halike : Alike (p.scope w) (p'.scope w')) (hsame : ∀ v, v ∈ names' ↔ v ∈ names)
    (hfit : ∀ id, ¬ found.Blames id) {before after : List Value} {v : Value} (hsplit : order = before ++ v :: after)
    (hforeseen : w.Foreseen (p.scope w) v) : kindHeld found'.kinds v = kindHeld found.kinds v := by
  induction hlength : before.length using Nat.strongRecOn generalizing before v after with
  | _ length ih =>
    refine hs.same_kind hs' h halike hsame hfit (hs.perm.mem_iff.mp (by simp [hsplit])) fun u hu => ?_
    have hseen := hforeseen v .refl u hu
    obtain ⟨first, second, rfl⟩ := List.append_of_mem (hs.before_of_assignedFrom hseen before after hsplit)
    have hearlier : order = first ++ u :: (second ++ v :: after) := by
      rw [hsplit, List.append_assoc, List.cons_append]
    refine ⟨hseen, ih first.length ?_ hearlier (hforeseen.of_typedFrom hu) rfl⟩
    rw [← hlength, List.length_append, List.length_cons]
    omega

end Kinds

/-- Moving the top blocks changes no kind of a variable, if all that the kind is taken from shows in the values that are
assigned. -/
theorem infer_moved (hmoved : w.Moved w') (htexts : ∀ names, w.allVariables = .ok names → ∀ v ∈ names, v.IsText)
    (honce : w.DefinesOnce) (hacyclic : ∀ v, ¬ TransGen w.AssignedFrom v v) {typed : Typed n}
    (hinfer : w.infer = .ok typed) (hfit : ∀ id, ¬ typed.found.Blames id) :
    ∃ typed', w'.infer = .ok typed' ∧ (∀ v, v ∈ typed'.found.kinds.keys ↔ v ∈ typed.found.kinds.keys) ∧
      ∀ v, w.Foreseen typed.scope v → kindHeld typed'.found.kinds v = kindHeld typed.found.kinds v := by
  obtain ⟨typed', hinfer'⟩ := hmoved.infer honce htexts hacyclic hinfer
  have hnames := infer_variables hinfer
  have hnames' := infer_variables hinfer'
  obtain ⟨_, hvariables, hsame⟩ := hmoved.allVariables hnames (htexts _ hnames)
  obtain rfl := Except.ok.inj (hvariables.symm.trans hnames')
  refine ⟨typed', hinfer', hsame, fun v hforeseen => ?_⟩
  obtain ⟨p, a, names, order, start, found, hp, hs, rfl⟩ := infer_swept hinfer htexts hacyclic
  have htexts' : ∀ names, w'.allVariables = .ok names → ∀ v ∈ names, v.IsText := by
    intro names' h v hv
    obtain rfl := Except.ok.inj (h.symm.trans hnames')
    exact htexts _ hnames v ((hsame v).mp hv)
  obtain ⟨p', a', names', order', start', found', hp', hs', rfl⟩ :=
    infer_swept hinfer' htexts' (by rwa [hmoved.assignedFrom])
  obtain ⟨_, hprocedures, halike⟩ := hmoved.procedures honce hp
  obtain rfl := Except.ok.inj (hprocedures.symm.trans hp')
  have hsame : ∀ v, v ∈ names' ↔ v ∈ names := by simpa [Ledger.keys, Function.comp_def] using hsame
  rw [hs.kindHeld_names, hs'.kindHeld_names]
  by_cases hv : v ∈ names
  · obtain ⟨before, after, hsplit⟩ := List.append_of_mem (hs.perm.mem_iff.mpr hv)
    exact hs.same_kinds hs' hmoved halike hsame hfit hsplit hforeseen
  · rw [hs.kindHeld_of_unused hv, hs'.kindHeld_of_unused fun hmem => hv ((hsame v).mp hmem)]

end Workspace

/-- A variable that is set to a call of a function and to another variable, which the function returns. -/
def callAndCount (call count : Int) : Diagram 8 where
  blocks := #v[
    { type := "variables_set", id := "x1", fields := [("VAR", .text "x")], slots := [⟨"VALUE", .value, some 1⟩],
      y := .whole call },
    { type := "procedures_callreturn", id := "call", fields := [("NAME", .text "f")], hasOutput := true },
    { type := "variables_set", id := "y1", fields := [("VAR", .text "y")], slots := [⟨"VALUE", .value, some 3⟩],
      y := .whole count },
    { type := "math_number", id := "one", fields := [("NUM", .int 1)], hasOutput := true },
    { type := "procedures_defreturn", id := "f", fields := [("NAME", .text "f")], slots := [⟨"RETURN", .value, some 5⟩],
      y := .whole 2 },
    { type := "variables_get", id := "y2", fields := [("VAR", .text "y")], hasOutput := true },
    { type := "variables_set", id := "x2", fields := [("VAR", .text "x")], slots := [⟨"VALUE", .value, some 7⟩],
      y := .whole 3 },
    { type := "variables_get", id := "y3", fields := [("VAR", .text "y")], hasOutput := true }]

theorem callAndCount_moved (tops : List (Fin 8)) :
    (⟨callAndCount 0 1, tops⟩ : Workspace 8).Moved ⟨callAndCount 1 0, tops⟩ where
  blocks i := by fin_cases i <;> rfl
  tops := .refl _

theorem callAndCount_source {i : Fin 8} {u : Value} (hkind : ((callAndCount 0 1).block i).kind? = some .variableGet)
    (hfield : ((callAndCount 0 1).block i).fieldD Block.variableField .null = u) : u = .text "y" := by
  have hall : ∀ i, ((callAndCount 0 1).block i).kind? = some .variableGet →
      (Value.text "y" == ((callAndCount 0 1).block i).fieldD Block.variableField .null) = true := by decide +kernel
  have hbeq := hall i hkind
  rw [hfield] at hbeq
  exact ((Value.IsText.beq_iff ⟨"y", rfl⟩ u).mp hbeq).symm

theorem callAndCount_typedFrom {tops : List (Fin 8)} {s : TypingScope 8} (hs : s.diagram = callAndCount 0 1) {u v : Value}
    (h : Workspace.TypedFrom ⟨callAndCount 0 1, tops⟩ s u v) : u = .text "y" ∧ v ≠ .text "y" := by
  obtain ⟨hne, -, i, -, j, -, k, -, hkind, hfield⟩ := h
  rw [hs] at hkind hfield
  have hu := callAndCount_source hkind hfield
  exact ⟨hu, fun hv => hne (hu.trans hv.symm)⟩

theorem callAndCount_assignedFrom {tops : List (Fin 8)} {u v : Value}
    (h : Workspace.AssignedFrom ⟨callAndCount 0 1, tops⟩ u v) : u = .text "y" ∧ v ≠ .text "y" := by
  obtain ⟨hne, i, -, j, -, hread⟩ := h
  unfold Workspace.readVariable? at hread
  split at hread
  · rename_i hkind
    have hfield : ((callAndCount 0 1).block j).field? Block.variableField = some u :=
      (Option.filter_eq_some_iff.mp hread).1
    have hu := callAndCount_source hkind (by rw [Block.fieldD, hfield, Option.getD_some])
    exact ⟨hu, fun hv => hne (hu.trans hv.symm)⟩
  · cases hread

/-- Both variables are assigned where they can be seen. -/
def seenCount (call count : Int) : Workspace 8 :=
  ⟨callAndCount call count, [0, 2, 4, 6]⟩

theorem seenCount_assigned {i : Fin 8} {v : Value} (hi : i ∈ (seenCount 0 1).assignmentsTo v) (hv : v ≠ .text "y") :
    v = .text "x" := by
  have hall : ∀ i, ∀ v ∈ ((seenCount 0 1).block i).namedVariable?,
      (Value.text "x" == v) = true ∨ (Value.text "y" == v) = true := by decide +kernel
  obtain ⟨u, hu, huv⟩ := (Option.any_eq_true _ _).mp (Bool.and_eq_true_iff.mp (List.mem_filter.mp hi).2).2
  obtain hx | hy := hall i u hu
  · exact ((Value.IsText.beq_iff ⟨"x", rfl⟩ v).mp (BEq.trans hx huv)).symm
  · exact absurd ((Value.IsText.beq_iff ⟨"y", rfl⟩ v).mp (BEq.trans hy huv)).symm hv

theorem seenCount_foreseen {s : TypingScope 8} (hs : s.diagram = callAndCount 0 1) (v : Value) :
    (seenCount 0 1).Foreseen s v := by
  intro u _ t htu
  obtain ⟨rfl, hu⟩ := callAndCount_typedFrom hs htu
  obtain ⟨-, -, i, hi, -⟩ := htu
  obtain rfl := seenCount_assigned hi hu
  exact .single ⟨hu.symm, 6, by decide +kernel, 7, by decide +kernel, rfl⟩

theorem seenCount_same_kinds :
    (seenCount 0 1).Moved (seenCount 1 0) ∧
    (∀ names, (seenCount 0 1).allVariables = .ok names → ∀ v ∈ names, v.IsText) ∧
    (seenCount 0 1).DefinesOnce ∧ (∀ v, ¬ TransGen (seenCount 0 1).AssignedFrom v v) ∧
    ∃ typed typed', (seenCount 0 1).infer = .ok typed ∧ (∀ id, ¬ typed.found.Blames id) ∧
      (seenCount 1 0).infer = .ok typed' ∧ ∀ v, TypingScope.kindHeld typed'.found.kinds v =
        TypingScope.kindHeld typed.found.kinds v := by
  have htexts : ∀ names, (seenCount 0 1).allVariables = .ok names → ∀ v ∈ names, v.IsText := by
    have hall : ∀ names ∈ (seenCount 0 1).allVariables.toOption, ∀ v ∈ names, v.IsText := by decide +kernel
    exact fun names hnames => hall names (by rw [hnames]; rfl)
  have honce : (seenCount 0 1).DefinesOnce := by
    unfold Workspace.DefinesOnce
    decide +kernel
  have hacyclic : ∀ v, ¬ TransGen (seenCount 0 1).AssignedFrom v v :=
    not_transGen_of_source fun _ _ => callAndCount_assignedFrom
  have hevents : (seenCount 0 1).infer.toOption.map (·.found.events) =
      some [⟨"y1", typeTag, none⟩, ⟨"x1", typeTag, none⟩, ⟨"x2", typeTag, none⟩] := by decide +kernel
  refine ⟨callAndCount_moved _, htexts, honce, hacyclic, ?_⟩
  cases hinfer : (seenCount 0 1).infer with
  | error f =>
    rw [hinfer] at hevents
    cases hevents
  | ok typed =>
    rw [hinfer] at hevents
    have hfit : ∀ id, ¬ typed.found.Blames id := by
      have heq : typed.found.events = _ := Option.some.inj hevents
      simp [Inference.Blames, heq]
    obtain ⟨typed', hinfer', -, hkinds⟩ :=
      Workspace.infer_moved (callAndCount_moved _) htexts honce hacyclic hinfer hfit
    obtain ⟨p, _, _, _, _, _, -, -, rfl⟩ := Workspace.infer_swept hinfer htexts hacyclic
    exact ⟨_, typed', rfl, hfit, hinfer', fun v => hkinds v (seenCount_foreseen rfl v)⟩

/-- One variable is set to a call of a function that returns the other one. -/
def hiddenCount (call count : Int) : Workspace 8 :=
  ⟨callAndCount call count, [0, 2, 4]⟩

theorem hiddenCount_kinds_differ :
    (hiddenCount 0 1).Moved (hiddenCount 1 0) ∧
    (hiddenCount 0 1).validate.isOk = true ∧ (hiddenCount 1 0).validate.isOk = true ∧
    (∀ names, (hiddenCount 0 1).allVariables = .ok names → ∀ v ∈ names, v.IsText) ∧ (hiddenCount 0 1).DefinesOnce ∧
    ∃ typed typed', (hiddenCount 0 1).infer = .ok typed ∧ (hiddenCount 1 0).infer = .ok typed' ∧
      (∀ v, ¬ TransGen (fun u v => (hiddenCount 0 1).AssignedFrom u v ∨ (hiddenCount 0 1).TypedFrom typed.scope u v) v v) ∧
      (∀ id, ¬ typed.found.Blames id) ∧ TypingScope.kindHeld typed.found.kinds (.text "x") = .undefined ∧
      TypingScope.kindHeld typed'.found.kinds (.text "x") = .number := by
  have htexts : ∀ names, (hiddenCount 0 1).allVariables = .ok names → ∀ v ∈ names, v.IsText := by
    have hall : ∀ names ∈ (hiddenCount 0 1).allVariables.toOption, ∀ v ∈ names, v.IsText := by decide +kernel
    exact fun names hnames => hall names (by rw [hnames]; rfl)
  have honce : (hiddenCount 0 1).DefinesOnce := by
    unfold Workspace.DefinesOnce
    decide +kernel
  have hfirst : ((hiddenCount 0 1).infer.toOption.map fun typed =>
      (typed.found.events, TypingScope.kindHeld typed.found.kinds (.text "x"))) =
      some ([⟨"y1", typeTag, none⟩], .undefined) := by decide +kernel
  have hsecond : ((hiddenCount 1 0).infer.toOption.map fun typed =>
      TypingScope.kindHeld typed.found.kinds (.text "x")) = some .number := by decide +kernel
  refine ⟨callAndCount_moved _, by decide +kernel, by decide +kernel, htexts, honce, ?_⟩
  cases hinfer : (hiddenCount 0 1).infer with
  | error f =>
    rw [hinfer] at hfirst
    cases hfirst
  | ok typed =>
    cases hinfer' : (hiddenCount 1 0).infer with
    | error f =>
      rw [hinfer'] at hsecond
      cases hsecond
    | ok typed' =>
      rw [hinfer] at hfirst
      rw [hinfer'] at hsecond
      obtain ⟨hevents, hkind⟩ := Prod.mk.inj (Option.some.inj hfirst)
      obtain ⟨p, _, _, _, _, _, -, -, htyped⟩ := Workspace.infer_swept hinfer htexts
        (not_transGen_of_source fun _ _ => callAndCount_assignedFrom)
      refine ⟨typed, typed', rfl, rfl, ?_, ?_, hkind, Option.some.inj hsecond⟩
      · refine not_transGen_of_source (x := .text "y") fun u v huv => ?_
        obtain huv | huv := huv
        · exact callAndCount_assignedFrom huv
        · exact callAndCount_typedFrom (by rw [htyped]; rfl) huv
      · simp [Inference.Blames, hevents]

end BlockScript
