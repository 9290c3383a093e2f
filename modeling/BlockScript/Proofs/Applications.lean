import BlockScript.Program.Generation
import BlockScript.Proofs.Forests
import BlockScript.Proofs.Logging
import BlockScript.Proofs.Traversal

namespace BlockScript

open Relation

variable {n : Nat} {α β : Type}

/-- Says in the log that the rule of a block is applied. -/
def note (i : Fin n) : LogRecord :=
  .info (toString i.val)

namespace Job

/-- Writes out a block and what follows it, and notes every block whose rule is applied. -/
def notedWithin (job : Job n) : Nat → Option (Fin n) → Run Output
  | _, none => do
    Run.checkOpen
    return .nothing
  | 0, some _ => throw .endless
  | depth + 1, some i => do
    Run.checkOpen
    let s : Scene n := ⟨job, i, job.notedWithin depth⟩
    if s.block.disabled then job.notedWithin depth s.block.next
    else do
      Run.record (note i)
      s.output

def notedBody (job : Job n) (tops : List (Fin n)) : Run String := do
  return Text.tidyLineEnds (Text.joined ""
    (← tops.mapM fun i => do return (← job.notedWithin n (some i)).topLines))

end Job

namespace Run

/-- Two runs that do the same. The second one also notes blocks of the region, each at most once. -/
def Noted (region : Fin n → Prop) (r r' : Run α) : Prop :=
  ∀ s s' : Session, s.quiet = s'.quiet →
    (r.run s).1 = (r'.run s').1 ∧ (r.run s).2.quiet = (r'.run s').2.quiet ∧
      ∃ applied : List (Fin n), applied.Nodup ∧ (∀ k ∈ applied, region k) ∧
        (r'.run s').2.notes = s'.notes ++ applied.map note

namespace Noted

variable {A B : Fin n → Prop}

theorem of_logs {r : Run α} (h : r.Logs) : Noted A r r := by
  intro s s' hquiet
  obtain ⟨hresult, hsession, hnotes⟩ := h.alike hquiet
  exact ⟨hresult, hsession, [], .nil, by simp, by simpa using hnotes⟩

theorem mono {r r' : Run α} (h : Noted A r r') (hAB : ∀ k, A k → B k) : Noted B r r' := by
  intro s s' hquiet
  obtain ⟨hresult, hsession, applied, hnodup, hregion, hnotes⟩ := h s s' hquiet
  exact ⟨hresult, hsession, applied, hnodup, fun k hk => hAB k (hregion k hk), hnotes⟩

theorem bind {r r' : Run α} {next next' : α → Run β} (hr : Noted A r r')
    (hnext : ∀ s a t, r.run s = (.ok a, t) → Noted B (next a) (next' a)) (hAB : ∀ k, A k → ¬ B k) :
    Noted (fun k => A k ∨ B k) (r >>= next) (r' >>= next') := by
  intro s s' hquiet
  obtain ⟨hresult, hsession, applied, hnodup, hregion, hnotes⟩ := hr s s' hquiet
  rw [run_bind, run_bind]
  cases hrun : r.run s with
  | mk result t =>
    cases hrun' : r'.run s' with
    | mk result' t' =>
      rw [hrun, hrun'] at hresult hsession
      rw [hrun'] at hnotes
      dsimp only at hresult hsession hnotes
      subst hresult
      cases result with
      | error f => exact ⟨rfl, hsession, applied, hnodup, fun k hk => Or.inl (hregion k hk), hnotes⟩
      | ok a =>
        obtain ⟨hresult', hsession', more, hmore, hregion', hnotes'⟩ := hnext s a t hrun t t' hsession
        refine ⟨hresult', hsession', applied ++ more, hnodup.append hmore ?_, ?_, ?_⟩
        · intro k hk hk'
          exact hAB k (hregion k hk) (hregion' k hk')
        · intro k hk
          exact (List.mem_append.mp hk).imp (hregion k) (hregion' k)
        · rw [hnotes', hnotes, List.map_append, List.append_assoc]

theorem record {r r' : Run α} {i : Fin n} (h : Noted A r r') (hi : ¬ A i) :
    Noted (fun k => k = i ∨ A k) r (do Run.record (note i); r') := by
  intro s s' hquiet
  obtain ⟨hresult, hsession, applied, hnodup, hregion, hnotes⟩ :=
    h s (s'.record (note i)) (hquiet.trans (s'.quiet_record rfl).symm)
  rw [run_bind, run_record]
  refine ⟨hresult, hsession, i :: applied, ?_, ?_, ?_⟩
  · exact List.nodup_cons.mpr ⟨fun hmem => hi (hregion i hmem), hnodup⟩
  · intro k hk
    exact (List.mem_cons.mp hk).imp id (hregion k)
  · rw [hnotes, s'.notes_record rfl, List.map_cons, List.append_assoc]
    rfl

end Noted

end Run

/-- What the rule of a block notes lies below the places that it has written out. -/
theorem Scripted.noted {s : Scene n} {emit : Option (Fin n) → Run Output} {ps : List Place} {P : α → Prop}
    {r r' : Run α} (h : Scripted s emit ps P r r') {region : Place → Fin n → Prop}
    (hask : ∀ p, Run.Noted (region p) (s.emit (s.block.at? p)) (emit (s.block.at? p)))
    (hps : ps.Pairwise fun p q => ∀ k, region p k → ¬ region q k) :
    Run.Noted (fun k => ∃ p ∈ ps, region p k) r r' := by
  induction h with
  | pure a ha => exact .of_logs (.pure a)
  | throw f => exact .of_logs (.throw f)
  | deed d hd => exact .of_logs (d.logs hd)
  | ask p => exact (hask p).mono fun k hk => ⟨p, by simp, hk⟩
  | @bind α β ps qs P Q r r' next next' hr hnext ih ihnext =>
    obtain ⟨hps, hqs, hapart⟩ := List.pairwise_append.mp hps
    apply Run.Noted.mono ((ih hps).bind (fun s a t hrun => ihnext a (hr.result hrun) hqs) ?_)
    · rintro k (⟨p, hp, hk⟩ | ⟨q, hq, hk⟩)
      · exact ⟨p, List.mem_append_left _ hp, hk⟩
      · exact ⟨q, List.mem_append_right _ hq, hk⟩
    · rintro k ⟨p, hp, hk⟩ ⟨q, hq, hk'⟩
      exact hapart p hp q hq k hk hk'
  | weaken h hsub hP ih =>
    apply (ih (hps.sublist hsub)).mono
    rintro k ⟨p, hp, hk⟩
    exact ⟨p, hsub.subset hp, hk⟩

/-- Where no child stands at two places of a block, the places can be told apart by what stands there. -/
theorem Diagram.place_unique {d : Diagram n} {i j : Fin n} (h : (d.childrenOf i).Nodup) {p q : Place}
    (hp : (d.block i).at? p = some j) (hq : (d.block i).at? q = some j) : p = q := by
  have hchildren : d.childrenOf i = (d.block i).slots.filterMap (·.child) ++ (d.block i).next.toList := by
    simp [childrenOf, Block.children, List.map_filterMap, Function.comp_def]
  rw [hchildren] at h
  obtain ⟨hslots, -, hnext⟩ := List.nodup_append.mp h
  have hslot : ∀ {name}, (d.block i).child? name = some j →
      ∃ slot ∈ (d.block i).slots, slot.name = name ∧ slot.child = some j := by
    intro name hname
    obtain ⟨slot, hslot, hchild⟩ := Option.bind_eq_some_iff.mp hname
    exact ⟨slot, List.mem_of_find?_eq_some hslot, by simpa using List.find?_some hslot, hchild⟩
  have hmixed : ∀ {name}, (d.block i).child? name = some j → (d.block i).next ≠ some j := by
    intro name hname hj
    obtain ⟨slot, hmem, -, hchild⟩ := hslot hname
    exact hnext j (List.mem_filterMap.mpr ⟨slot, hmem, hchild⟩) j (by simp [hj]) rfl
  cases p with
  | next =>
    cases q with
    | next => rfl
    | slot name => exact absurd hp (hmixed hq)
  | slot name =>
    cases q with
    | next => exact absurd hq (hmixed hp)
    | slot name' =>
      obtain ⟨slot, hmem, rfl, hchild⟩ := hslot hp
      obtain ⟨slot', hmem', rfl, hchild'⟩ := hslot hq
      have hsymm : Std.Symm fun a b : Slot n => ∀ x, a.child = some x → ∀ y, b.child = some y → x ≠ y :=
        ⟨fun a b hab x hx y hy => (hab y hy x hx).symm⟩
      by_contra hne
      have hdifferent : slot ≠ slot' := by
        rintro rfl
        exact hne rfl
      exact (List.pairwise_filterMap.mp hslots).forall hmem hmem' hdifferent j hchild j hchild' rfl

namespace Workspace

variable {w : Workspace n}

/-- No block has a child at two places. -/
def PlacesApart (w : Workspace n) : Prop :=
  ∀ i, w.Reachable i → (w.diagram.childrenOf i).Nodup

/-- The blocks whose rules are applied when a block is written out. -/
def Applied (w : Workspace n) (o : Option (Fin n)) (k : Fin n) : Prop :=
  (∃ i ∈ o, ReflTransGen w.diagram.IsParent i k) ∧ (w.block k).disabled = false

theorem Branching.applied_disjoint (h : w.Branching) (hplaces : w.PlacesApart) {i : Fin n} (hi : w.Reachable i)
    {p q : Place} (hpq : p ≠ q) {k : Fin n} (hp : w.Applied ((w.block i).at? p) k) :
    ¬ w.Applied ((w.block i).at? q) k := by
  rintro ⟨⟨j', hj', hpath'⟩, -⟩
  obtain ⟨⟨j, hj, hpath⟩, -⟩ := hp
  obtain rfl := h.children_disjoint hi (Diagram.mem_childrenOf hj) (Diagram.mem_childrenOf hj') hpath hpath'
  exact hpq (Diagram.place_unique (hplaces i hi) hj hj')

theorem Branching.not_applied (h : w.Branching) {i : Fin n} (hi : w.Reachable i) (p : Place) :
    ¬ w.Applied ((w.block i).at? p) i := by
  rintro ⟨⟨j, hj, hpath⟩, -⟩
  exact h.acyclic hi (TransGen.head' (Diagram.mem_childrenOf hj) hpath)

theorem Applied.of_place {i k : Fin n} {p : Place} (h : w.Applied ((w.block i).at? p) k) : w.Applied (some i) k := by
  obtain ⟨⟨j, hj, hpath⟩, hk⟩ := h
  exact ⟨⟨i, rfl, .head (Diagram.mem_childrenOf hj) hpath⟩, hk⟩

end Workspace

namespace Run.Noted

variable {A : Fin n → Prop}

theorem checkOpen {r r' : Run α} (h : Noted A r r') : Noted A (do Run.checkOpen; r) (do Run.checkOpen; r') := by
  apply Noted.mono (Noted.bind (of_logs (A := fun _ => False) .checkOpen) (fun _ _ _ _ => h) (fun _ hk => hk.elim))
  exact fun k hk => hk.resolve_left id

theorem map {r r' : Run α} (h : Noted A r r') (f : α → β) : Noted A (do return f (← r)) (do return f (← r')) := by
  apply Noted.mono (Noted.bind h (fun _ a _ _ => of_logs (A := fun _ => False) (.pure (f a))) (fun _ _ hk => hk))
  exact fun k hk => hk.resolve_right id

theorem ite {c : Prop} [Decidable c] {q q' r r' : Run α} (hr : c → Noted A r r') (hq : ¬ c → Noted A q q') :
    Noted A (if c then r else q) (if c then r' else q') := by
  split
  · exact hr ‹_›
  · exact hq ‹_›

theorem mapM {f f' : α → Run β} {region : α → Fin n → Prop} {l : List α}
    (hf : ∀ a ∈ l, Noted (region a) (f a) (f' a)) (hl : l.Pairwise fun a b => ∀ k, region a k → ¬ region b k) :
    Noted (fun k => ∃ a ∈ l, region a k) (l.mapM f) (l.mapM f') := by
  induction l with
  | nil => exact of_logs (.pure [])
  | cons a l ih =>
    obtain ⟨ha, hl⟩ := List.pairwise_cons.mp hl
    rw [List.mapM_cons, List.mapM_cons]
    have hrest := ih (fun b hb => hf b (by simp [hb])) hl
    apply ((hf a (by simp)).bind (fun _ b _ _ => hrest.map (b :: ·)) ?_).mono
    · rintro k (hk | ⟨c, hc, hk⟩)
      · exact ⟨a, by simp, hk⟩
      · exact ⟨c, by simp [hc], hk⟩
    · rintro k hk ⟨c, hc, hk'⟩
      exact ha c hc k hk hk'

end Run.Noted

namespace Generator

variable {w : Workspace n}

theorem notedWithin_noted (g : Generator) (h : w.Branching) (hplaces : w.PlacesApart) (depth : Nat) {o : Option (Fin n)}
    (ho : ∀ i ∈ o, w.Reachable i) :
    Run.Noted (w.Applied o) ((g.job w).emitWithin depth o) ((g.job w).notedWithin depth o) := by
  induction depth generalizing o with
  | zero =>
    cases o with
    | none => exact .checkOpen (.of_logs (.pure _))
    | some i => exact .of_logs (.throw _)
  | succ depth ih =>
    cases o with
    | none => exact .checkOpen (.of_logs (.pure _))
    | some i =>
      have hi := ho i rfl
      have hask : ∀ p, Run.Noted (w.Applied ((w.block i).at? p)) ((g.job w).emitWithin depth ((w.block i).at? p))
          ((g.job w).notedWithin depth ((w.block i).at? p)) :=
        fun p => ih fun j hj => hi.child (Diagram.mem_childrenOf hj)
      apply Run.Noted.checkOpen
      refine .ite (fun _ => (hask .next).mono fun k hk => hk.of_place) fun hdisabled => ?_
      obtain ⟨ps, hps, hscript⟩ := Scene.output_scripted ⟨g.job w, i, (g.job w).emitWithin depth⟩
        ((g.job w).notedWithin depth)
      have hrule := hscript.noted hask (hps.imp fun hpq k => h.applied_disjoint hplaces hi hpq)
      apply (hrule.record (i := i) ?_).mono
      · rintro k (rfl | ⟨p, -, hk⟩)
        · exact ⟨⟨k, rfl, .refl⟩, Bool.eq_false_iff.mpr hdisabled⟩
        · exact hk.of_place
      · rintro ⟨p, -, hp⟩
        exact h.not_applied hi p hp

theorem notedBody_noted (g : Generator) (h : w.Branching) (htops : w.TopsApart) (hplaces : w.PlacesApart) :
    Run.Noted (fun k => w.Reachable k ∧ (w.block k).disabled = false) (g.body w)
      ((g.job w).notedBody w.orderedTops) := by
  have hmem : ∀ i, i ∈ w.orderedTops ↔ i ∈ w.tops := fun i => mem_runSort _ _ i
  have hnodup : w.orderedTops.Nodup := (runSort_perm _ _).nodup_iff.mpr htops.1
  have htop : ∀ i ∈ w.orderedTops, Run.Noted (w.Applied (some i)) ((g.job w).topLines i)
      (do return (← (g.job w).notedWithin n (some i)).topLines) := by
    intro i hi
    have hreach : ∀ j ∈ some i, w.Reachable j := by
      rintro j ⟨⟩
      exact ⟨i, (hmem i).mp hi, .refl⟩
    exact (g.notedWithin_noted h hplaces n hreach).map _
  have hpairs : w.orderedTops.Pairwise fun i j => ∀ k, w.Applied (some i) k → ¬ w.Applied (some j) k := by
    apply hnodup.pairwise_of_forall_ne
    rintro i hi j hj hne k ⟨⟨_, ⟨⟩, hik⟩, -⟩ ⟨⟨_, ⟨⟩, hjk⟩, -⟩
    exact hne (h.tops_disjoint htops ((hmem i).mp hi) ((hmem j).mp hj) hik hjk)
  apply ((Run.Noted.mapM htop hpairs).map _).mono
  rintro k ⟨i, hi, ⟨⟨_, ⟨⟩, hik⟩, hk⟩⟩
  exact ⟨⟨i, (hmem i).mp hi, hik⟩, hk⟩

/-- In a drawing that passes validation all blocks are listed, and each once exactly if the top blocks are different
ones to which nothing leads. Where moreover no block has a child at two places, writing the drawing out applies the rule
of an enabled block at most once. -/
theorem rules_applied_once (g : Generator) (hids : w.DistinctIds) {c : Connections n} (hvalid : w.validate = .ok c) :
    (∀ i, i ∈ w.allBlocks ↔ w.Reachable i) ∧ (w.allBlocks.Nodup ↔ w.TopsApart) ∧
    (w.TopsApart → w.PlacesApart → ∀ s : Session,
      ((g.body w).run s).1 = (((g.job w).notedBody w.orderedTops).run s).1 ∧
      ((g.body w).run s).2.quiet = (((g.job w).notedBody w.orderedTops).run s).2.quiet ∧
      ∃ applied : List (Fin n), applied.Nodup ∧
        (∀ k ∈ applied, w.Reachable k ∧ (w.block k).disabled = false) ∧
        (((g.job w).notedBody w.orderedTops).run s).2.notes = s.notes ++ applied.map note) := by
  have hbranching := Workspace.branching_of_validate hids hvalid
  refine ⟨fun i => Workspace.mem_allBlocks_iff, hbranching.allBlocks_nodup, fun htops hplaces s => ?_⟩
  exact g.notedBody_noted hbranching htops hplaces s s rfl

end Generator

/-- Two prints below each other, and a comparison of a number with what stands on the right. -/
def printsAndComparison (tops : List (Fin 6)) (right : Option (Fin 6)) : Workspace 6 where
  diagram := { blocks := #v[
    { type := "serial_print", id := "a", slots := [⟨"CONTENT", .value, some 1⟩], next := some 2 },
    { type := "text", id := "t", fields := [("TEXT", .text "one")], hasOutput := true },
    { type := "serial_print", id := "b", slots := [⟨"CONTENT", .value, some 3⟩] },
    { type := "text", id := "u", fields := [("TEXT", .text "two")], hasOutput := true },
    { type := "logic_compare", id := "c", slots := [⟨"A", .value, some 5⟩, ⟨"B", .value, right⟩],
      hasOutput := true },
    { type := "math_number", id := "n", fields := [("NUM", .int 5)], hasOutput := true }] : Diagram 6 }
  tops

theorem printsAndComparison_applied :
    (printsAndComparison [0, 4] none).DistinctIds ∧ (printsAndComparison [0, 4] none).TopsApart ∧
    (printsAndComparison [0, 4] none).PlacesApart ∧
    ∃ applied : List (Fin 6), applied.Nodup ∧
      (((({} : Generator).job (printsAndComparison [0, 4] none)).notedBody
        (printsAndComparison [0, 4] none).orderedTops).run {}).2.notes = applied.map note := by
  have htops : (printsAndComparison [0, 4] none).TopsApart := by
    have hchild : ∀ i j : Fin 6, j ∈ (printsAndComparison [0, 4] none).diagram.childrenOf i →
        j ∉ (printsAndComparison [0, 4] none).tops := by decide +kernel
    exact ⟨by decide, fun i j _ => hchild i j⟩
  have hplaces : (printsAndComparison [0, 4] none).PlacesApart := by
    have hnodup : ∀ i : Fin 6, ((printsAndComparison [0, 4] none).diagram.childrenOf i).Nodup := by decide +kernel
    exact fun i _ => hnodup i
  have hids : (printsAndComparison [0, 4] none).DistinctIds := by
    have hall : ∀ i j : Fin 6, ((printsAndComparison [0, 4] none).block i).id =
        ((printsAndComparison [0, 4] none).block j).id → i = j := by decide +kernel
    exact fun i j _ _ => hall i j
  refine ⟨hids, htops, hplaces, ?_⟩
  have hvalid : ((printsAndComparison [0, 4] none).validate.map fun _ => ()) = .ok () := by decide +kernel
  cases hc : (printsAndComparison [0, 4] none).validate with
  | error f =>
    rw [hc] at hvalid
    cases hvalid
  | ok c =>
    obtain ⟨-, -, happlied⟩ := Generator.rules_applied_once {} hids hc
    obtain ⟨-, -, applied, hnodup, -, hnotes⟩ := happlied htops hplaces {}
    exact ⟨applied, hnodup, hnotes⟩

/-- A block that is a top block and follows another one passes validation, and so does one at two places of another. -/
theorem printsAndComparison_repeated :
    (printsAndComparison [0, 2, 4] (some 5)).DistinctIds ∧
    ((printsAndComparison [0, 2, 4] (some 5)).validate.map fun _ => ()) = .ok () ∧
    (printsAndComparison [0, 2, 4] (some 5)).allBlocks = [0, 1, 2, 3, 2, 3, 4, 5] ∧
    (((({} : Generator).job (printsAndComparison [0, 2, 4] (some 5))).notedBody
      (printsAndComparison [0, 2, 4] (some 5)).orderedTops).run {}).2.notes =
        ([0, 1, 2, 3, 2, 3, 4, 5, 5] : List (Fin 6)).map note := by
  have hall : ∀ i j : Fin 6, ((printsAndComparison [0, 2, 4] (some 5)).block i).id =
      ((printsAndComparison [0, 2, 4] (some 5)).block j).id → i = j := by decide +kernel
  exact ⟨fun i j _ _ => hall i j, by decide +kernel, by decide +kernel, by decide +kernel⟩

end BlockScript
