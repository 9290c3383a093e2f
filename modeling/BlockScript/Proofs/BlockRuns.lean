import BlockScript.Proofs.StatementRules

namespace BlockScript

open Run

variable {n : Nat} {H : Prop}

namespace Scene

variable {s : Scene n} {operand : Session → Fin n → Option Expr}

theorem valueRule_ensures (hs : s.Sound H operand) {kind : BlockKind} (hk : s.block.kind? = some kind)
    (hv : kind.isValue = true) : Ensures H (s.standard kind) fun o =>
      ∃ code rank, o = .expression code rank ∧ (s.job.Says s.index → code ≠ "") := by
  refine ((standard_runs hs hv).and_gives fun u => standard_gives (hs.faithful u) hv).imp ?_
  rintro o ⟨htexted, u, hshown⟩
  obtain ⟨code, rank, rfl⟩ : ∃ code rank, o = .expression code rank := by
    unfold Shown at hshown
    split at hshown
    · obtain ⟨rank, rfl⟩ := hshown
      exact ⟨_, _, rfl⟩
    · obtain ⟨code, rank, rfl, -⟩ := hshown
      exact ⟨_, _, rfl⟩
  refine ⟨code, rank, rfl, ?_⟩
  rintro ⟨-, kind', hk', -, htold⟩
  cases hk.symm.trans hk'
  exact htexted htold

/-- What the rule of a statement leaves at its place. -/
def Rules (s : Scene n) (code : String) : Prop :=
  ∃ pieces, code = s.piecesText pieces ∧ s.job.Fits s.index (pieces.map Piece.shape) ∧ ∀ p ∈ pieces, s.Proper p

theorem Leaves.rules {kind : BlockKind} (hk : s.block.kind? = some kind) {o : Output} (h : s.Leaves kind o) :
    ∃ code, o = .statement code ∧ s.Rules code := by
  obtain ⟨pieces, rfl, hfits, hproper⟩ := h
  refine ⟨_, rfl, pieces, rfl, ?_, hproper⟩
  rw [Job.Fits, show (s.job.diagram.block s.index).kind? = some kind from hk]
  exact hfits

theorem rules_blank (h : s.job.Fits s.index []) : s.Rules "" :=
  ⟨[], rfl, h, by simp⟩

theorem statement_ensures (hs : s.Sound H operand) {kind : BlockKind} (hk : s.block.kind? = some kind)
    (hv : kind.isValue = false) (hp : Workspace.isProcedure s.block = false) :
    Ensures H (s.standard kind) fun o => ∃ code, o = .statement code ∧ s.Rules code := by
  have hleaves : ∀ {r : Run Output}, Ensures H r (s.Leaves kind) →
      Ensures H r fun o => ∃ code, o = .statement code ∧ s.Rules code := fun h => h.imp fun o ho => ho.rules hk
  have hblank : s.Fits kind [] → ∀ {r : Run Output}, Ensures H r (fun o => o = .blankLine) →
      Ensures H r fun o => ∃ code, o = .statement code ∧ s.Rules code := by
    intro hfits r h
    refine h.imp ?_
    rintro o rfl
    refine ⟨"", rfl, rules_blank ?_⟩
    rw [Job.Fits, show (s.job.diagram.block s.index).kind? = some kind from hk]
    exact hfits
  cases kind with
  | change => exact hleaves (change_ensures hs)
  | variableSet => exact hleaves (variableSet_ensures hs)
  | conditional alwaysElse => exact hleaves (conditional_ensures hs alwaysElse)
  | repetition => exact hleaves (repetition_ensures hs)
  | whileUntil => exact hleaves (whileUntil_ensures hs)
  | counting => exact hleaves (counting_ensures hs)
  | forEach => exact hleaves (forEach_ensures hs)
  | flow => exact hleaves flow_ensures
  | delayMillis => exact hleaves (delay_ensures hs (by rfl) (by decide))
  | delayMicros => exact hleaves (delay_ensures hs (by rfl) (by decide))
  | halt => exact hleaves (halt_ensures hs)
  | callLine => exact hleaves (callLine_ensures hs)
  | returnIf => exact hleaves (returnIf_ensures hs)
  | entry => exact hleaves (entry_ensures hs)
  | digitalWrite => exact hleaves (digitalWrite_ensures hs)
  | builtinLed => exact hleaves (builtinLed_ensures hs)
  | analogWrite => exact hleaves (analogWrite_ensures hs)
  | tone => exact hleaves (tone_ensures hs)
  | silence => exact hleaves (silence_ensures hs)
  | servoWrite => exact hleaves (servoWrite_ensures hs)
  | stepperMove => exact hleaves (stepperMove_ensures hs)
  | serialPrint => exact hleaves (serialPrint_ensures hs)
  | stepperSetup => exact hblank rfl (stepperSetup_ensures hs)
  | serialSetup => exact hblank rfl (serialSetup_ensures hs)
  | blankLine => exact hblank rfl (.pure rfl)
  | procedure returns =>
    rw [Workspace.isProcedure, hk] at hp
    cases hp
  | _ => cases hv

/-- What the rule of a block gives, if the block is enabled. -/
def Given (s : Scene n) (o : Output) : Prop :=
  (s.block.isValue = true ∧ ∃ code rank, o = .expression code rank ∧ (s.job.Says s.index → code ≠ "")) ∨
    (s.block.isValue = false ∧ Workspace.isProcedure s.block = true ∧ o = .nothing) ∨
    (s.block.isValue = false ∧ Workspace.isProcedure s.block = false ∧ ∃ code, o = .statement code ∧ s.Rules code)

theorem known_ensures (hs : s.Sound H operand) (hr : s.job.rules = {}) {kind : BlockKind}
    (hk : s.block.kind? = some kind) : Ensures H s.ruleOutput s.Given := by
  have hvalue : s.block.isValue = kind.isValue := by
    rw [Block.isValue, hk]
  rw [ruleOutput_eq hr, hk]
  cases hv : kind.isValue with
  | true => exact (valueRule_ensures hs hk hv).imp fun o ho => Or.inl ⟨hvalue.trans hv, ho⟩
  | false =>
    cases hp : Workspace.isProcedure s.block with
    | false => exact (statement_ensures hs hk hv hp).imp fun o ho => Or.inr (Or.inr ⟨hvalue.trans hv, hp, ho⟩)
    | true =>
      obtain ⟨returns, hreturns⟩ := Workspace.kind_of_isProcedure hp
      cases hk.symm.trans hreturns
      exact (procedure_ensures hs hp).imp fun o ho => Or.inr (Or.inl ⟨hvalue.trans hv, hp, ho⟩)

theorem unknown_ensures (hr : s.job.rules = {}) (hk : s.block.kind? = none) : Ensures H s.ruleOutput s.Given := by
  have hvalue : s.block.isValue = s.block.hasOutput := by
    rw [Block.isValue, hk]
  rw [ruleOutput_eq hr, hk]
  refine (record_ensures _).bind fun _ _ => .pure ?_
  cases ho : s.block.hasOutput with
  | true =>
    refine Or.inl ⟨hvalue.trans ho, _, _, rfl, ?_⟩
    rintro ⟨-, kind, hk', -⟩
    cases hk.symm.trans hk'
  | false =>
    refine Or.inr (Or.inr ⟨hvalue.trans ho, ?_, "", rfl, rules_blank ?_⟩)
    · rw [Workspace.isProcedure, hk]
    · rw [Job.Fits, show (s.job.diagram.block s.index).kind? = none from hk]

theorem output_ensures (hset : s.settings = {}) (he : s.block.disabled = false)
    (hn : Ensures H (s.emit s.block.next) (s.job.Shapes s.block.next)) (hrule : Ensures H s.ruleOutput s.Given) :
    Ensures H s.output (s.job.Shapes (some s.index)) := by
  have hnone : s.block.isValue = false → ∀ i, some s.index = some i → ¬ s.job.Expresses i := by
    rintro hv _ ⟨⟩ ⟨-, h⟩
    cases hv.symm.trans h
  refine hrule.bind fun o ho => ?_
  obtain ⟨hv, code, rank, rfl, htold⟩ | ⟨hv, hp, rfl⟩ | ⟨hv, hp, code, rfl, hrules⟩ := ho
  · refine (placed_ensures hn code).bind fun text htext => .pure ?_
    obtain ⟨rest, -, rfl⟩ := htext
    refine ⟨s.index, rfl, ⟨he, hv⟩, fun h => ?_⟩
    simp [String.append_eq_empty_iff, htold h]
  · exact .pure ⟨Job.chain_procedure he hp, hnone hv⟩
  · have hcode : (if code.isEmpty then code else s.statementMark ++ code) = code := by
      rw [statementMark, hset]
      simp [Settings.statementMark?]
    dsimp only
    rw [hcode]
    refine (placed_ensures hn code).bind fun text htext => .pure ⟨?_, hnone hv⟩
    obtain ⟨rest, hrest, rfl⟩ := htext
    obtain ⟨pieces, rfl, hfits, hproper⟩ := hrules
    exact Job.Chain.placed hset ⟨he, hp⟩ hv hfits (fun p hmem => ⟨(hproper p hmem).reads, (hproper p hmem).chain⟩) hrest

end Scene

/-- What a run ensures it also gives. -/
theorem Run.Ensures.gives {α : Type} {r : Run α} {P : α → Prop} (h : Ensures H r P) (hw : r.Within Session.Grows)
    (u : Session) : Gives u r P :=
  ⟨hw, fun hr hs _ => (h.holds hr hs).1⟩

theorem Job.emitWithin_none_ensures (job : Job n) (depth : Nat) :
    Ensures H (job.emitWithin depth none) (job.Shapes none) := by
  cases depth <;> exact checkOpen_ensures.bind fun _ _ => .pure ⟨chain_none, by simp⟩

theorem Job.treeWithin_of_not_value {job : Job n} {i : Fin n} (hv : (job.diagram.block i).isValue = false) (u : Session)
    (depth : Nat) : job.treeWithin u depth i = none := by
  cases depth with
  | zero => rfl
  | succ depth =>
    rw [treeWithin_succ]
    split
    · rfl
    · cases hk : (job.diagram.block i).kind? with
      | none => rfl
      | some kind =>
        rw [Block.isValue, hk] at hv
        cases kind <;> first | rfl | cases hv

/-- Blocks that are closed under children, written out by the standard rules. Their value blocks are plugged into value
slots and have no blocks behind them, and there are no line breaks in their fields. -/
structure Job.Ready (job : Job n) (R : Fin n → Prop) : Prop where
  settings : job.settings = {}
  rules : job.rules = {}
  closed : ∀ i, R i → ∀ j ∈ job.diagram.childrenOf i, R j
  inline : ∀ i, R i → ∀ slot ∈ (job.diagram.block i).slots, ∀ j, slot.child = some j →
    (job.diagram.block j).isValue = true → (job.diagram.block j).isInline = true
  following : ∀ i, R i → ∀ j, (job.diagram.block i).next = some j → (job.diagram.block j).isValue = false
  alone : ∀ i, R i → (job.diagram.block i).isValue = true → (job.diagram.block i).next = none
  fields : ∀ i, R i → ∀ f ∈ (job.diagram.block i).fields, OneLine f.2.toText

namespace Job

variable (job : Job n) (R : Fin n → Prop) (depth : Nat)

/-- The blocks are written out as chains; what they put elsewhere is filled if nothing in them is flawed. -/
def WritesChains : Prop :=
  ∀ (H : Prop) i, R i → (H → ¬ job.Flawed (some i)) → Ensures H (job.emitWithin depth (some i)) (job.Shapes (some i))

/-- The value blocks in value slots are written out as their operator trees. -/
def WritesTrees : Prop :=
  ∀ i, R i → ((job.diagram.block i).isValue = true → (job.diagram.block i).isInline = true) →
    ∀ u, Gives u (job.emitWithin depth (some i)) (Output.Shows (job.treeWithin u depth i))

end Job

namespace Job.Ready

variable {job : Job n} {R : Fin n → Prop} {depth : Nat} {i j : Fin n}

theorem child (hj : job.Ready R) (hi : R i) {name : String} (hc : (job.diagram.block i).child? name = some j) :
    R j ∧ ((job.diagram.block j).isValue = true → (job.diagram.block j).isInline = true) := by
  obtain ⟨slot, hslot, hchild⟩ := Option.bind_eq_some_iff.mp hc
  have hmem := List.mem_of_find?_eq_some hslot
  refine ⟨hj.closed i hi j ?_, hj.inline i hi slot hmem j hchild⟩
  refine List.mem_map.mpr ⟨(slot.name, j), List.mem_append_left _ ?_, rfl⟩
  exact List.mem_filterMap.mpr ⟨slot, hmem, by simp [hchild]⟩

theorem next (hj : job.Ready R) (hi : R i) (hn : (job.diagram.block i).next = some j) : R j := by
  refine hj.closed i hi j (List.mem_map.mpr ⟨("next", j), List.mem_append_right _ ?_, rfl⟩)
  simp [hn]

theorem behind_ensures (hj : job.Ready R) (hchains : job.WritesChains R depth) (hi : R i) (hf : H → ¬ job.Flawed (some i)) :
    Ensures H (job.emitWithin depth (job.diagram.block i).next) (job.Shapes (job.diagram.block i).next) := by
  cases hn : (job.diagram.block i).next with
  | none => exact job.emitWithin_none_ensures depth
  | some k => exact hchains H k (hj.next hi hn) fun hH hk => hf hH (.later (hn ▸ hk))

theorem sound (hj : job.Ready R) (hchains : job.WritesChains R depth) (htrees : job.WritesTrees R depth) (hi : R i)
    (hf : H → ¬ job.Flawed (some i)) (he : (job.diagram.block i).disabled = false) {kind : BlockKind}
    (hk : (job.diagram.block i).kind? = some kind) :
    Scene.Sound H ⟨job, i, job.emitWithin depth⟩ fun u => job.treeWithin u depth where
  settings := hj.settings
  below name := by
    cases hc : (job.diagram.block i).child? name with
    | none =>
      simp only [Scene.block, hc]
      exact job.emitWithin_none_ensures depth
    | some k =>
      simp only [Scene.block, hc]
      exact hchains H k (hj.child hi hc).1 fun hH hflawed => hf hH (.inside he hk (hc ▸ hflawed))
  behind := hj.behind_ensures hchains hi hf
  faithful u name k hc := htrees k (hj.child hi hc).1 (hj.child hi hc).2 u
  fields := hj.fields i hi
  filled hH name hollow := hf hH (.inside he hk hollow.flawed)
  next hH hollow := hf hH (.later hollow.flawed)
  stack hH hp hremarks := by
    by_contra hnot
    rw [not_or] at hnot
    obtain ⟨returns, hk⟩ := Workspace.kind_of_isProcedure hp
    refine hf hH (.here he ?_ hremarks hnot.1 hnot.2)
    rw [suites_eq hk]
    exact List.mem_singleton_self _

theorem writesChains_succ (hj : job.Ready R) (hchains : job.WritesChains R depth) (htrees : job.WritesTrees R depth) :
    job.WritesChains R (depth + 1) := by
  intro H i hi hf
  have hnext := hj.behind_ensures hchains hi hf
  refine checkOpen_ensures.bind fun _ _ => ?_
  dsimp only
  split
  · rename_i hd
    have hnone : ∀ k, some i = some k → ¬ job.Expresses k := by
      rintro _ ⟨⟩ ⟨he, -⟩
      cases he.symm.trans hd
    refine hnext.imp fun o ho => ?_
    cases o with
    | nothing => exact ⟨ho.1.disabled hd, hnone⟩
    | statement code => exact ⟨ho.1.disabled hd, hnone⟩
    | expression code rank =>
      obtain ⟨k, hn, ⟨-, hv⟩, -⟩ := ho
      cases hv.symm.trans (hj.following i hi k hn)
  · rename_i hd
    have he : (job.diagram.block i).disabled = false := Bool.eq_false_iff.mpr hd
    refine Scene.output_ensures hj.settings he hnext ?_
    cases hk : (job.diagram.block i).kind? with
    | none => exact Scene.unknown_ensures hj.rules hk
    | some kind => exact Scene.known_ensures (hj.sound hchains htrees hi hf he hk) hj.rules hk

/-- The text of a value block behind its comments is its tree. -/
theorem value_gives (hj : job.Ready R) (htrees : job.WritesTrees R depth) (hi : R i)
    (hv : (job.diagram.block i).isValue = true) (u : Session) :
    Gives u (job.emitWithin (depth + 1) (some i)) fun o => ∃ o' : Output,
      o'.Tells (job.treeWithin u (depth + 1) i) (job.Unranked i) ∧ o = o'.behind (job.scene i).comments := by
  refine emitWithin_value hj.rules (fun kind hk => ?_) (hj.alone i hi hv) fun name k hc =>
    htrees k (hj.child hi hc).1 (hj.child hi hc).2 u
  rwa [Block.isValue, hk] at hv

theorem writesTrees_succ (hj : job.Ready R) (hchains : job.WritesChains R (depth + 1)) (htrees : job.WritesTrees R depth) :
    job.WritesTrees R (depth + 1) := by
  intro i hi hinline u
  cases hv : (job.diagram.block i).isValue with
  | false =>
    have hshapes := (hchains False i hi False.elim).gives (job.emitWithin_within Session.grows_steps _ _) u
    refine hshapes.imp fun o ho => ?_
    rw [treeWithin_of_not_value hv]
    cases o with
    | nothing => rfl
    | statement code => trivial
    | expression code rank =>
      obtain ⟨_, hk, ⟨-, hvalue⟩, -⟩ := ho
      cases hk
      cases hv.symm.trans hvalue
  | true =>
    have hcomments : (job.scene i).comments = "" := if_pos (hinline hv)
    refine (hj.value_gives htrees hi hv u).imp ?_
    rintro o ⟨o', htells, rfl⟩
    rw [hcomments, Output.behind_empty]
    exact htells.shows

/-- Ready blocks are written out as the chains and trees that they are. -/
theorem writes (hj : job.Ready R) (depth : Nat) : job.WritesChains R depth ∧ job.WritesTrees R depth := by
  induction depth with
  | zero => exact ⟨fun H i _ _ => .throw _ _, fun i _ _ u => .throw _ _⟩
  | succ depth ih =>
    have hchains := hj.writesChains_succ ih.1 ih.2
    exact ⟨hchains, hj.writesTrees_succ hchains ih.2⟩

theorem not_hollow_of_value (hj : job.Ready R) (hi : R i) (hv : (job.diagram.block i).isValue = true) :
    ¬ job.Hollow (some i) := by
  have hsuites : job.suites i = [] := by
    cases hk : (job.diagram.block i).kind? with
    | none => rw [suites, hk]
    | some kind =>
      rw [Block.isValue, hk] at hv
      rw [suites_eq hk, Scene.suiteSlots_eq_nil (Or.inr hv), List.map_nil]
  rintro (⟨-, ho, -⟩ | ⟨-, ho, -⟩ | ⟨-, hn⟩)
  · simp [hsuites] at ho
  · simp [hsuites] at ho
  · rw [hj.alone i hi hv] at hn
    exact not_hollow_none hn

/-- A top block is written out as lines. -/
theorem topLines_ensures (hj : job.Ready R) (hi : R i) (hf : H → ¬ job.Flawed (some i)) :
    Ensures H (job.topLines i) fun code => Sheet code (¬ job.Hollow (some i)) := by
  have hchain := (hj.writes n).1 H i hi hf
  unfold topLines
  cases hv : (job.diagram.block i).isValue with
  | false =>
    refine hchain.bind fun o ho => ?_
    cases o with
    | nothing => exact .pure ho.1.sheet
    | statement code => exact .pure ho.1.sheet
    | expression code rank =>
      obtain ⟨_, hk, ⟨-, hvalue⟩, -⟩ := ho
      cases hk
      cases hv.symm.trans hvalue
  | true =>
    have hsilent := comments_silent hj.settings i
    have hok : ¬ job.Hollow (some i) := hj.not_hollow_of_value hi hv
    obtain ⟨m, rfl⟩ : ∃ m, n = m + 1 := ⟨n - 1, by have := i.pos; omega⟩
    refine (hchain.and_gives fun u => hj.value_gives (hj.writes m).2 hi hv u).bind fun o ho => ?_
    obtain ⟨hshapes, u, o', htells, rfl⟩ := ho
    cases o' with
    | nothing => exact .pure hshapes.1.sheet
    | statement code => exact .pure hshapes.1.sheet
    | expression code rank =>
      have hline : Sheet ((job.scene i).comments ++ code ++ "\n") True := by
        obtain ⟨rfl, -⟩ | ⟨code', rank', e, heq, -, hemits, -⟩ := htells
        · refine .of_silent ⟨Or.inr ⟨_, rfl⟩, ?_⟩
          rw [outline_line, String.append_empty]
          exact hsilent.outline
        · cases heq
          rw [String.append_assoc]
          exact ((Sheet.of_silent hsilent).append (Sheet.of_line hemits.written.line)).congr (by simp)
      refine .pure ?_
      simp only [Output.behind, Output.topLines]
      split
      · exact Sheet.empty.congr (iff_of_true trivial hok)
      · exact hline.congr (iff_of_true trivial hok)

end Job.Ready

end BlockScript
