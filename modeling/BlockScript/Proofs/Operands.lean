import BlockScript.Proofs.Naming
import BlockScript.Proofs.OperatorTrees

namespace BlockScript

variable {n : Nat} {α β : Type}

/-- A step that keeps all identifiers, and what it gives if the session `u` comes later. -/
structure Run.Gives (u : Session) (r : Run α) (P : α → Prop) : Prop where
  grows : r.Within Session.Grows
  gives : ∀ {s t a}, r.run s = (.ok a, t) → s.Plain → t.Keeps u → P a

namespace Run.Gives

variable {u : Session} {P : α → Prop} {r : Run α}

theorem imp {Q : α → Prop} (h : Gives u r P) (hi : ∀ a, P a → Q a) : Gives u r Q :=
  ⟨h.grows, fun hr hs hu => hi _ (h.gives hr hs hu)⟩

theorem pure (a : α) : Gives u (pure a : Run α) (· = a) := by
  refine ⟨Session.grows_joins.pure a, fun hr _ _ => ?_⟩
  exact (ok_of_run_pure hr).1.symm

theorem throw (f : Fault) (P : α → Prop) : Gives u (throw f : Run α) P :=
  ⟨Session.grows_joins.throw f, fun hr _ _ => (not_ok_of_run_throw hr).elim⟩

theorem skip (h : r.Within Session.Grows) : Gives u r fun _ => True :=
  ⟨h, fun _ _ _ => trivial⟩

theorem bind {f : α → Run β} {Q : α → β → Prop} (hr : Gives u r P) (hf : ∀ a, Gives u (f a) (Q a)) :
    Gives u (r >>= f) fun b => ∃ a, P a ∧ Q a b := by
  refine ⟨Session.grows_joins.bind hr.grows fun a => (hf a).grows, fun h hs hu => ?_⟩
  obtain ⟨a, t, ha, hb⟩ := ok_of_run_bind h
  have hfirst := hr.grows.of_run ha
  have hnext := (hf a).grows.of_run hb
  exact ⟨a, hr.gives ha hs (hnext.1.trans hu), (hf a).gives hb (hfirst.2 hs) hu⟩

theorem mapM {f : α → Run β} {Q : α → β → Prop} (l : List α) (hf : ∀ a ∈ l, Gives u (f a) (Q a)) :
    Gives u (l.mapM f) (List.Forall₂ Q l) := by
  induction l with
  | nil =>
    refine (pure []).imp ?_
    rintro bs rfl
    exact .nil
  | cons a l ih =>
    rw [List.mapM_cons]
    refine imp (bind (hf a (by simp)) fun b => bind (ih fun a ha => hf a (by simp [ha])) fun bs => pure (b :: bs)) ?_
    rintro cs ⟨b, hb, bs, hbs, rfl⟩
    exact .cons hb hbs

end Run.Gives

open Run

variable {u : Session}

theorem identifier_gives (realm : Realm) (name : Value) :
    Gives u (Run.identifier realm name) fun x => u.nameOf ⟨realm, name⟩ = .name x ∧ IsName x := by
  refine ⟨Session.identifier_within realm name, fun {s t x} h hs hu => ?_⟩
  have hgrows := (Session.identifier_within realm name).of_run h
  have hfound : t.names.find? ⟨realm, name⟩ = some x := by
    rw [run_identifier] at h
    unfold Names.get at h
    by_cases hkey : (Label.mk realm name).name.isKey = true
    · rw [if_pos hkey] at h
      cases hf : s.names.find? ⟨realm, name⟩ with
      | some y =>
        rw [hf] at h
        cases h
        rw [Session.recordIf_names]
        exact hf
      | none =>
        rw [hf] at h
        cases h
        rw [Session.recordIf_names]
        have hput := Ledger.get?_put s.names.identifiers ⟨realm, name⟩ ⟨realm, name⟩ (s.names.allocate ⟨realm, name⟩).1
        rw [if_pos BEq.rfl] at hput
        exact hput
    · rw [if_neg hkey] at h
      cases h
  have hkept := hu.names _ _ hfound
  exact ⟨by simp [Session.nameOf, hkept], (hgrows.2 hs).names _ _ hfound⟩

theorem provide_gives (preferred text : String) :
    Gives u (Run.provide preferred text) fun x => u.functions.identifier? preferred = some x ∧ IsName x := by
  refine ⟨Session.provide_within preferred text, fun {s t x} h hs hu => ?_⟩
  have hgrows := (Session.provide_within preferred text).of_run h
  have hfound : t.functions.identifier? preferred = some x := by
    rw [run_provide] at h
    split at h
    · cases h
      rw [Session.recordIf_functions, Session.recordIf_functions]
      show (s.functions.provide s.names preferred text).2.1.identifier? preferred = _
      unfold Functions.provide Functions.identify
      cases hf : s.functions.identifier? preferred with
      | some y =>
        dsimp only
        split
        · exact hf
        · exact hf
      | none =>
        have hput := Ledger.get?_put s.functions.identifiers preferred preferred
          (s.names.allocate (Functions.label preferred)).1
        rw [if_pos BEq.rfl] at hput
        dsimp only
        split <;> exact hput
    · cases h
  exact ⟨hu.functions _ _ hfound, (hgrows.2 hs).functions _ _ hfound⟩

theorem Device.use_gives (d : Device) (pin : Value) : Gives u (d.use pin) fun x =>
    u.nameOf ⟨.generated, .text (d.object ++ pin.toText)⟩ = .name x ∧ IsName x := by
  have hsteps := Session.grows_steps
  have hrest : Gives u (do
      let object ← generatedName (d.object ++ pin.toText)
      let _ ← declare (d.tag ++ pin.toText) (d.declaration object pin.toText)
      pure object) fun x => u.nameOf ⟨.generated, .text (d.object ++ pin.toText)⟩ = .name x ∧ IsName x := by
    refine Gives.imp (Gives.bind (identifier_gives _ _) fun x => Gives.bind (Gives.skip (hsteps.fragment _ _ _ _))
      fun _ => Gives.pure x) ?_
    rintro y ⟨x, hx, _, -, rfl⟩
    exact hx
  unfold Device.use
  refine Gives.imp (Gives.bind (Gives.skip (hsteps.fragment _ _ _ _)) fun _ => (?_ : Gives u _ fun x =>
    u.nameOf ⟨.generated, .text (d.object ++ pin.toText)⟩ = .name x ∧ IsName x)) fun _ ⟨_, _, h⟩ => h
  cases d.needs with
  | none => exact hrest
  | some name => exact Gives.imp (Gives.bind (Gives.skip (hsteps.fragment _ _ _ _)) fun _ => hrest) fun _ ⟨_, _, h⟩ => h

/-- What writing a block out gives, if its tree is known. -/
def Output.Shows (e? : Option Expr) : Output → Prop
  | .nothing => e? = none
  | .statement _ => True
  | .expression code rank => (code = "" ∧ e? = none) ∨ ∃ e, e? = some e ∧ Emits code rank e

/-- The text in a slot: that of the operand, or the default where there is none. -/
def SlotText (e? : Option Expr) (outer : Rank) (default code : String) : Prop :=
  (e? = none ∧ code = default) ∨
    ∃ e c rank, e? = some e ∧ Emits c rank e ∧ code = Rank.parenthesize c rank outer

theorem SlotText.written {e? : Option Expr} {outer : Rank} {default code : String} {d : Expr}
    (h : SlotText e? outer default code) (hd : Written outer default d)
    (ho : OperatorClass.functionCall.rank ≤ outer) : Written outer code (e?.getD d) := by
  obtain ⟨rfl, rfl⟩ | ⟨e, c, rank, rfl, he, rfl⟩ := h
  · exact hd
  · exact he.slot fun _ => ho

/-- A slot of a connection is empty where there is no operand, and else adds the operand to the row. -/
theorem SlotText.row {e? : Option Expr} {c : Connection} {code missing : String} {m : Expr}
    (h : SlotText e? c.kind.rank "" code) (hm : Written c.kind.rank missing m) (hc : ¬ m.IsConnect c) :
    WrittenRow c (if code.isEmpty then missing else code) ((e?.getD m).operands c) := by
  obtain ⟨rfl, rfl⟩ | ⟨e, c', rank, rfl, he, rfl⟩ := h
  · obtain ⟨ts, hts, hd⟩ := hm
    refine ⟨ts, by simpa using hts, (ts, m), [], by simp [chained], ?_, hd.below_connection hc, by simp⟩
    simpa using Expr.operands_of_not hc
  · have hslot : Written c.kind.rank (Rank.parenthesize c' rank c.kind.rank) e := he.slot fun _ => by cases c <;> decide
    have hne : (Rank.parenthesize c' rank c.kind.rank).isEmpty = false := by
      simpa [String.isEmpty_iff] using hslot.ne_empty
    simpa [hne] using he.row_slot c

theorem SlotText.isEmpty {e? : Option Expr} {outer : Rank} {code : String} (h : SlotText e? outer "" code)
    (ho : OperatorClass.functionCall.rank ≤ outer) : code.isEmpty = e?.isNone := by
  obtain ⟨rfl, rfl⟩ | ⟨e, c, rank, rfl, he, rfl⟩ := h
  · rfl
  · simpa [String.isEmpty_iff] using (he.slot fun _ => ho).ne_empty

namespace Scene

variable {s : Scene n} {operand : Fin n → Option Expr}

/-- The blocks below are written out as their trees. -/
def Faithful (s : Scene n) (u : Session) (operand : Fin n → Option Expr) : Prop :=
  ∀ name j, s.block.child? name = some j → Gives u (s.emit (some j)) (Output.Shows (operand j))

def operandAt (s : Scene n) (operand : Fin n → Option Expr) (name : String) : Option Expr :=
  (s.block.child? name).bind operand

/-- A block that gives a number without finite value as an atom. -/
def Unranked (s : Scene n) : BlockKind → Prop
  | .number => ∃ d, (s.block.fieldD "NUM" (.int 0)).toDouble = .ok d ∧ (d = .nan ∨ d = .infinite false)
  | .constant => s.block.fieldD "CONSTANT" (.text "PI") = .text "INFINITY"
  | _ => False

/-- The output of a rule is the tree of the block. -/
def Shown (s : Scene n) (u : Session) (operand : Fin n → Option Expr) (kind : BlockKind) (o : Output) : Prop :=
  match s.tree? u (s.operandAt operand) kind with
  | none => ∃ rank, o = .expression "" rank
  | some e => ∃ code rank, o = .expression code rank ∧ Emits code rank e ∧ (Written rank code e ↔ ¬ s.Unranked kind)

theorem shown_of_written {kind : BlockKind} {code : String} {rank : Rank} {e : Expr}
    (ht : s.tree? u (s.operandAt operand) kind = some e) (hw : Written rank code e) (he : ∀ c, ¬ e.IsConnect c)
    (hu : ¬ s.Unranked kind) : s.Shown u operand kind (.expression code rank) := by
  rw [Shown, ht]
  exact ⟨code, rank, rfl, Emits.of_written hw he, iff_of_true hw hu⟩

theorem valueAt_gives (hf : s.Faithful u operand) (name : String) (outer : Rank) (default : String) :
    Gives u (s.valueAt name outer default) (SlotText (s.operandAt operand name) outer default) := by
  unfold valueAt operandAt
  cases hchild : s.block.child? name with
  | none =>
    refine (Gives.pure default).imp ?_
    rintro code rfl
    exact Or.inl ⟨rfl, rfl⟩
  | some j =>
    have hrest : ∀ o : Output, Gives u (match o with
        | .nothing => pure default
        | .statement _ => throw (.expressionWanted (s.typeOf j) name s.block.type)
        | .expression code rank =>
          pure (if code.isEmpty then default else Rank.parenthesize code rank outer) : Run String)
        fun code => o.Shows (operand j) → SlotText (operand j) outer default code := by
      intro o
      cases o with
      | nothing =>
        refine (Gives.pure default).imp ?_
        rintro code rfl hnone
        exact Or.inl ⟨hnone, rfl⟩
      | statement c => exact Gives.throw _ _
      | expression c rank =>
        refine (Gives.pure _).imp ?_
        rintro code rfl hshows
        obtain ⟨rfl, hnone⟩ | ⟨e, he, hemits⟩ := hshows
        · exact Or.inl ⟨hnone, by simp⟩
        · have hne : c.isEmpty = false := by
            have := hemits.written.ne_empty
            simpa [String.isEmpty_iff] using this
          exact Or.inr ⟨e, c, rank, he, hemits, by simp [hne]⟩
    refine Gives.imp (Gives.bind (hf name j hchild) hrest) ?_
    rintro code ⟨o, ho, hcode⟩
    exact hcode ho

theorem value_gives (hf : s.Faithful u operand) (name : String) (outer : OperatorClass) (default : String) :
    Gives u (s.value name outer default) (SlotText (s.operandAt operand name) outer.rank default) :=
  valueAt_gives hf name outer.rank default

theorem compared_gives {α : Type} (name default : String) (table : List (String × α)) :
    Gives u (s.compared name default table) fun a => s.compared? name default table = some a := by
  unfold compared
  cases hc : s.compared? name default table with
  | none => exact Gives.throw _ _
  | some a =>
    refine (Gives.pure a).imp ?_
    rintro b rfl
    rfl

theorem select_gives {α : Type} (name default : String) (table : List (String × α)) :
    Gives u (s.select name default table) fun a => s.compared? name default table = some a := by
  unfold select compared? Value.lookup
  dsimp only
  cases s.block.fieldD name (.text default) with
  | text t =>
    dsimp only
    cases hl : table.lookup t with
    | none => exact Gives.throw _ _
    | some a =>
      refine (Gives.pure a).imp ?_
      rintro b rfl
      rfl
  | _ => exact Gives.throw _ _

theorem function_gives (f : FunctionText) :
    Gives u (s.function f) fun x => u.functionOf f = .name x ∧ IsName x := by
  refine (provide_gives _ _).imp ?_
  rintro x ⟨hx, hname⟩
  exact ⟨by simp [Session.functionOf, hx], hname⟩

end Scene

end BlockScript
