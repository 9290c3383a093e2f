import BlockScript.Emission.Job
import BlockScript.Proofs.Operands

namespace BlockScript

open Run

variable {n : Nat} {u : Session}

theorem Written.word {s : String} (h : tokens? s = some [.word s]) (hk : IsOperand s) (r : Rank) :
    Written r s (.name s) :=
  ⟨_, h, (Derives.name hk).mono (Nat.zero_le _)⟩

theorem Written.digits {s : String} (h : tokens? s = some [.numeral s]) (r : Rank) : Written r s (.numeral s) :=
  ⟨_, h, (Derives.numeral s).mono (Nat.zero_le _)⟩

theorem Written.congr {r : Rank} {code code' : String} {e : Expr} (h : Written r code e)
    (hc : code.toList = code'.toList) : Written r code' e := by
  rwa [← String.toList_inj.mp hc]

theorem written_zero (r : Rank) : Written r "0" .zero :=
  Written.digits rfl r

theorem written_empty (r : Rank) : Written r "''" .empty :=
  ⟨_, rfl, (Derives.text "''").mono (Nat.zero_le _)⟩

theorem written_none (r : Rank) : Written r "None" (.name "None") :=
  Written.word rfl (by decide) r

theorem written_false (r : Rank) : Written r "False" (.name "False") :=
  Written.word rfl (by decide) r

theorem written_true (r : Rank) : Written r "True" (.name "True") :=
  Written.word rfl (by decide) r

theorem written_infinity : Written OperatorClass.functionCall.rank "float('inf')" .infinity :=
  (Written.word (s := "float") rfl (by decide) _).call ["'inf'"] (.cons (Written.quote "inf" |>.mono (by decide)) .nil)

theorem written_notANumber : Written OperatorClass.functionCall.rank "float('nan')" .notANumber :=
  (Written.word (s := "float") rfl (by decide) _).call ["'nan'"] (.cons (Written.quote "nan" |>.mono (by decide)) .nil)

theorem IsName.written {x : String} (h : IsName x) (r : Rank) : Written r x (.name x) :=
  Written.word (tokens_word h.1) (Or.inl h.not_keyword) r

theorem IsName.member {x t : String} (h : IsName x) (ht : IsName t) :
    Written OperatorClass.member.rank (x ++ "." ++ t) (.member (.name x) t) :=
  Written.member h.1 h.not_keyword ht.1 ht.not_keyword

/-- An atom is a single token or stands in parentheses. -/
theorem Derives.atom {ts : List Token} {e : Expr} (h : Derives 0 ts e) :
    (∃ t, ts = [t]) ∨ ∃ us, ts = .symbol "(" :: us := by
  generalize hr : 0 = r at h
  cases h with
  | name | numeral | text => exact Or.inl ⟨_, rfl⟩
  | group => exact Or.inr ⟨_, rfl⟩
  | binary op _ _ => exact absurd hr (by cases op <;> decide)
  | connect c _ _ _ _ => exact absurd hr (by cases c <;> decide)
  | looser => exact absurd hr (by omega)
  | _ => exact absurd hr (by decide)

theorem not_written_infinity (e : Expr) : ¬ Written OperatorClass.atomic.rank "float('inf')" e := by
  rintro ⟨ts, hts, hd⟩
  obtain ⟨t, rfl⟩ | ⟨us, rfl⟩ := Derives.atom hd <;> cases hts

theorem not_written_notANumber (e : Expr) : ¬ Written OperatorClass.atomic.rank "float('nan')" e := by
  rintro ⟨ts, hts, hd⟩
  obtain ⟨t, rfl⟩ | ⟨us, rfl⟩ := Derives.atom hd <;> cases hts

theorem numeral_head {t : String} (h : tokens? t = some [.numeral t]) : t.toList.head? ≠ some '-' := by
  intro hhead
  cases hcs : t.toList with
  | nil =>
    rw [hcs] at hhead
    cases hhead
  | cons c cs =>
    obtain rfl : c = '-' := by
      rw [hcs] at hhead
      simpa using hhead
    have h := (of_tokens h).2
    rw [hcs, Pending.lex_cons (Pending.idle_next (c := '-') rfl)] at h
    cases cs with
    | nil => cases h
    | cons d cs =>
      simp only [Pending.lex, Pending.next, symbolPairs, List.mem_cons, Prod.mk.injEq] at h
      simp [Pending.leave, Pending.touches, Pending.flush, Option.bind_eq_some_iff] at h

namespace Scene

variable {s : Scene n} {operand : Fin n → Option Expr}

theorem of_compared {α : Type} {name default : String} {table : List (String × α)} {a : α}
    (h : s.compared? name default table = some a) : ∃ t, s.block.fieldD name (.text default) = .text t ∧
      (t, a) ∈ table ∧ ∀ {β : Type} (other : List (String × β)), s.compared? name default other = other.lookup t := by
  unfold compared? at h
  split at h
  · rename_i t ht
    obtain ⟨l, l', hl, -⟩ := List.lookup_eq_some_iff.mp h
    refine ⟨t, ht, by simp [hl], fun other => ?_⟩
    unfold compared?
    rw [ht]
  · cases h

/-- A number without finite value is an atom to its rule but no atom of the language. -/
theorem shown_unranked {kind : BlockKind} {code : String} {e : Expr}
    (ht : s.tree? u (s.operandAt operand) kind = some e) (hw : Written OperatorClass.functionCall.rank code e)
    (he : ∀ c, ¬ e.IsConnect c) (hn : ¬ Written OperatorClass.atomic.rank code e) (hu : s.Unranked kind) :
    s.Shown u operand kind (.expression code OperatorClass.atomic.rank) := by
  rw [Shown, ht]
  refine ⟨code, _, rfl, ⟨hw.mono (by decide), fun c es hes => absurd ⟨es, hes⟩ (he c)⟩, iff_of_false hn ?_⟩
  exact fun h => h hu

theorem number_gives : Gives u s.number (s.Shown u operand .number) := by
  unfold number
  cases hd : (s.block.fieldD "NUM" (.int 0)).toDouble with
  | error f => exact Gives.throw _ _
  | ok d =>
    refine (Gives.pure _).imp ?_
    rintro o rfl
    have htree : s.tree? u (s.operandAt operand) .number = some d.expr := by
      simp [tree?, hd]
    have hranked : ¬ (d = .nan ∨ d = .infinite false) → ¬ s.Unranked .number := by
      rintro hne ⟨d', hd', h⟩
      rw [hd] at hd'
      cases hd'
      exact hne h
    cases d with
    | nan =>
      exact shown_unranked htree written_notANumber (by rintro c ⟨es, h⟩; cases h) (not_written_notANumber _)
        ⟨_, hd, Or.inl rfl⟩
    | infinite negative =>
      cases negative with
      | false =>
        exact shown_unranked htree written_infinity (by rintro c ⟨es, h⟩; cases h) (not_written_infinity _)
          ⟨_, hd, Or.inr rfl⟩
      | true =>
        have hw := (written_infinity.mono (by decide)).minus
        exact shown_of_written htree hw (by rintro c ⟨es, h⟩; cases h) (hranked (by simp))
    | finite negative m e =>
      obtain ⟨t, ht, hliteral | hliteral⟩ := Double.tokens_literal negative m e
      · have hhead := numeral_head ht
        have hexpr : (Double.finite negative m e).expr = .numeral t := by
          simp only [Double.expr, hliteral]
          split
          · rename_i cs hcs
            rw [hcs] at hhead
            exact absurd rfl hhead
          · rfl
        rw [hexpr] at htree
        rw [hliteral, signedOutput, if_neg hhead]
        exact shown_of_written htree (Written.digits ht _) (by rintro c ⟨es, h⟩; cases h) (hranked (by simp))
      · have hcs : ("-" ++ t).toList = '-' :: t.toList := by simp
        have hexpr : (Double.finite negative m e).expr = .sign "-" (.numeral t) := by
          simp [Double.expr, hliteral]
        rw [hexpr] at htree
        rw [hliteral, signedOutput, if_pos (by simp)]
        exact shown_of_written htree (Written.digits ht _).minus (by rintro c ⟨es, h⟩; cases h) (hranked (by simp))

theorem arithmetic_entry {t : String} {op : BinaryOperator} (h : (t, op) ∈ arithmeticOperators) :
    ∃ o, arithmeticTrees.lookup t = some o ∧ " " ++ o.symbol ++ " " = op.symbol ∧ op.kind = o.kind ∧
      op.left = o.left ∧ op.right = o.right := by
  simp only [arithmeticOperators, List.mem_cons, List.not_mem_nil, or_false, Prod.mk.injEq] at h
  obtain ⟨rfl, rfl⟩ | ⟨rfl, rfl⟩ | ⟨rfl, rfl⟩ | ⟨rfl, rfl⟩ | ⟨rfl, rfl⟩ := h <;>
    exact ⟨_, rfl, rfl, rfl, rfl, rfl⟩

theorem arithmetic_gives (hf : s.Faithful u operand) : Gives u s.arithmetic (s.Shown u operand .arithmetic) := by
  refine Gives.imp (Gives.bind (select_gives _ _ _) fun op => Gives.bind (valueAt_gives hf _ _ _) fun a =>
    Gives.bind (valueAt_gives hf _ _ _) fun b => Gives.pure _) ?_
  rintro o ⟨op, hop, a, ha, b, hb, rfl⟩
  obtain ⟨t, -, hmem, hother⟩ := of_compared hop
  obtain ⟨o, ho, hsymbol, hkind, hleft, hright⟩ := arithmetic_entry hmem
  have htree : s.tree? u (s.operandAt operand) .arithmetic =
      some (.binary o ((s.operandAt operand "A").getD .zero) ((s.operandAt operand "B").getD .zero)) := by
    simp [tree?, hother, ho]
  rw [hleft] at ha
  rw [hright] at hb
  have hx := ha.written (written_zero _) (by cases o <;> decide)
  have hy := hb.written (written_zero _) (by cases o <;> decide)
  rw [Output.ofClass, hkind]
  exact shown_of_written htree (hx.binary o _ hsymbol hy) (by rintro c ⟨es, h⟩; cases h) id

/-- The functions of the tables are names, with their modules in front. -/
def UnaryFunction.Known : UnaryFunction → Prop
  | .builtin name => Written OperatorClass.functionCall.rank name (.name name)
  | .library name | .ofDegrees name | .toDegrees name => Written OperatorClass.functionCall.rank name (dotted name)
  | _ => True

theorem written_dotted {code source f : String} (h : tokens? code = some [.word source, .symbol ".", .word f])
    (hs : source ∉ keywords) (hf : f ∉ keywords) : Written OperatorClass.functionCall.rank code (.of source f) :=
  ⟨_, h, .member ((Derives.name (Or.inl hs)).mono (by decide)) hf⟩

theorem unary_known {t : String} {f : UnaryFunction} (h : (t, f) ∈ unaryFunctions) : f.Known := by
  simp only [unaryFunctions, List.mem_cons, List.not_mem_nil, or_false, Prod.mk.injEq] at h
  obtain ⟨-, rfl⟩ | ⟨-, rfl⟩ | ⟨-, rfl⟩ | ⟨-, rfl⟩ | ⟨-, rfl⟩ | ⟨-, rfl⟩ | ⟨-, rfl⟩ | ⟨-, rfl⟩ | ⟨-, rfl⟩ | ⟨-, rfl⟩ |
    ⟨-, rfl⟩ | ⟨-, rfl⟩ | ⟨-, rfl⟩ | ⟨-, rfl⟩ | ⟨-, rfl⟩ | ⟨-, rfl⟩ := h
  · trivial
  · trivial
  · exact Written.word rfl (by decide) _
  · exact Written.word rfl (by decide) _
  all_goals exact written_dotted rfl (by decide) (by decide)

theorem unary_gives (hf : s.Faithful u operand) (family : UnaryFamily) :
    Gives u (s.unary family) (s.Shown u operand (.unary family)) := by
  have hsteps := Session.grows_steps
  -- whatever the function is, its text is to be the tree that it makes of its argument
  have hshown : ∀ f, s.compared? "OP" (defaultUnary family) unaryFunctions = some f → ∀ code rank,
      Written rank code (f.tree ((s.operandAt operand "NUM").getD .zero)) →
      s.Shown u operand (.unary family) (.expression code rank) := by
    intro f hop code rank hw
    have htree : s.tree? u (s.operandAt operand) (.unary family) =
        some (f.tree ((s.operandAt operand "NUM").getD .zero)) := by
      simp [tree?, hop]
    exact shown_of_written htree hw (by rintro c ⟨es, h⟩; cases f <;> cases h) id
  have hcall : ∀ {f : String} {z : Expr} {a : String} {x : Expr}, Written OperatorClass.functionCall.rank f z →
      Written OperatorClass.none.rank a x → Written OperatorClass.functionCall.rank (f ++ "(" ++ a ++ ")") (.call z [x]) :=
    fun hz hx => hz.call [_] (.cons hx .nil)
  have hpi : Written OperatorClass.functionCall.rank "math.pi" (.of "math" "pi") :=
    written_dotted rfl (by decide) (by decide)
  refine Gives.imp (Gives.bind (select_gives _ _ _)
    (Q := fun f o => f.Known → s.compared? "OP" (defaultUnary family) unaryFunctions = some f →
      s.Shown u operand (.unary family) o) fun f => ?_) ?_
  · cases f with
    | negate =>
      refine Gives.imp (Gives.bind (value_gives hf _ _ _) fun a => Gives.pure _) ?_
      rintro o ⟨a, ha, rfl⟩ - hop
      exact hshown _ hop _ _ (ha.written (written_zero _) (by decide)).minus
    | powerOfTen =>
      refine Gives.imp (Gives.bind (value_gives hf _ _ _) fun a => Gives.pure _) ?_
      rintro o ⟨a, ha, rfl⟩ - hop
      have hten : Written BinaryOp.power.left "10" (.numeral "10") := Written.digits rfl _
      have hpower := hten.binary .power " ** " rfl (ha.written (written_zero _) (by decide))
      refine hshown _ hop _ _ (hpower.congr ?_)
      simp
    | builtin name =>
      refine Gives.imp (Gives.bind (value_gives hf _ _ _) fun a => Gives.pure _) ?_
      rintro o ⟨a, ha, rfl⟩ hknown hop
      exact hshown _ hop _ _ (hcall hknown (ha.written (written_zero _) (by decide)))
    | library name =>
      refine Gives.imp (Gives.bind (value_gives hf _ _ _) fun a =>
        Gives.bind (Gives.skip (hsteps.fragment _ _ _ _)) fun _ => Gives.pure _) ?_
      rintro o ⟨a, ha, _, -, rfl⟩ hknown hop
      exact hshown _ hop _ _ (hcall hknown (ha.written (written_zero _) (by decide)))
    | ofDegrees name =>
      refine Gives.imp (Gives.bind (value_gives hf _ _ _) fun a =>
        Gives.bind (Gives.skip (hsteps.fragment _ _ _ _)) fun _ => Gives.pure _) ?_
      rintro o ⟨a, ha, _, -, rfl⟩ hknown hop
      have hdegrees := ha.written (written_zero _) (by decide)
      have hhalf := hdegrees.binary .divide _ rfl (Written.digits (s := "180.0") rfl _)
      have hradians := hhalf.binary .times _ rfl (hpi.mono (by decide))
      refine hshown _ hop _ _ ((hcall hknown (hradians.mono (by decide))).congr ?_)
      simp [BinaryOp.symbol]
    | toDegrees name =>
      refine Gives.imp (Gives.bind (value_gives hf _ _ _) fun a =>
        Gives.bind (Gives.skip (hsteps.fragment _ _ _ _)) fun _ => Gives.pure _) ?_
      rintro o ⟨a, ha, _, -, rfl⟩ hknown hop
      have hradians := hcall hknown (ha.written (written_zero _) (by decide))
      have hturn := (hradians.mono (by decide)).binary .divide _ rfl (hpi.mono (by decide))
      have hdegrees := hturn.binary .times _ rfl (Written.digits (s := "180") rfl _)
      refine hshown _ hop _ _ (hdegrees.congr ?_)
      simp [BinaryOp.symbol]
  · rintro o ⟨f, hop, h⟩
    obtain ⟨t, -, hmem, -⟩ := of_compared hop
    exact h (unary_known hmem) hop

theorem modulo_gives (hf : s.Faithful u operand) : Gives u s.modulo (s.Shown u operand .modulo) := by
  refine Gives.imp (Gives.bind (value_gives hf _ _ _) fun a => Gives.bind (valueAt_gives hf _ _ _) fun b =>
    Gives.pure _) ?_
  rintro o ⟨a, ha, b, hb, rfl⟩
  have hx := ha.written (written_zero _) (by decide)
  have hy := hb.written (written_zero _) (by decide)
  exact shown_of_written rfl (hx.binary .modulo _ rfl hy) (by rintro c ⟨es, h⟩; cases h) id

theorem constant_entry {t : String} {c : NamedNumber} (h : (t, c) ∈ namedNumbers) :
    (t = "INFINITY" ∧ c.code = "float('inf')" ∧ c.kind = .atomic) ∨
      t ≠ "INFINITY" ∧ ∃ e, constantTrees.lookup t = some e ∧ Written c.kind.rank c.code e ∧
        ∀ d, ¬ e.IsConnect d := by
  have hsqrt : Written OperatorClass.functionCall.rank "math.sqrt" (.of "math" "sqrt") :=
    written_dotted rfl (by decide) (by decide)
  simp only [namedNumbers, List.mem_cons, List.not_mem_nil, or_false, Prod.mk.injEq] at h
  obtain ⟨rfl, rfl⟩ | ⟨rfl, rfl⟩ | ⟨rfl, rfl⟩ | ⟨rfl, rfl⟩ | ⟨rfl, rfl⟩ | ⟨rfl, rfl⟩ := h
  · exact Or.inr ⟨by decide, _, rfl, written_dotted rfl (by decide) (by decide), by rintro d ⟨es, h⟩; cases h⟩
  · exact Or.inr ⟨by decide, _, rfl, written_dotted rfl (by decide) (by decide), by rintro d ⟨es, h⟩; cases h⟩
  · refine Or.inr ⟨by decide, _, rfl, ?_, by rintro d ⟨es, h⟩; cases h⟩
    have hroot := hsqrt.call ["5"] (.cons (Written.digits rfl _) .nil)
    have hone : Written BinaryOp.plus.left "1" (.numeral "1") := Written.digits rfl _
    have hsum := hone.binary .plus _ rfl (hroot.mono (by decide))
    have hhalf := (hsum.parens.mono (by decide)).binary .divide _ rfl (Written.digits (s := "2") rfl _)
    exact hhalf.congr (by simp [BinaryOp.symbol, Text.joined])
  · exact Or.inr ⟨by decide, _, rfl, hsqrt.call ["2"] (.cons (Written.digits rfl _) .nil), by rintro d ⟨es, h⟩; cases h⟩
  · refine Or.inr ⟨by decide, _, rfl, ?_, by rintro d ⟨es, h⟩; cases h⟩
    have hone : Written BinaryOp.divide.left "1.0" (.numeral "1.0") := Written.digits rfl _
    have hhalf := hone.binary .divide _ rfl (Written.digits (s := "2") rfl _)
    exact (hsqrt.call [_] (.cons (hhalf.mono (by decide)) .nil)).congr (by simp [BinaryOp.symbol, Text.joined])
  · exact Or.inl ⟨rfl, rfl, rfl⟩

theorem constant_gives : Gives u s.constant (s.Shown u operand .constant) := by
  have hshown : ∀ c, s.compared? "CONSTANT" "PI" namedNumbers = some c →
      s.Shown u operand .constant (Output.ofClass c.code c.kind) := by
    intro c hc
    obtain ⟨t, ht, hmem, hother⟩ := of_compared hc
    have htree : s.tree? u (s.operandAt operand) .constant = constantTrees.lookup t := hother constantTrees
    obtain ⟨rfl, hcode, hkind⟩ | ⟨hne, e, he, hw, hconnect⟩ := constant_entry hmem
    · rw [Output.ofClass, hcode, hkind]
      exact shown_unranked htree written_infinity (by rintro c ⟨es, h⟩; cases h) (not_written_infinity _) ht
    · refine shown_of_written (htree.trans he) hw hconnect fun hu => hne ?_
      have hsame : Value.text t = .text "INFINITY" := ht.symm.trans hu
      cases hsame
      rfl
  refine Gives.imp (Gives.bind (select_gives _ _ _) (Q := fun c o => o = Output.ofClass c.code c.kind) fun c => ?_) ?_
  · dsimp only
    split
    · exact Gives.imp (Gives.bind (Gives.skip (Session.grows_steps.fragment _ _ _ _)) fun _ => Gives.pure _)
        fun _ ⟨_, _, h⟩ => h
    · exact Gives.pure _
  · rintro o ⟨c, hc, rfl⟩
    exact hshown c hc

def NumberProperty.Known : NumberProperty → Prop
  | .comparison symbol => symbol ∈ comparisonSymbols
  | .remainder divisor result => tokens? divisor = some [.numeral divisor] ∧ tokens? result = some [.numeral result]
  | _ => True

theorem property_known {t : String} {p : NumberProperty} (h : (t, p) ∈ numberProperties) : p.Known := by
  simp only [numberProperties, List.mem_cons, List.not_mem_nil, or_false, Prod.mk.injEq] at h
  obtain ⟨-, rfl⟩ | ⟨-, rfl⟩ | ⟨-, rfl⟩ | ⟨-, rfl⟩ | ⟨-, rfl⟩ | ⟨-, rfl⟩ | ⟨-, rfl⟩ := h
  · trivial
  · exact show ">" ∈ comparisonSymbols by decide
  · exact show "<" ∈ comparisonSymbols by decide
  · exact ⟨rfl, rfl⟩
  · exact ⟨rfl, rfl⟩
  · exact ⟨rfl, rfl⟩
  · trivial

theorem written_remainderTest {a b c : String} {x y z : Expr} (hx : Written OperatorClass.multiplicative.rank a x)
    (hy : Written divisorRank b y) (hz : Written OperatorClass.bitwiseOr.rank c z) :
    Written OperatorClass.relational.rank (a ++ " % " ++ b ++ " == " ++ c)
      (.compare (.binary .modulo x y) [("==", z)]) := by
  have hrest := hx.binary .modulo _ rfl hy
  have htest := (hrest.mono (by decide)).compare (s := "==") (by decide) hz
  exact htest.congr (by simp [BinaryOp.symbol])

theorem property_gives (hf : s.Faithful u operand) : Gives u s.property (s.Shown u operand .property) := by
  have hsteps := Session.grows_steps
  unfold property
  cases hp : s.compared? "PROPERTY" "EVEN" numberProperties with
  | none =>
    refine Gives.imp (Gives.bind (value_gives hf _ _ _) fun _ => Gives.throw _ fun _ => False) ?_
    rintro o ⟨_, _, h⟩
    exact h.elim
  | some p =>
    obtain ⟨t, -, hmem, -⟩ := of_compared hp
    have hknown := property_known hmem
    cases p with
    | prime =>
      refine Gives.imp (Gives.bind (value_gives hf _ _ _) fun a => Gives.bind (Gives.skip (hsteps.fragment _ _ _ _))
        fun _ => Gives.bind (function_gives _) fun f => Gives.pure _) ?_
      rintro o ⟨a, ha, _, -, f, ⟨hu, hname⟩, rfl⟩
      have hw := (hname.written _).call [a] (.cons (ha.written (written_zero _) (by decide)) .nil)
      exact shown_of_written (by simp [tree?, hp, hu]) hw (by rintro c ⟨es, h⟩; cases h) id
    | comparison symbol =>
      refine Gives.imp (Gives.bind (value_gives hf _ _ _) fun a => Gives.pure _) ?_
      rintro o ⟨a, ha, rfl⟩
      have hw := (ha.written (written_zero _) (by decide)).compare hknown (written_zero _)
      exact shown_of_written (by simp [tree?, hp]) (hw.congr (by simp)) (by rintro c ⟨es, h⟩; cases h) id
    | remainder divisor result =>
      refine Gives.imp (Gives.bind (value_gives hf _ _ _) fun a => Gives.pure _) ?_
      rintro o ⟨a, ha, rfl⟩
      have hw := written_remainderTest (ha.written (written_zero _) (by decide)) (Written.digits hknown.1 _)
        (Written.digits hknown.2 _)
      exact shown_of_written (by simp [tree?, hp]) hw (by rintro c ⟨es, h⟩; cases h) id
    | divisible =>
      refine Gives.imp (Gives.bind (value_gives hf _ _ _) fun a => Gives.bind (valueAt_gives hf _ _ _) fun b =>
        Gives.pure _) ?_
      rintro o ⟨a, ha, b, hb, rfl⟩
      have hw := written_remainderTest (ha.written (written_zero _) (by decide))
        (hb.written (written_zero _) (by decide)) (written_zero _)
      exact shown_of_written (by simp [tree?, hp]) hw (by rintro c ⟨es, h⟩; cases h) id

theorem constrain_gives (hf : s.Faithful u operand) : Gives u s.constrain (s.Shown u operand .constrain) := by
  refine Gives.imp (Gives.bind (value_gives hf _ _ _) fun a => Gives.bind (value_gives hf _ _ _) fun b =>
    Gives.bind (value_gives hf _ _ _) fun c => Gives.pure _) ?_
  rintro o ⟨a, ha, b, hb, c, hc, rfl⟩
  have hx := ha.written (written_zero _) (by decide)
  have hy := hb.written (written_zero _) (by decide)
  have hz := hc.written (written_infinity.mono (by decide)) (by decide)
  have hmax := (Written.word (s := "max") rfl (by decide) _).call [a, b] (.cons hx (.cons hy .nil))
  have hmin := (Written.word (s := "min") rfl (by decide) _).call [_, c] (.cons (hmax.mono (by decide)) (.cons hz .nil))
  exact shown_of_written rfl (hmin.congr (by simp [Text.joined])) (by rintro d ⟨es, h⟩; cases h) id

theorem randomWhole_gives (hf : s.Faithful u operand) :
    Gives u s.randomWhole (s.Shown u operand .randomWhole) := by
  refine Gives.imp (Gives.bind (Gives.skip (Session.grows_steps.fragment _ _ _ _)) fun _ =>
    Gives.bind (value_gives hf _ _ _) fun a => Gives.bind (value_gives hf _ _ _) fun b =>
    Gives.bind (function_gives _) fun f => Gives.pure _) ?_
  rintro o ⟨_, -, a, ha, b, hb, f, ⟨hu, hname⟩, rfl⟩
  have hx := ha.written (written_zero _) (by decide)
  have hy := hb.written (written_zero _) (by decide)
  have hw := (hname.written _).call [a, b] (.cons hx (.cons hy .nil))
  exact shown_of_written (by simp [tree?, hu]) (hw.congr (by simp [Text.joined])) (by rintro d ⟨es, h⟩; cases h) id

theorem randomFraction_gives : Gives u randomFraction (s.Shown u operand .randomFraction) := by
  refine Gives.imp (Gives.bind (Gives.skip (Session.grows_steps.fragment _ _ _ _)) fun _ => Gives.pure _) ?_
  rintro o ⟨_, -, rfl⟩
  have hrandom : Written OperatorClass.functionCall.rank "random.random" (.of "random" "random") :=
    written_dotted rfl (by decide) (by decide)
  exact shown_of_written rfl (hrandom.call [] .nil) (by rintro d ⟨es, h⟩; cases h) id

theorem clock_gives {kind : BlockKind} {name : String}
    (hn : Written OperatorClass.functionCall.rank ("time." ++ name) (.of "time" name))
    (ht : s.tree? u (s.operandAt operand) kind = some (.call (.of "time" name) [])) (hu : ¬ s.Unranked kind) :
    Gives u (clock name) (s.Shown u operand kind) := by
  refine Gives.imp (Gives.bind (Gives.skip (Session.grows_steps.fragment _ _ _ _)) fun _ => Gives.pure _) ?_
  rintro o ⟨_, -, rfl⟩
  have hw := hn.call [] .nil
  exact shown_of_written ht (hw.congr (by simp [Text.joined])) (by rintro d ⟨es, h⟩; cases h) hu

theorem rescale_gives (hf : s.Faithful u operand) : Gives u s.rescale (s.Shown u operand .rescale) := by
  refine Gives.imp (Gives.bind (value_gives hf _ _ _) fun a => Gives.bind (value_gives hf _ _ _) fun b =>
    Gives.bind (function_gives _) fun f => Gives.pure _) ?_
  rintro o ⟨a, ha, b, hb, f, ⟨hu, hname⟩, rfl⟩
  have hx := ha.written (written_zero _) (by decide)
  have hy := hb.written (written_zero _) (by decide)
  have hw := (hname.written _).call [a, "0", "1024", "0", b]
    (.cons hx (.cons (written_zero _) (.cons (Written.digits rfl _) (.cons (written_zero _) (.cons hy .nil)))))
  exact shown_of_written (by simp [tree?, hu]) (hw.congr (by simp [Text.joined])) (by rintro d ⟨es, h⟩; cases h) id

theorem comparison_known {t op : String} (h : (t, op) ∈ comparisons) : op ∈ comparisonSymbols := by
  simp only [comparisons, List.mem_cons, List.not_mem_nil, or_false, Prod.mk.injEq] at h
  obtain ⟨-, rfl⟩ | ⟨-, rfl⟩ | ⟨-, rfl⟩ | ⟨-, rfl⟩ | ⟨-, rfl⟩ | ⟨-, rfl⟩ := h <;> decide

theorem compare_gives (hf : s.Faithful u operand) : Gives u s.compare (s.Shown u operand .compare) := by
  refine Gives.imp (Gives.bind (select_gives _ _ _) fun op => Gives.bind (value_gives hf _ _ _) fun a =>
    Gives.bind (value_gives hf _ _ _) fun b => Gives.pure _) ?_
  rintro o ⟨op, hop, a, ha, b, hb, rfl⟩
  obtain ⟨t, -, hmem, -⟩ := of_compared hop
  have hx := ha.written (written_zero _) (by decide)
  have hy := hb.written (written_zero _) (by decide)
  exact shown_of_written (by simp [tree?, hop]) (hx.compare (comparison_known hmem) hy)
    (by rintro d ⟨es, h⟩; cases h) id

theorem negate_gives (hf : s.Faithful u operand) : Gives u s.negate (s.Shown u operand .negate) := by
  refine Gives.imp (Gives.bind (value_gives hf _ _ _) fun a => Gives.pure _) ?_
  rintro o ⟨a, ha, rfl⟩
  have hx := ha.written (written_true _) (by decide)
  exact shown_of_written rfl hx.negate (by rintro d ⟨es, h⟩; cases h) id

theorem boolean_gives : Gives u s.boolean (s.Shown u operand .boolean) := by
  refine Gives.imp (Gives.bind (compared_gives _ _ _) fun a => Gives.pure _) ?_
  rintro o ⟨a, ha, rfl⟩
  obtain ⟨t, -, hmem, -⟩ := of_compared ha
  have hw : Written OperatorClass.atomic.rank a (.name a) := by
    simp only [List.mem_cons, List.not_mem_nil, or_false, Prod.mk.injEq] at hmem
    obtain ⟨-, rfl⟩ | ⟨-, rfl⟩ := hmem
    · exact written_true _
    · exact written_false _
  exact shown_of_written (by simp [tree?, ha]) hw (by rintro d ⟨es, h⟩; cases h) id

theorem null_gives : Gives u (pure (Output.atom "None") : Run Output) (s.Shown u operand .null) := by
  refine (Gives.pure _).imp ?_
  rintro o rfl
  exact shown_of_written rfl (written_none _) (by rintro d ⟨es, h⟩; cases h) id

theorem ternary_gives (hf : s.Faithful u operand) : Gives u s.ternary (s.Shown u operand .ternary) := by
  refine Gives.imp (Gives.bind (value_gives hf _ _ _) fun c => Gives.bind (value_gives hf _ _ _) fun a =>
    Gives.bind (value_gives hf _ _ _) fun b => Gives.pure _) ?_
  rintro o ⟨c, hc, a, ha, b, hb, rfl⟩
  have hz := hc.written (written_false _) (by decide)
  have hx := ha.written (written_none _) (by decide)
  have hy := hb.written (written_none _) (by decide)
  exact shown_of_written rfl (hx.conditional hz hy) (by rintro d ⟨es, h⟩; cases h) id

theorem text_gives : Gives u s.text (s.Shown u operand .text) := by
  refine (Gives.pure _).imp ?_
  rintro o rfl
  exact shown_of_written rfl (Written.quote _) (by rintro d ⟨es, h⟩; cases h) id

theorem connection_entry {t : String} {op : Connective} (h : (t, op) ∈ connectives) :
    ∃ c, connectionTrees.lookup t = some c ∧ op.word = c.word ∧ op.kind = c.kind ∧
      ∀ r, Written r op.neutral (neutral c) := by
  simp only [connectives, List.mem_cons, List.not_mem_nil, or_false, Prod.mk.injEq] at h
  obtain ⟨rfl, rfl⟩ | ⟨rfl, rfl⟩ := h
  · exact ⟨.both, rfl, rfl, rfl, written_true⟩
  · exact ⟨.either, rfl, rfl, rfl, written_false⟩

/-- Two rows around the word of a connection are the connection, and one row again. -/
theorem shown_of_rows {c : Connection} {a b : String} {x y : Expr}
    (ht : s.tree? u (s.operandAt operand) .logic = some (.join c x y)) (hx : WrittenRow c a (x.operands c))
    (hy : WrittenRow c b (y.operands c)) :
    s.Shown u operand .logic (.expression (a ++ " " ++ c.word ++ " " ++ b) c.kind.rank) := by
  obtain ⟨ts, hts, hd, hrow⟩ := hx.append hy
  have hw : Written c.kind.rank (a ++ " " ++ c.word ++ " " ++ b) (.join c x y) := ⟨ts, hts, hd⟩
  rw [Shown, ht]
  refine ⟨_, _, rfl, ⟨hw.mono (le_max_left _ _), ?_⟩, iff_of_true hw id⟩
  intro d es hes
  cases hes
  exact ⟨rfl, ts, hts, hrow⟩

theorem logic_gives (hf : s.Faithful u operand) : Gives u s.logic (s.Shown u operand .logic) := by
  refine Gives.imp (Gives.bind (compared_gives _ _ _) fun op => Gives.bind (value_gives hf _ _ _) fun a =>
    Gives.bind (value_gives hf _ _ _) fun b => Gives.pure _) ?_
  rintro o ⟨op, hop, a, ha, b, hb, rfl⟩
  obtain ⟨t, -, hmem, hother⟩ := of_compared hop
  obtain ⟨c, hc, hword, hkind, hneutral⟩ := connection_entry hmem
  rw [hkind] at ha hb
  have hempty : (a.isEmpty && b.isEmpty) = ((s.operandAt operand "A").isNone && (s.operandAt operand "B").isNone) := by
    rw [ha.isEmpty (by cases c <;> decide), hb.isEmpty (by cases c <;> decide)]
  have htree : s.tree? u (s.operandAt operand) .logic = some (.join c
      ((s.operandAt operand "A").getD (if a.isEmpty && b.isEmpty then .name "False" else neutral c))
      ((s.operandAt operand "B").getD (if a.isEmpty && b.isEmpty then .name "False" else neutral c))) := by
    rw [hempty]
    simp only [tree?, hother connectionTrees, hc, Option.map_some]
  have hmissing : Written c.kind.rank (if a.isEmpty && b.isEmpty then "False" else op.neutral)
      (if a.isEmpty && b.isEmpty then .name "False" else neutral c) := by
    split
    · exact written_false _
    · exact hneutral _
  have hconnect : ¬ (if a.isEmpty && b.isEmpty then .name "False" else neutral c : Expr).IsConnect c := by
    rintro ⟨es, h⟩
    split at h
    · cases h
    · cases c <;> cases h
  have hshown := shown_of_rows htree (ha.row hmissing hconnect) (hb.row hmissing hconnect)
  rw [← hword, ← hkind] at hshown
  exact hshown

theorem joined_append (sep p q : String) (ps : List String) :
    Text.joined sep (p :: q :: ps) = Text.joined sep ((p ++ sep ++ q) :: ps) := by
  cases ps <;> simp [Text.joined, String.append_assoc]

theorem written_sum {codes : List String} {es : List Expr}
    (h : List.Forall₂ (Written OperatorClass.functionCall.rank) codes es) {a : String} {x : Expr}
    (hx : Written OperatorClass.additive.rank a x) :
    Written OperatorClass.additive.rank (Text.joined " + " (a :: codes)) (es.foldl (.binary .plus) x) := by
  induction h generalizing a x with
  | nil => exact hx
  | cons hcode _ ih =>
    rw [joined_append]
    exact ih (hx.binary .plus _ rfl (hcode.mono (by decide)))

theorem sum_not_connect (es : List Expr) {x : Expr} {c : Connection} (hx : ¬ x.IsConnect c) :
    ¬ (es.foldl (.binary .plus) x).IsConnect c := by
  induction es generalizing x with
  | nil => exact hx
  | cons e es ih => exact ih (by rintro ⟨_, h⟩; cases h)

theorem shown_of_pieces {count : Int} {codes : List String} {es : List Expr} (hcount : es.length = count.toNat)
    (ht : s.tree? u (s.operandAt operand) .join = if count = 0 then some .empty else Expr.sum? es)
    (h : List.Forall₂ (Written OperatorClass.functionCall.rank) codes es) (hes : ∀ e ∈ es, ∀ c, ¬ e.IsConnect c) :
    s.Shown u operand .join (if count = 0 then Output.atom "''" else
      if count = 1 then Output.call (Text.joined " + " codes)
      else Output.ofClass (Text.joined " + " codes) .additive) := by
  by_cases hzero : count = 0
  · rw [if_pos hzero] at ht ⊢
    exact shown_of_written ht (written_empty _) (by rintro d ⟨es, h⟩; cases h) id
  rw [if_neg hzero] at ht ⊢
  cases h with
  | nil =>
    have hone : count ≠ 1 := by
      rintro rfl
      cases hcount
    rw [Shown, ht, if_neg hone]
    exact ⟨_, rfl⟩
  | @cons code e codes es hcode hrest =>
    split
    · rename_i hone
      subst hone
      obtain rfl : es = [] := by simpa using hcount
      cases hrest
      exact shown_of_written ht hcode (hes e (by simp)) id
    · refine shown_of_written ht (written_sum hrest (hcode.mono (by decide))) ?_ id
      exact fun c => sum_not_connect es (hes e (by simp) c)

theorem join_gives (hf : s.Faithful u operand) : Gives u s.join (s.Shown u operand .join) := by
  unfold join
  cases hp : s.pieceCount with
  | error f => exact Gives.throw _ _
  | ok count =>
    let piece (k : Nat) : Expr := .call (.name "str") [(s.operandAt operand ("ADD" ++ toString k)).getD .empty]
    have hpiece : ∀ k : Nat, Gives u (do return "str(" ++ (← s.value ("ADD" ++ toString k) .none "''") ++ ")" : Run String)
        fun code => Written OperatorClass.functionCall.rank code (piece k) := by
      intro k
      refine Gives.imp (Gives.bind (value_gives hf _ _ _) fun a => Gives.pure _) ?_
      rintro code ⟨a, ha, rfl⟩
      have hw := (Written.word (s := "str") rfl (by decide) _).call [a]
        (.cons (ha.written (written_empty _) (by decide)) .nil)
      exact hw.congr (by simp [Text.joined])
    refine Gives.imp (Gives.bind (Gives.mapM _ fun k _ => hpiece k) (Q := fun pieces o => o =
      if count = 0 then Output.atom "''" else if count = 1 then Output.call (Text.joined " + " pieces)
      else Output.ofClass (Text.joined " + " pieces) .additive) fun pieces => ?_) ?_
    · split
      · exact Gives.pure _
      · split <;> exact Gives.pure _
    · rintro o ⟨pieces, hpieces, rfl⟩
      have hwritten : List.Forall₂ (Written OperatorClass.functionCall.rank) pieces
          ((List.range count.toNat).map piece) := List.forall₂_map_right_iff.mpr (List.Forall₂.flip hpieces)
      refine shown_of_pieces (by simp) (by simp only [tree?, hp]; rfl) hwritten ?_
      intro e he c hc
      obtain ⟨k, -, rfl⟩ := List.mem_map.mp he
      obtain ⟨es, hes⟩ := hc
      cases hes

theorem length_gives (hf : s.Faithful u operand) : Gives u s.length (s.Shown u operand .length) := by
  refine Gives.imp (Gives.bind (value_gives hf _ _ _) fun a => Gives.pure _) ?_
  rintro o ⟨a, ha, rfl⟩
  have hw := (Written.word (s := "len") rfl (by decide) _).call [a]
    (.cons (ha.written (written_empty _) (by decide)) .nil)
  exact shown_of_written rfl (hw.congr (by simp [Text.joined])) (by rintro d ⟨es, h⟩; cases h) id

theorem isEmpty_gives (hf : s.Faithful u operand) : Gives u s.isEmpty (s.Shown u operand .isEmpty) := by
  refine Gives.imp (Gives.bind (value_gives hf _ _ _) fun a => Gives.pure _) ?_
  rintro o ⟨a, ha, rfl⟩
  have hw := (Written.word (s := "len") rfl (by decide) _).call [a]
    (.cons (ha.written (written_empty _) (by decide)) .nil)
  exact shown_of_written rfl ((hw.mono (by decide)).negate.congr (by simp [Text.joined]))
    (by rintro d ⟨es, h⟩; cases h) id

theorem variableGet_gives : Gives u s.variableGet (s.Shown u operand .variableGet) := by
  refine Gives.imp (Gives.bind (identifier_gives _ _) fun a => Gives.pure _) ?_
  rintro o ⟨x, ⟨hu, hname⟩, rfl⟩
  exact shown_of_written (by simp [tree?, hu]) (hname.written _) (by rintro d ⟨es, h⟩; cases h) id

theorem cast_known {t f : String} (h : (t, f) ∈ casts) : Written OperatorClass.functionCall.rank f (.name f) := by
  simp only [casts, List.mem_cons, List.not_mem_nil, or_false, Prod.mk.injEq] at h
  obtain ⟨-, rfl⟩ | ⟨-, rfl⟩ | ⟨-, rfl⟩ | ⟨-, rfl⟩ | ⟨-, rfl⟩ | ⟨-, rfl⟩ | ⟨-, rfl⟩ := h <;>
    exact Written.word rfl (by decide) _

theorem cast_gives (hf : s.Faithful u operand) : Gives u s.cast (s.Shown u operand .cast) := by
  refine Gives.imp (Gives.bind (select_gives _ _ _) fun f => Gives.bind (value_gives hf _ _ _) fun a =>
    Gives.pure _) ?_
  rintro o ⟨f, hc, a, ha, rfl⟩
  obtain ⟨t, -, hmem, -⟩ := of_compared hc
  have hw := (cast_known hmem).call [a] (.cons (ha.written (written_zero _) (by decide)) .nil)
  exact shown_of_written (by simp [tree?, hc]) (hw.congr (by simp [Text.joined])) (by rintro d ⟨es, h⟩; cases h) id

theorem arguments_gives : Gives u s.arguments fun names => s.block.arguments = .ok names := by
  unfold arguments
  cases s.block.arguments with
  | error f => exact Gives.throw _ _
  | ok names =>
    refine (Gives.pure names).imp ?_
    rintro _ rfl
    rfl

theorem callValue_gives (hf : s.Faithful u operand) : Gives u s.callValue (s.Shown u operand .callValue) := by
  refine Gives.imp (Gives.bind (Gives.bind (identifier_gives _ _) fun x => Gives.bind arguments_gives fun names =>
    Gives.bind (Gives.mapM _ fun k _ => value_gives hf _ _ _) fun codes => Gives.pure _) fun _ => Gives.pure _) ?_
  rintro o ⟨_, ⟨x, ⟨hu, hname⟩, names, hnames, codes, hcodes, rfl⟩, rfl⟩
  have hgiven : List.Forall₂ (Written OperatorClass.none.rank) codes ((List.range names.length).map fun k =>
      (s.operandAt operand ("ARG" ++ toString k)).getD (.name "None")) := by
    refine List.forall₂_map_right_iff.mpr (hcodes.flip.imp fun code k hcode => ?_)
    exact SlotText.written hcode (written_none _) (by decide)
  exact shown_of_written (by simp [tree?, hnames, hu]) ((hname.written _).call codes hgiven)
    (by rintro d ⟨es, h⟩; cases h) id

/-- A method call on the object of a device. -/
theorem written_method {x method : String} {d : Device} {pin : Value}
    (hu : u.nameOf ⟨.generated, .text (d.object ++ pin.toText)⟩ = .name x) (hx : IsName x) (hm : IsName method) :
    Written OperatorClass.functionCall.rank (x ++ "." ++ method ++ "()") (deviceCall u d pin method) := by
  have hw := (hx.member hm).call [] .nil
  rw [deviceCall, hu]
  exact hw.congr (by simp [Text.joined])

theorem deviceCall_not_connect (d : Device) (pin : Value) (method : String) (c : Connection) :
    ¬ (deviceCall u d pin method).IsConnect c := by
  rintro ⟨es, h⟩
  cases h

theorem digitalRead_gives : Gives u s.digitalRead (s.Shown u operand .digitalRead) := by
  refine Gives.imp (Gives.bind (Gives.skip (Session.grows_steps.pin _ _ _ _)) fun _ =>
    Gives.bind (Device.use_gives _ _) fun x => Gives.pure _) ?_
  rintro o ⟨_, -, x, ⟨hu, hname⟩, rfl⟩
  have hmethod : IsName "value" := ⟨⟨'v', _, rfl, by decide, List.all_eq_true.mp (by decide)⟩, by decide⟩
  exact shown_of_written rfl ((written_method hu hname hmethod).congr (by simp)) (deviceCall_not_connect _ _ _) id

theorem analogRead_gives : Gives u s.analogRead (s.Shown u operand .analogRead) := by
  refine Gives.imp (Gives.bind (Gives.skip (Session.grows_steps.pin _ _ _ _)) fun _ =>
    Gives.bind (Device.use_gives _ _) fun x => Gives.pure _) ?_
  rintro o ⟨_, -, x, ⟨hu, hname⟩, rfl⟩
  have hmethod : IsName "read" := ⟨⟨'r', _, rfl, by decide, List.all_eq_true.mp (by decide)⟩, by decide⟩
  exact shown_of_written rfl ((written_method hu hname hmethod).congr (by simp)) (deviceCall_not_connect _ _ _) id

theorem servoRead_gives : Gives u s.servoRead (s.Shown u operand .servoRead) := by
  refine Gives.imp (Gives.bind (Gives.skip (Session.grows_steps.pin _ _ _ _)) fun _ =>
    Gives.bind (Device.use_gives _ _) fun x => Gives.pure _) ?_
  rintro o ⟨_, -, x, ⟨hu, hname⟩, rfl⟩
  have hmethod : IsName "duty" := ⟨⟨'d', _, rfl, by decide, List.all_eq_true.mp (by decide)⟩, by decide⟩
  have hduty := written_method hu hname hmethod
  have hshift := (hduty.mono (by decide)).binary .minus _ rfl (Written.digits (s := toString dutyMin) rfl _)
  have hscale := (hshift.parens.mono (by decide)).binary .times _ rfl (Written.digits (s := toString maxAngle) rfl _)
  have hangle := hscale.binary .divide _ rfl (Written.digits (s := toString dutySpan) rfl _)
  have hint : Written OperatorClass.functionCall.rank "int" (.name "int") := Written.word rfl (by decide) _
  have hw := hint.call [_] (.cons (hangle.mono (by decide)) .nil)
  exact shown_of_written rfl (hw.congr (by simp [Text.joined, BinaryOp.symbol])) (by rintro d ⟨es, h⟩; cases h) id

theorem level_gives : Gives u s.level (s.Shown u operand .level) := by
  refine Gives.imp (Gives.bind (compared_gives _ _ _) fun a =>
    Gives.bind (Gives.skip (Session.grows_steps.fragment _ _ _ _)) fun _ =>
    Gives.bind (Gives.skip (Session.grows_steps.fragment _ _ _ _)) fun _ => Gives.pure _) ?_
  rintro o ⟨a, ha, _, -, _, -, rfl⟩
  obtain ⟨t, -, hmem, -⟩ := of_compared ha
  have hw : Written OperatorClass.atomic.rank a (.name a) := by
    simp only [List.mem_cons, List.not_mem_nil, or_false, Prod.mk.injEq] at hmem
    obtain ⟨-, rfl⟩ | ⟨-, rfl⟩ := hmem <;> exact Written.word rfl (by decide) _
  exact shown_of_written (by simp [tree?, ha]) hw (by rintro d ⟨es, h⟩; cases h) id

theorem pulse_gives (hf : s.Faithful u operand) (timeout : Bool) :
    Gives u (s.pulse timeout) (s.Shown u operand (.pulse timeout)) := by
  have hpulse : Written OperatorClass.functionCall.rank "time_pulse_us" (.name "time_pulse_us") :=
    Written.word rfl (by decide) _
  cases timeout with
  | false =>
    refine Gives.imp (Gives.bind (value_gives hf _ _ _) fun a =>
      Gives.bind (Gives.skip (Session.grows_steps.pin _ _ _ _)) fun _ =>
      Gives.bind (Gives.skip (Session.grows_steps.fragment _ _ _ _)) fun _ =>
      Gives.bind (Device.use_gives _ _) fun x => Gives.bind (Gives.pure "") fun _ => Gives.pure _) ?_
    rintro o ⟨a, ha, _, -, _, -, x, ⟨hu, hname⟩, _, rfl, rfl⟩
    have hlevel := ha.written (Written.digits (s := "1") rfl _) (by decide)
    have hw := hpulse.call [x, a] (.cons (hname.written _) (.cons hlevel .nil))
    exact shown_of_written (by simp [tree?, hu]) (hw.congr (by simp [Text.joined])) (by rintro d ⟨es, h⟩; cases h) id
  | true =>
    refine Gives.imp (Gives.bind (value_gives hf _ _ _) fun a =>
      Gives.bind (Gives.skip (Session.grows_steps.pin _ _ _ _)) fun _ =>
      Gives.bind (Gives.skip (Session.grows_steps.fragment _ _ _ _)) fun _ =>
      Gives.bind (Device.use_gives _ _) fun x =>
      Gives.bind (value_gives hf _ _ _) fun b => Gives.bind (Gives.pure _) fun _ => Gives.pure _) ?_
    rintro o ⟨a, ha, _, -, _, -, x, ⟨hu, hname⟩, b, hb, _, rfl, rfl⟩
    have hlevel := ha.written (Written.digits (s := "1") rfl _) (by decide)
    have hlimit := hb.written (Written.digits (s := "1000000") rfl _) (by decide)
    have hw := hpulse.call [x, a, b] (.cons (hname.written _) (.cons hlevel (.cons hlimit .nil)))
    exact shown_of_written (by simp [tree?, hu]) (hw.congr (by simp [Text.joined])) (by rintro d ⟨es, h⟩; cases h) id

theorem standard_gives (hf : s.Faithful u operand) {kind : BlockKind} (hk : kind.isValue = true) :
    Gives u (s.standard kind) (s.Shown u operand kind) := by
  cases kind with
  | number => exact number_gives
  | arithmetic => exact arithmetic_gives hf
  | unary family => exact unary_gives hf family
  | constant => exact constant_gives
  | property => exact property_gives hf
  | modulo => exact modulo_gives hf
  | constrain => exact constrain_gives hf
  | randomWhole => exact randomWhole_gives hf
  | randomFraction => exact randomFraction_gives
  | compare => exact compare_gives hf
  | logic => exact logic_gives hf
  | negate => exact negate_gives hf
  | boolean => exact boolean_gives
  | null => exact null_gives
  | ternary => exact ternary_gives hf
  | text => exact text_gives
  | join => exact join_gives hf
  | length => exact length_gives hf
  | isEmpty => exact isEmpty_gives hf
  | variableGet => exact variableGet_gives
  | cast => exact cast_gives hf
  | rescale => exact rescale_gives hf
  | clockMillis => exact clock_gives (written_dotted rfl (by decide) (by decide)) rfl id
  | clockMicros => exact clock_gives (written_dotted rfl (by decide) (by decide)) rfl id
  | callValue => exact callValue_gives hf
  | digitalRead => exact digitalRead_gives
  | level => exact level_gives
  | analogRead => exact analogRead_gives
  | pulse timeout => exact pulse_gives hf timeout
  | servoRead => exact servoRead_gives
  | blankValue =>
    refine (Gives.pure _).imp ?_
    rintro o rfl
    exact ⟨_, rfl⟩
  | _ => cases hk

end Scene

end BlockScript
