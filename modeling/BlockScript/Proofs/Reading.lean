import BlockScript.Proofs.Grammar

namespace BlockScript

/-- What a token that stands behind an operand goes on with. -/
inductive Joint where
  | member
  | call
  | binary (op : BinaryOp)
  | comparison (s : String)
  | connection (c : Connection)
  | condition
deriving DecidableEq

namespace Joint

def level : Joint → Nat
  | member => OperatorClass.member.level
  | call => OperatorClass.functionCall.level
  | .binary op => op.kind.level
  | comparison _ => OperatorClass.relational.level
  | connection c => c.kind.level
  | condition => OperatorClass.conditional.level

end Joint

def Token.joint? : Token → Option Joint
  | .word s =>
    if s = "and" then some (.connection .both)
    else if s = "or" then some (.connection .either)
    else if s = "if" then some .condition
    else none
  | .symbol s =>
    if s = "." then some .member
    else if s = "(" then some .call
    else if s ∈ comparisonSymbols then some (.comparison s)
    else (BinaryOp.all.find? (·.symbol = s)).map .binary
  | _ => none

/-- The level of the phrases that the token opens as an operator in front of its operand. -/
def Token.opens (t : Token) (r : Nat) : Option (Expr → Expr) :=
  match t with
  | .symbol s => if r = OperatorClass.unarySign.level ∧ s ∈ signs then some (.sign s) else none
  | .word s => if r = OperatorClass.logicalNot.level ∧ s = "not" then some .negate else none
  | _ => none

def opened (r : Nat) : List Token → Option ((Expr → Expr) × List Token)
  | [] => none
  | t :: ts => (t.opens r).map (·, ts)

mutual

/-- Reads a phrase of a level from the front of a row of tokens, with at most so many calls inside one another. -/
def readPhrase : Nat → Nat → List Token → Option (Expr × List Token)
  | 0, _, _ => none
  | depth + 1, r, ts =>
    match opened r ts with
    | some (op, us) => do
      let (e, rest) ← readPhrase depth r us
      some (op e, rest)
    | none =>
      match r with
      | 0 =>
        match ts with
        | .word s :: rest => if IsOperand s then some (.name s, rest) else none
        | .numeral s :: rest => some (.numeral s, rest)
        | .text s :: rest => some (.text s, rest)
        | .symbol s :: rest =>
          if s = "(" then do
            let (e, rest) ← readPhrase depth OperatorClass.conditional.level rest
            match rest with
            | .symbol ")" :: rest => some (e, rest)
            | _ => none
          else none
        | [] => none
      | q + 1 => do
        let (e, rest) ← readPhrase depth q ts
        readOn depth (q + 1) e rest

/-- Goes on behind a phrase with what belongs to the level. -/
def readOn : Nat → Nat → Expr → List Token → Option (Expr × List Token)
  | 0, _, _, _ => none
  | _ + 1, _, e, [] => some (e, [])
  | depth + 1, r, e, t :: rest =>
    match t.joint? with
    | none => some (e, t :: rest)
    | some j =>
      if j.level = r then
        match j with
        | .member =>
          match rest with
          | .word s :: rest => readOn depth r (.member e s) rest
          | _ => none
        | .call => do
          let (args, rest) ← readArguments depth rest
          readOn depth r (.call e args) rest
        | .binary op => do
          let (b, rest) ← readPhrase depth op.right rest
          if op = .power then some (.binary op e b, rest) else readOn depth r (.binary op e b) rest
        | .comparison s => do
          let (b, rest) ← readPhrase depth OperatorClass.bitwiseOr.level rest
          readComparisons depth e [(s, b)] rest
        | .connection c => do
          let (b, rest) ← readPhrase depth (c.kind.level - 1) rest
          readConnection depth c [e, b] rest
        | .condition => do
          let (c, rest) ← readPhrase depth OperatorClass.logicalOr.level rest
          match rest with
          | .word "else" :: rest => do
            let (b, rest) ← readPhrase depth OperatorClass.conditional.level rest
            some (.conditional e c b, rest)
          | _ => none
      else some (e, t :: rest)

def readArguments : Nat → List Token → Option (List Expr × List Token)
  | 0, _ => none
  | depth + 1, ts =>
    match ts with
    | .symbol ")" :: rest => some ([], rest)
    | ts => do
      let (e, rest) ← readPhrase depth OperatorClass.conditional.level ts
      match rest with
      | .symbol "," :: rest => do
        let (es, rest) ← readArguments depth rest
        some (e :: es, rest)
      | .symbol ")" :: rest => some ([e], rest)
      | _ => none

def readComparisons : Nat → Expr → List (String × Expr) → List Token → Option (Expr × List Token)
  | 0, _, _, _ => none
  | depth + 1, a, found, ts =>
    match ts with
    | .symbol s :: rest =>
      if s ∈ comparisonSymbols then do
        let (b, rest) ← readPhrase depth OperatorClass.bitwiseOr.level rest
        readComparisons depth a (found ++ [(s, b)]) rest
      else some (.compare a found, .symbol s :: rest)
    | rest => some (.compare a found, rest)

def readConnection : Nat → Connection → List Expr → List Token → Option (Expr × List Token)
  | 0, _, _, _ => none
  | depth + 1, c, found, ts =>
    match ts with
    | .word s :: rest =>
      if s = c.word then do
        let (b, rest) ← readPhrase depth (c.kind.level - 1) rest
        readConnection depth c (found ++ [b]) rest
      else some (.connect c found, .word s :: rest)
    | rest => some (.connect c found, rest)

end

/-- What holds at every depth that is large enough. -/
def Deep (p : Nat → Prop) : Prop :=
  ∃ k, ∀ m, k ≤ m → p m

namespace Deep

variable {p q : Nat → Prop}

theorem of_succ (h : ∀ m, p (m + 1)) : Deep p := by
  refine ⟨1, fun m hm => ?_⟩
  obtain ⟨m, rfl⟩ := Nat.exists_eq_add_of_le' hm
  exact h m

theorem step (h : Deep p) (hq : ∀ m, p m → q (m + 1)) : Deep q := by
  obtain ⟨k, hk⟩ := h
  refine ⟨k + 1, fun m hm => ?_⟩
  obtain ⟨l, rfl⟩ := Nat.exists_eq_add_of_le' hm
  exact hq (l + k) (hk (l + k) (by omega))

theorem and (hp : Deep p) (hq : Deep q) : Deep fun m => p m ∧ q m := by
  obtain ⟨k, hk⟩ := hp
  obtain ⟨l, hl⟩ := hq
  exact ⟨k + l, fun m hm => ⟨hk m (by omega), hl m (by omega)⟩⟩

end Deep

/-- Nothing in front of the level goes on with an operand that the tokens stand behind. -/
def Free (r : Nat) : List Token → Prop
  | [] => True
  | t :: _ => ∀ j, t.joint? = some j → r ≤ j.level

theorem Free.mono {q r : Nat} {ts : List Token} (h : Free r ts) (hq : q ≤ r) : Free q ts := by
  cases ts with
  | nil => trivial
  | cons t ts =>
    intro j hj
    exact Nat.le_trans hq (h j hj)

theorem readOn_of_free {r : Nat} {e : Expr} {ts : List Token} (h : Free (r + 1) ts) :
    Deep fun m => readOn m r e ts = some (e, ts) := by
  apply Deep.of_succ
  intro m
  cases ts with
  | nil => rw [readOn]
  | cons t ts =>
    rw [readOn.eq_def]
    dsimp only
    cases hj : t.joint? with
    | none => rfl
    | some j =>
      have hlevel := h j hj
      have hne : j.level ≠ r := by omega
      exact if_neg hne

/-- The first token of a phrase opens no phrase of a looser level, and it closes no list. -/
theorem Derives.head {r : Nat} {ts : List Token} {e : Expr} (h : Derives r ts e) :
    ∃ t us, ts = t :: us ∧ t ≠ .symbol ")" ∧ ∀ q, r < q → t.opens q = none := by
  induction h with
  | @name s hs =>
    refine ⟨.word s, [], rfl, by simp, fun q hq => ?_⟩
    have hne : s ≠ "not" := by
      rintro rfl
      revert hs
      decide
    simp [Token.opens, hne]
  | numeral s => exact ⟨.numeral s, [], rfl, by simp, fun q hq => rfl⟩
  | text s => exact ⟨.text s, [], rfl, by simp, fun q hq => rfl⟩
  | group _ _ =>
    refine ⟨_, _, rfl, by simp, fun q hq => ?_⟩
    simp [Token.opens, signs]
  | member _ _ ih | call _ _ _ ih _ =>
    obtain ⟨t, us, rfl, ht, hq⟩ := ih
    exact ⟨t, _, rfl, ht, hq⟩
  | @binary op _ _ _ _ _ _ ih _ =>
    obtain ⟨t, us, rfl, ht, hq⟩ := ih
    have hleft : op.left ≤ op.kind.level := by cases op <;> decide
    exact ⟨t, _, rfl, ht, fun q h => hq q (by omega)⟩
  | sign hs _ _ =>
    refine ⟨_, _, rfl, ?_, fun q hq => ?_⟩
    · rintro h
      cases h
      revert hs
      decide
    · have hne : q ≠ OperatorClass.unarySign.level := by omega
      simp [Token.opens, hne]
  | compare _ _ _ _ _ ih _ | conditional _ _ _ ih _ _ =>
    obtain ⟨t, us, rfl, ht, hq⟩ := ih
    refine ⟨t, _, rfl, ht, fun q h => hq q (Nat.lt_trans ?_ h)⟩
    decide
  | negate _ _ =>
    refine ⟨_, _, rfl, by simp, fun q hq => ?_⟩
    have hne : q ≠ OperatorClass.logicalNot.level := by omega
    simp [Token.opens, hne]
  | @connect c _ _ _ _ _ _ ih _ =>
    obtain ⟨t, us, rfl, ht, hq⟩ := ih
    exact ⟨t, _, rfl, ht, fun q h => hq q (by omega)⟩
  | looser _ ih =>
    obtain ⟨t, us, rfl, ht, hq⟩ := ih
    exact ⟨t, us, rfl, ht, fun q h => hq q (by omega)⟩

/-- The reader finds exactly the phrase in front of tokens that do not go on with it. -/
def Found (r : Nat) (ts : List Token) (e : Expr) : Prop :=
  ∀ rest, Free (r + 1) rest → Deep fun m => readPhrase m r (ts ++ rest) = some (e, rest)

/-- The levels whose phrases group to the left. -/
def Leftward (r : Nat) : Prop :=
  r = OperatorClass.functionCall.level ∨
    OperatorClass.multiplicative.level ≤ r ∧ r ≤ OperatorClass.bitwiseOr.level

/-- The reader goes on behind the phrase with what belongs to its level. -/
def Leads (r : Nat) (ts : List Token) (e : Expr) : Prop :=
  ∀ rest v, Free r rest → (Deep fun m => readOn m r e rest = some v) → Deep fun m => readPhrase m r (ts ++ rest) = some v

theorem Leads.found {r : Nat} {ts : List Token} {e : Expr} (h : Leads r ts e) : Found r ts e := by
  intro rest hrest
  exact h rest _ (hrest.mono (Nat.le_succ r)) (readOn_of_free hrest)

/-- What is read at a level is an operand at the next one. -/
theorem Found.leads {r : Nat} {ts : List Token} {e : Expr} (h : Found r ts e) (hd : Derives r ts e) :
    Leads (r + 1) ts e := by
  intro rest v hrest hon
  obtain ⟨t, us, rfl, -, hopens⟩ := hd.head
  have hopened : opened (r + 1) (t :: us ++ rest) = none := by
    simp [opened, hopens (r + 1) (Nat.lt_succ_self r)]
  refine ((h rest hrest).and hon).step fun m ⟨hread, hon⟩ => ?_
  rw [readPhrase.eq_def]
  dsimp only
  simp only [hopened]
  rw [hread]
  exact hon

theorem Free.sign {rest : List Token} (h : Free OperatorClass.unarySign.level rest) :
    Free (OperatorClass.unarySign.level + 1) rest := by
  cases rest with
  | nil => trivial
  | cons t rest =>
    intro j hj
    have hle := h j hj
    have hne : j.level ≠ OperatorClass.unarySign.level := by
      cases j with
      | binary op => cases op <;> decide
      | connection c => cases c <;> decide
      | comparison s => exact show OperatorClass.relational.level ≠ _ by decide
      | _ => decide
    omega

theorem joint_binary (op : BinaryOp) : (Token.symbol op.symbol).joint? = some (.binary op) := by
  cases op <;> rfl

theorem joint_comparison {s : String} (hs : s ∈ comparisonSymbols) :
    (Token.symbol s).joint? = some (.comparison s) := by
  simp only [comparisonSymbols, List.mem_cons, List.not_mem_nil, or_false] at hs
  obtain rfl | rfl | rfl | rfl | rfl | rfl := hs <;> rfl

theorem joint_connection (c : Connection) : (Token.word c.word).joint? = some (.connection c) := by
  cases c <;> rfl

theorem free_of_joint {t : Token} {j : Joint} (hj : t.joint? = some j) {r : Nat} (hr : r ≤ j.level)
    (rest : List Token) : Free r (t :: rest) := by
  intro j' hj'
  rw [hj] at hj'
  cases hj'
  exact hr

theorem free_of_no_joint {t : Token} (hj : t.joint? = none) (r : Nat) (rest : List Token) :
    Free r (t :: rest) := by
  intro j hj'
  rw [hj] at hj'
  cases hj'

theorem readArguments_listed {items : List (List Token × Expr)}
    (hd : ∀ p ∈ items, Derives OperatorClass.conditional.level p.1 p.2)
    (hf : ∀ p ∈ items, Found OperatorClass.conditional.level p.1 p.2) (rest : List Token) :
    Deep fun m => readArguments m (listed (items.map (·.1)) ++ .symbol ")" :: rest) = some (items.map (·.2), rest) := by
  induction items with
  | nil => exact Deep.of_succ fun m => rfl
  | cons p items ih =>
    obtain ⟨t, us, hp, hne, -⟩ := (hd p (by simp)).head
    have hfirst := hf p (by simp)
    cases items with
    | nil =>
      refine (hfirst (.symbol ")" :: rest) (free_of_no_joint rfl _ _)).step fun m hread => ?_
      rw [readArguments.eq_def]
      dsimp only
      simp only [List.map_cons, List.map_nil, listed, hp, List.cons_append] at hread ⊢
      split
      · rename_i heq
        simp at heq
        exact absurd heq.1 hne
      · rw [hread]
        rfl
    | cons q items =>
      have hread := hfirst (.symbol "," :: (listed ((q :: items).map (·.1)) ++ .symbol ")" :: rest))
        (free_of_no_joint rfl _ _)
      have hrest := ih (fun p h => hd p (List.mem_cons_of_mem _ h)) (fun p h => hf p (List.mem_cons_of_mem _ h))
      refine (hread.and hrest).step fun m ⟨hread, hrest⟩ => ?_
      rw [readArguments.eq_def]
      dsimp only
      simp only [List.map_cons, listed, hp, List.cons_append, List.append_assoc] at hread hrest ⊢
      split
      · rename_i heq
        simp at heq
        exact absurd heq.1 hne
      · rw [hread]
        simp only [bind, Option.bind, hrest]

theorem free_compared {items : List (String × List Token × Expr)} (hs : ∀ p ∈ items, p.1 ∈ comparisonSymbols)
    {rest : List Token} (hrest : Free OperatorClass.relational.level rest) :
    Free OperatorClass.relational.level (compared items ++ rest) := by
  cases items with
  | nil => exact hrest
  | cons p items => exact free_of_joint (joint_comparison (hs p (by simp))) (Nat.le_refl _) _

theorem readComparisons_compared {a : Expr} {items : List (String × List Token × Expr)}
    (hs : ∀ p ∈ items, p.1 ∈ comparisonSymbols)
    (hf : ∀ p ∈ items, Found OperatorClass.bitwiseOr.level p.2.1 p.2.2) {rest : List Token}
    (hrest : Free (OperatorClass.relational.level + 1) rest) (found : List (String × Expr)) :
    Deep fun m => readComparisons m a found (compared items ++ rest) =
      some (.compare a (found ++ items.map fun p => (p.1, p.2.2)), rest) := by
  induction items generalizing found with
  | nil =>
    apply Deep.of_succ
    intro m
    simp only [compared, List.flatMap_nil, List.nil_append, List.map_nil, List.append_nil]
    rw [readComparisons.eq_def]
    dsimp only
    split
    · rename_i s ts
      have hne : s ∉ comparisonSymbols := by
        intro hmem
        have := hrest _ (joint_comparison hmem)
        simp only [Joint.level] at this
        omega
      rw [if_neg hne]
    · rfl
  | cons p items ih =>
    obtain ⟨s, us, b⟩ := p
    have hmem : s ∈ comparisonSymbols := hs (s, us, b) (by simp)
    have htail := free_compared (fun p h => hs p (List.mem_cons_of_mem _ h)) (hrest.mono (Nat.le_succ _))
    have hread := hf (s, us, b) (by simp) (compared items ++ rest) htail
    have hmore := ih (fun p h => hs p (List.mem_cons_of_mem _ h)) (fun p h => hf p (List.mem_cons_of_mem _ h)) (found ++ [(s, b)])
    refine (hread.and hmore).step fun m ⟨hread, hmore⟩ => ?_
    rw [readComparisons.eq_def]
    dsimp only
    simp only [compared, List.flatMap_cons, List.cons_append, List.append_assoc, if_pos hmem] at hread hmore ⊢
    rw [hread]
    simp only [bind, Option.bind]
    rw [hmore]
    simp

theorem free_chained (c : Connection) (tss : List (List Token)) {rest : List Token}
    (hrest : Free c.kind.level rest) : Free c.kind.level (chained c tss ++ rest) := by
  cases tss with
  | nil => exact hrest
  | cons ts tss => exact free_of_joint (joint_connection c) (Nat.le_refl _) _

theorem readConnection_chained {c : Connection} {items : List (List Token × Expr)}
    (hf : ∀ p ∈ items, Found (c.kind.level - 1) p.1 p.2) {rest : List Token}
    (hrest : Free (c.kind.level + 1) rest) (found : List Expr) :
    Deep fun m => readConnection m c found (chained c (items.map (·.1)) ++ rest) =
      some (.connect c (found ++ items.map (·.2)), rest) := by
  induction items generalizing found with
  | nil =>
    apply Deep.of_succ
    intro m
    simp only [chained, List.map_nil, List.flatMap_nil, List.nil_append, List.append_nil]
    rw [readConnection.eq_def]
    dsimp only
    split
    · rename_i s ts
      have hne : s ≠ c.word := by
        rintro rfl
        have := hrest _ (joint_connection c)
        simp only [Joint.level] at this
        omega
      rw [if_neg hne]
    · rfl
  | cons p items ih =>
    have hlevel : c.kind.level - 1 + 1 = c.kind.level := by cases c <;> rfl
    have htail := free_chained c (items.map (·.1)) (hrest.mono (Nat.le_succ _))
    have hread := hf p (by simp) (chained c (items.map (·.1)) ++ rest) (by rw [hlevel]; exact htail)
    have hmore := ih (fun p h => hf p (List.mem_cons_of_mem _ h)) (found ++ [p.2])
    refine (hread.and hmore).step fun m ⟨hread, hmore⟩ => ?_
    rw [readConnection.eq_def]
    dsimp only
    simp only [chained, List.map_cons, List.flatMap_cons, List.cons_append, List.append_assoc, if_true] at hread hmore ⊢
    rw [hread]
    simp only [bind, Option.bind]
    rw [hmore]
    simp

/-- All operators but the power group to the left. -/
theorem BinaryOp.leftward {op : BinaryOp} (h : op ≠ .power) :
    op.left = op.kind.level ∧ op.right + 1 = op.kind.level ∧ Leftward op.kind.level := by
  unfold Leftward
  cases op <;> first | exact absurd rfl h | decide

theorem leads_binary {op : BinaryOp} (hop : op ≠ .power) {ts us : List Token} {a b : Expr}
    (ha : Leads op.kind.level ts a) (hb : Found op.right us b) :
    Leads op.kind.level (ts ++ .symbol op.symbol :: us) (.binary op a b) := by
  intro rest v hrest hon
  obtain ⟨-, hright, -⟩ := BinaryOp.leftward hop
  have hoperand := hb rest (by rw [hright]; exact hrest)
  simp only [List.append_assoc, List.cons_append]
  apply ha _ _ (free_of_joint (joint_binary op) (Nat.le_refl _) _)
  refine (hoperand.and hon).step fun m ⟨hoperand, hon⟩ => ?_
  rw [readOn.eq_def]
  dsimp only
  simp only [joint_binary, Joint.level, if_true, hoperand, bind, Option.bind, if_neg hop, hon]

theorem found_power {ts us : List Token} {a b : Expr} (hda : Derives BinaryOp.power.left ts a)
    (ha : Found BinaryOp.power.left ts a) (hb : Found BinaryOp.power.right us b) :
    Found BinaryOp.power.kind.level (ts ++ .symbol BinaryOp.power.symbol :: us) (.binary .power a b) := by
  intro rest hrest
  simp only [List.append_assoc, List.cons_append]
  apply ha.leads hda _ _ (free_of_joint (joint_binary .power) (Nat.le_refl _) _)
  refine (hb rest (Free.sign hrest)).step fun m hoperand => ?_
  rw [readOn.eq_def]
  dsimp only
  simp only [joint_binary]
  rw [if_pos (by decide), hoperand]
  rfl

theorem found_compare {ts : List Token} {a : Expr} {items : List (String × List Token × Expr)}
    (hda : Derives OperatorClass.bitwiseOr.level ts a) (ha : Found OperatorClass.bitwiseOr.level ts a)
    (hne : items ≠ []) (hs : ∀ p ∈ items, p.1 ∈ comparisonSymbols)
    (hf : ∀ p ∈ items, Found OperatorClass.bitwiseOr.level p.2.1 p.2.2) :
    Found OperatorClass.relational.level (ts ++ compared items)
      (.compare a (items.map fun p => (p.1, p.2.2))) := by
  intro rest hrest
  have hlow : Free OperatorClass.relational.level rest := hrest.mono (Nat.le_succ _)
  rw [List.append_assoc]
  apply ha.leads hda _ _ (free_compared hs hlow)
  cases items with
  | nil => exact absurd rfl hne
  | cons p items =>
    obtain ⟨s, us, b⟩ := p
    have hmem : s ∈ comparisonSymbols := hs (s, us, b) (by simp)
    have hs' : ∀ p ∈ items, p.1 ∈ comparisonSymbols := fun p hp => hs p (List.mem_cons_of_mem _ hp)
    have hoperand := hf (s, us, b) (by simp) (compared items ++ rest) (free_compared hs' hlow)
    have hmore := readComparisons_compared (a := a) hs' (fun p hp => hf p (List.mem_cons_of_mem _ hp)) hrest [(s, b)]
    have hsplit : compared ((s, us, b) :: items) ++ rest = .symbol s :: (us ++ (compared items ++ rest)) := by
      simp [compared]
    refine (hoperand.and hmore).step fun m ⟨hoperand, hmore⟩ => ?_
    rw [hsplit, readOn.eq_def]
    dsimp only
    simp only [joint_comparison hmem]
    rw [if_pos (show (Joint.comparison s).level = OperatorClass.bitwiseOr.level + 1 from rfl), hoperand]
    exact hmore

theorem found_connect {c : Connection} {ts : List Token} {a : Expr} {items : List (List Token × Expr)}
    (hda : Derives (c.kind.level - 1) ts a) (ha : Found (c.kind.level - 1) ts a) (hne : items ≠ [])
    (hf : ∀ p ∈ items, Found (c.kind.level - 1) p.1 p.2) :
    Found c.kind.level (ts ++ chained c (items.map (·.1))) (.connect c (a :: items.map (·.2))) := by
  intro rest hrest
  have hlevel : c.kind.level - 1 + 1 = c.kind.level := by cases c <;> rfl
  have hlow : Free c.kind.level rest := hrest.mono (Nat.le_succ _)
  have hread := ha.leads hda (chained c (items.map (·.1)) ++ rest)
  rw [hlevel] at hread
  rw [List.append_assoc]
  apply hread _ (free_chained c _ hlow)
  cases items with
  | nil => exact absurd rfl hne
  | cons p items =>
    have hoperand := hf p (by simp) (chained c (items.map (·.1)) ++ rest)
      (by rw [hlevel]; exact free_chained c _ hlow)
    have hmore := readConnection_chained (fun p hp => hf p (List.mem_cons_of_mem _ hp)) hrest [a, p.2]
    have hsplit : chained c ((p :: items).map (·.1)) ++ rest =
        .word c.word :: (p.1 ++ (chained c (items.map (·.1)) ++ rest)) := by
      simp [chained]
    refine (hoperand.and hmore).step fun m ⟨hoperand, hmore⟩ => ?_
    rw [hsplit, readOn.eq_def]
    dsimp only
    simp only [joint_connection, Joint.level, if_true, hoperand, bind, Option.bind]
    exact hmore

theorem found_conditional {ts us vs : List Token} {a c b : Expr}
    (hda : Derives OperatorClass.logicalOr.level ts a) (ha : Found OperatorClass.logicalOr.level ts a)
    (hc : Found OperatorClass.logicalOr.level us c) (hb : Found OperatorClass.conditional.level vs b) :
    Found OperatorClass.conditional.level (ts ++ .word "if" :: (us ++ .word "else" :: vs))
      (.conditional a c b) := by
  intro rest hrest
  have hcondition := hc (.word "else" :: (vs ++ rest)) (free_of_no_joint rfl _ _)
  have hother := hb rest hrest
  simp only [List.append_assoc, List.cons_append]
  apply ha.leads hda _ _ (free_of_joint (j := .condition) rfl (Nat.le_refl _) _)
  refine (hcondition.and hother).step fun m ⟨hcondition, hother⟩ => ?_
  rw [readOn.eq_def]
  dsimp only
  show (readPhrase _ _ _ >>= _) = _
  rw [hcondition]
  show (readPhrase _ _ _ >>= _) = _
  rw [hother]
  rfl

/-- Every phrase of the grammar is found by the reader. -/
theorem Derives.found_leads {r : Nat} {ts : List Token} {e : Expr} (h : Derives r ts e) :
    Found r ts e ∧ (Leftward r → Leads r ts e) := by
  induction h with
  | @name s hs =>
    refine ⟨fun rest _ => ?_, fun hl => absurd hl (by unfold Leftward; decide)⟩
    apply Deep.of_succ
    intro m
    rw [readPhrase.eq_def]
    dsimp only
    simp [opened, Token.opens, hs, OperatorClass.level, OperatorClass.rank]
  | numeral s =>
    refine ⟨fun rest _ => ?_, fun hl => absurd hl (by unfold Leftward; decide)⟩
    exact Deep.of_succ fun m => rfl
  | text s =>
    refine ⟨fun rest _ => ?_, fun hl => absurd hl (by unfold Leftward; decide)⟩
    exact Deep.of_succ fun m => rfl
  | @group ts e _ ih =>
    refine ⟨fun rest _ => ?_, fun hl => absurd hl (by unfold Leftward; decide)⟩
    refine (ih.1 (.symbol ")" :: rest) (free_of_no_joint rfl _ _)).step fun m hread => ?_
    rw [readPhrase.eq_def]
    dsimp only
    simp only [opened, Token.opens, List.cons_append, List.append_assoc, List.nil_append]
    rw [if_neg (by decide)]
    simp only [Option.map_none, if_true, hread, bind, Option.bind]
  | @member ts e s hd hs ih =>
    have hleads : Leads OperatorClass.member.level (ts ++ [.symbol ".", .word s]) (.member e s) := by
      intro rest v hrest hon
      simp only [List.append_assoc, List.cons_append, List.nil_append]
      apply ih.2 (Or.inl rfl) _ _ (free_of_joint (j := .member) rfl (Nat.le_refl _) _)
      refine hon.step fun m hon => ?_
      rw [readOn.eq_def]
      dsimp only
      exact hon
    exact ⟨hleads.found, fun _ => hleads⟩
  | @call ts f items hd hitems ih hf =>
    have hleads : Leads OperatorClass.functionCall.level
        (ts ++ .symbol "(" :: (listed (items.map (·.1)) ++ [.symbol ")"])) (.call f (items.map (·.2))) := by
      intro rest v hrest hon
      have hargs := readArguments_listed hitems (fun p hp => (hf p hp).1) rest
      simp only [List.append_assoc, List.cons_append, List.nil_append]
      apply ih.2 (Or.inl rfl) _ _ (free_of_joint (j := .call) rfl (Nat.le_refl _) _)
      refine (hargs.and hon).step fun m ⟨hargs, hon⟩ => ?_
      rw [readOn.eq_def]
      dsimp only
      show (readArguments _ _ >>= _) = _
      rw [hargs]
      exact hon
    exact ⟨hleads.found, fun _ => hleads⟩
  | @binary op ts us a b hda hdb iha ihb =>
    by_cases hop : op = .power
    · subst hop
      exact ⟨found_power hda iha.1 ihb.1, fun hl => absurd hl (by unfold Leftward; decide)⟩
    · obtain ⟨hleft, -, hlevel⟩ := BinaryOp.leftward hop
      rw [hleft] at iha
      have hleads := leads_binary hop (iha.2 hlevel) ihb.1
      exact ⟨hleads.found, fun _ => hleads⟩
  | @sign s ts e hs _ ih =>
    refine ⟨fun rest hrest => ?_, fun hl => absurd hl (by unfold Leftward; decide)⟩
    have hopened : opened OperatorClass.unarySign.level (.symbol s :: ts ++ rest) = some (.sign s, ts ++ rest) := by
      simp [opened, Token.opens, hs]
    refine (ih.1 rest hrest).step fun m hread => ?_
    rw [readPhrase.eq_def]
    dsimp only
    simp only [hopened]
    rw [hread]
    rfl
  | compare items hd hne hs _ ih hf =>
    exact ⟨found_compare hd ih.1 hne hs fun p hp => (hf p hp).1, fun hl => absurd hl (by unfold Leftward; decide)⟩
  | @negate ts e _ ih =>
    refine ⟨fun rest hrest => ?_, fun hl => absurd hl (by unfold Leftward; decide)⟩
    have hopened : opened OperatorClass.logicalNot.level (.word "not" :: ts ++ rest) = some (.negate, ts ++ rest) := by
      simp [opened, Token.opens]
    refine (ih.1 rest hrest).step fun m hread => ?_
    rw [readPhrase.eq_def]
    dsimp only
    simp only [hopened]
    rw [hread]
    rfl
  | connect c items hd hne _ ih hf =>
    refine ⟨found_connect hd ih.1 hne fun p hp => (hf p hp).1, fun hl => absurd hl ?_⟩
    unfold Leftward
    cases c <;> decide
  | conditional hda _ _ iha ihc ihb =>
    exact ⟨found_conditional hda iha.1 ihc.1 ihb.1, fun hl => absurd hl (by unfold Leftward; decide)⟩
  | looser hd ih =>
    have hleads := ih.1.leads hd
    exact ⟨hleads.found, fun _ => hleads⟩

/-- A row of tokens is a phrase in at most one way. -/
theorem Derives.unique {q r : Nat} {ts : List Token} {e f : Expr} (he : Derives q ts e) (hf : Derives r ts f) :
    e = f := by
  have hread := (he.mono (Nat.le_max_left q r)).found_leads.1 [] trivial
  have hread' := (hf.mono (Nat.le_max_right q r)).found_leads.1 [] trivial
  obtain ⟨k, hk⟩ := hread.and hread'
  obtain ⟨hread, hread'⟩ := hk k (Nat.le_refl k)
  rw [hread] at hread'
  cases hread'
  rfl

end BlockScript
