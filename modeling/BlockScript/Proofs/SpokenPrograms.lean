import BlockScript.Proofs.Chains
import BlockScript.Proofs.Layout
import BlockScript.Proofs.SpokenSuites
import BlockScript.Proofs.ValueBlocks

namespace BlockScript

open Run

variable {n : Nat} {N : String → Prop} {H E : Prop}

/-- An expression behind whole lines. -/
theorem Stated.told_append {a b : String} (ha : Stated N a) (hb : Told N E b) : Told N E (a ++ b) := by
  constructor
  · intro w hw
    rw [String.toList_append, NameReader.heard_append, ha.whole, List.mem_append] at hw
    exact hw.elim (ha.heard w) (hb.heard w)
  · rw [String.toList_append, NameReader.behind_append, ha.whole]
    exact hb.rests
  · intro hE
    rw [String.toList_append]
    exact getLast_any_append (hb.ended hE)

namespace Scene

variable {s : Scene n}

theorem ruleOutput_tells (hs : s.Vocal N H E) (hr : s.job.rules = {}) : Tells N H s.ruleOutput fun o =>
    o.Spoken N H E ∧ ∀ code rank, o = .expression code rank → s.block.isValue = true := by
  rw [ruleOutput_eq hr]
  cases hk : s.block.kind? with
  | some kind =>
    refine (standard_tells hs hk).imp fun o ho => ⟨ho.1, ?_⟩
    rw [Block.isValue, hk]
    exact ho.2
  | none =>
    refine (record_tells _).bind fun _ _ => .pure ?_
    rw [Block.isValue, hk]
    cases s.block.hasOutput with
    | true => exact ⟨Or.inl rfl, fun _ _ _ => rfl⟩
    | false => exact ⟨fun _ => .empty, fun _ _ h => by cases h⟩

theorem output_tells (hs : s.Vocal N H E) (hr : s.job.rules = {})
    (halone : s.block.isValue = true → s.block.next = none) (hsilent : E → s.comments = "") :
    Tells N H s.output (Output.Spoken N H E) := by
  obtain ⟨extra, hsettings⟩ := hs.settings
  refine (ruleOutput_tells hs hr).bind fun o ho => ?_
  cases o with
  | nothing => exact .pure trivial
  | statement code =>
    have hmark : s.statementMark = "" := by
      rw [statementMark, hsettings]
      rfl
    have hcode : H → Stated N (if code.isEmpty then code else s.statementMark ++ code) := by
      rw [hmark, String.empty_append, ite_self]
      exact ho.1
    exact (placed_tells hs hcode).bind fun _ htext => .pure htext
  | expression code rank =>
    have hnext : Tells N H s.nextLines fun rest => rest = "" := by
      unfold nextLines
      rw [halone (ho.2 code rank rfl)]
      refine hs.free.bind fun o ho => ?_
      subst ho
      exact .pure rfl
    refine (hnext.bind fun rest hrest => Tells.pure (P := fun text => text = s.comments ++ code) ?_).bind ?_
    · rw [hrest, String.append_empty]
    · intro text htext
      subst htext
      refine .pure ?_
      have hcomments := comments_stated hs
      obtain rfl | hcode := ho.1
      · rw [String.append_empty]
        by_cases hempty : s.comments = ""
        · exact Or.inl hempty
        · refine Or.inr ⟨hcomments.heard, ?_, fun hE => absurd (hsilent hE) hempty⟩
          rw [hcomments.whole]
          trivial
      · exact Or.inr (hcomments.told_append hcode)

end Scene

/-- Blocks that are closed under children, written out by the standard rules with names of the property. Their value blocks
have no blocks behind them. If `H` holds, the fields that are written as they are speak of such names too; if `E` holds,
there are no comments. -/
structure Job.Vocal (N : String → Prop) (H E : Prop) (job : Job n) (R : Fin n → Prop) : Prop where
  settings : ∃ extra, job.settings = { extraReserved := extra }
  rules : job.rules = {}
  words : ∀ i, R i → ∀ kind, (job.diagram.block i).kind? = some kind → ∀ f ∈ kind.functions, ∀ w ∈ f.words, N w
  closed : ∀ i, R i → ∀ j ∈ job.diagram.childrenOf i, R j
  alone : ∀ i, R i → (job.diagram.block i).isValue = true → (job.diagram.block i).next = none
  quiet : H → ∀ i, R i → ∀ kind, (job.diagram.block i).kind? = some kind →
    ∀ text ∈ (job.diagram.block i).rawTexts kind, Quiet N text
  silent : E → ∀ i, R i → (job.diagram.block i).comment? = none

namespace Job.Vocal

variable {job : Job n} {R : Fin n → Prop}

theorem comments_eq (hj : job.Vocal N H E R) {s : Scene n} (hjob : s.job = job) (hi : R s.index) (hE : E) :
    s.comments = "" := by
  subst hjob
  refine Scene.comments_eq_empty (hj.silent hE _ hi) fun slot hslot j hchild k hk => hj.silent hE k ?_
  refine Diagram.descendants_closed hj.closed (hj.closed _ hi j ?_) k hk
  refine List.mem_map.mpr ⟨(slot.name, j), List.mem_append_left _ ?_, rfl⟩
  exact List.mem_filterMap.mpr ⟨slot, hslot, by rw [hchild]; rfl⟩

theorem emitWithin_none (job : Job n) (depth : Nat) : Tells N H (job.emitWithin depth none) fun o => o = .nothing := by
  cases depth <;> exact checkOpen_tells.bind fun _ _ => .pure rfl

/-- The scene of a block, from what holds of the blocks around it. -/
theorem scene (hj : job.Vocal N H E R) {i : Fin n} (hi : R i) {depth : Nat}
    (h : ∀ o, (∀ j, o = some j → R j) → Tells N H (job.emitWithin depth o) (Output.Spoken N H E)) :
    Scene.Vocal N H E ⟨job, i, job.emitWithin depth⟩ where
  settings := hj.settings
  words := hj.words i hi
  free := emitWithin_none job depth
  below name := h _ fun j hchild => hj.closed i hi j (Diagram.mem_childrenOf (p := .slot name) hchild)
  behind := h _ fun j hnext => hj.closed i hi j (Diagram.mem_childrenOf (p := .next) hnext)
  quiet hH := hj.quiet hH i hi

theorem emitWithin_tells (hj : job.Vocal N H E R) (depth : Nat) {o : Option (Fin n)} (ho : ∀ j, o = some j → R j) :
    Tells N H (job.emitWithin depth o) (Output.Spoken N H E) := by
  induction depth generalizing o with
  | zero =>
    cases o with
    | none => exact (emitWithin_none job 0).imp fun o ho => ho ▸ trivial
    | some i => exact .throw _
  | succ depth ih =>
    cases o with
    | none => exact (emitWithin_none job _).imp fun o ho => ho ▸ trivial
    | some i =>
      have hi := ho i rfl
      have hs := hj.scene hi fun o ho => ih ho
      refine checkOpen_tells.bind fun _ _ => ?_
      dsimp only
      split
      · exact hs.behind
      · exact Scene.output_tells hs hj.rules (hj.alone i hi) (hj.comments_eq rfl hi)

theorem body_tells (hj : job.Vocal N H E R) {tops : List (Fin n)} (hR : ∀ i ∈ tops, R i) :
    Tells N H (job.body tops) fun code => H → Voiced N code := by
  have hlines : ∀ i ∈ tops, Tells N H (job.topLines i) fun code => H → Stated N code := by
    intro i hi
    have hemit := hj.emitWithin_tells n (o := some i) fun j hj => Option.some.inj hj ▸ hR i hi
    refine hemit.bind fun o ho => .pure fun hH => ?_
    cases o with
    | nothing => exact .empty
    | statement code => exact ho hH
    | expression code rank =>
      obtain rfl | hcode := ho
      · exact .empty
      · rw [Output.topLines]
        split
        · exact .empty
        · exact hcode.line.toStated
  refine (Tells.mapM tops hlines).bind fun codes hcodes => .pure fun hH w hw => ?_
  rw [spokenNames, Text.readLines_tidyLineEnds lineNames_passesBlanks] at hw
  exact (Stated.joined fun code hcode => hcodes.2 code hcode hH).voiced w hw

end Job.Vocal

section Programs

theorem voiced_joined {codes : List String} (h : ∀ code ∈ codes, Voiced N code) :
    Voiced N (Text.joined "\n" codes) ∧ Voiced N (Text.joined "\n\n" codes) := by
  have hflat : ∀ w ∈ (codes.flatMap (Text.readLines lineNames?)).flatten, Utters N w := by
    intro w hw
    obtain ⟨names, hnames, hw⟩ := List.mem_flatten.mp hw
    obtain ⟨code, hcode, hnames⟩ := List.mem_flatMap.mp hnames
    exact h code hcode w (List.mem_flatten.mpr ⟨names, hnames, hw⟩)
  constructor
  · rwa [Voiced, spokenNames, Text.readLines_joined lineNames_passesBlanks]
  · rwa [Voiced, spokenNames, Text.readLines_joined_apart lineNames_passesBlanks]

theorem Voiced.trimEnd {code : String} (h : Voiced N code) : Voiced N (Text.trimEnd code) := by
  rwa [Voiced, spokenNames, Text.readLines_trimEnd lineNames_passesBlanks]

theorem voiced_import {i : FromImport} (hsource : i.source ∈ ["machine", "micropython"])
    (hnames : ∀ name ∈ i.names, name ∈ ["Pin", "PWM", "ADC", "UART", "time_pulse_us", "const"]) : Voiced N i.line := by
  have hopens : ∀ source ∈ ["machine", "micropython"], Opens ("from " ++ source ++ " import ") := by decide
  have hfixed : ∀ name ∈ ["Pin", "PWM", "ADC", "UART", "time_pulse_us", "const"], Fixed name := by decide
  refine (hopens _ hsource).voiced_append ?_
  by_cases hne : i.names = []
  · rw [hne]
    exact Stated.empty.voiced
  · have htold : Told N True (Text.joined ", " i.names) :=
      .joined (by decide) hne fun name hname => .fixed (hfixed name (hnames name hname))
    exact htold.voiced

theorem voiced_mergeImports {lines : List String} (h : ∀ line ∈ lines, line ∈ importLines) :
    ∀ line ∈ mergeImports lines, Voiced N line := by
  have hread : ∀ line ∈ importLines, ((FromImport.read? line).elim (.plain line) .taken : ImportLine).Consists
      Fixed (· ∈ ["machine", "micropython"]) (· ∈ ["Pin", "PWM", "ADC", "UART", "time_pulse_us", "const"]) := by
    decide
  intro line hline
  obtain ⟨l, hl, rfl⟩ := List.mem_map.mp hline
  have hl := ImportLine.merge_consists (fun line hline => hread line (h line hline)) l hl
  cases l with
  | plain line =>
    have htold : Told N True line := .fixed hl
    exact htold.voiced
  | taken i => exact voiced_import hl.1 hl.2

namespace Session.Voices

variable {s : Session}

theorem setupLines (hs : s.Voices N H) (hH : H) : ∀ line ∈ s.setupLines, Voiced N line := by
  have hsetups := hs.fragments hH .setups nofun
  have hown : ∀ code ∈ (s.setups.erase (.text Scene.userSetupTag)).values, Voiced N code := fun code hcode =>
    hsetups code (Ledger.mem_values_of_erase hcode)
  unfold Session.setupLines
  dsimp only
  split
  · rename_i code hcode
    split
    · exact hown
    · refine List.forall_mem_append.mpr ⟨hown, List.forall_mem_singleton.mpr ?_⟩
      exact Voiced.trimEnd (hsetups code (Ledger.mem_values_of_get? hcode))
  · exact hown

theorem front (hs : s.Voices N H) (hH : H) : ∀ code ∈ s.front, Voiced N code := by
  refine List.forall_mem_append.mpr ⟨?_, fun code hcode => ?_⟩
  · simp only [List.forall_mem_cons]
    refine ⟨?_, ?_, ?_, ?_, List.forall_mem_nil _⟩
    · exact (voiced_joined (voiced_mergeImports hs.imports)).1
    · exact (voiced_joined (hs.fragments hH .globals nofun)).1
    · exact (voiced_joined (hs.fragments hH .declarations nofun)).1
    · refine (voiced_joined (List.forall_mem_map.mpr fun code hcode => ?_)).2
      exact Voiced.trimEnd (hs.functions hH code hcode)
  · unfold setupSection at hcode
    dsimp only at hcode
    split at hcode
    · cases hcode
    · obtain rfl := List.mem_singleton.mp hcode
      have hheader : Voiced N "# ---- setup ----" := by
        intro w hw
        cases hw
      exact hheader.append_line (voiced_joined (hs.setupLines hH)).1

theorem program (hs : s.Voices N H) (hH : H) {body : String} (hbody : Voiced N body) : Voiced N (s.program {} body) := by
  intro w hw
  rw [spokenNames, Session.readLines_program lineNames_passesBlanks rfl, List.flatten_append, List.mem_append] at hw
  obtain hw | hw := hw
  · obtain ⟨names, hnames, hw⟩ := List.mem_flatten.mp hw
    obtain ⟨code, hcode, hnames⟩ := List.mem_flatMap.mp hnames
    exact hs.front hH code hcode w (List.mem_flatten.mpr ⟨names, hnames, hw⟩)
  · exact hbody w hw

end Session.Voices

namespace Generator

theorem start_voices {g : Generator} {w : Workspace n} {s : Session} (hN : ∀ x, x ∉ g.settings.reserved → N x)
    (h : g.start w = .ok s) : s.Voices N H := by
  obtain ⟨typed, -, hrun⟩ := declared_of_start h
  have hfixed : ∀ kind : ValueKind, Fixed kind.initializer := by
    intro kind
    cases kind <;> decide
  have hdeclare : Tells N H (typed.found.kinds.entries.forM fun e => declareVariable e.1 e.2) fun _ => True := by
    refine .forM _ fun e _ => (identifier_tells (E := True) _ _).bind fun x hx => ?_
    refine (addVariable_tells fun _ => ?_).bind fun _ _ => .pure trivial
    have hline : Told N True (x ++ " = " ++ e.2.initializer) := hx.around (.fixed (hfixed e.2)) (by decide)
    exact hline.voiced
  have hopened : (g.opened w typed).Voices N H := by
    refine ⟨⟨⟨fun x hx => ?_, nofun, nofun⟩, hN, nofun, nofun⟩, ?_, ?_, ?_⟩
    · exact List.mem_append_left _ hx
    · exact List.forall_mem_nil _
    · intro _ part _
      cases part <;> exact List.forall_mem_nil _
    · exact fun _ => List.forall_mem_nil _
  exact (hdeclare hrun hopened).2

end Generator

end Programs

end BlockScript
