import BlockScript.Emission.Job
import BlockScript.Proofs.Nesting
import BlockScript.Proofs.OperatorTrees

namespace BlockScript

/-- The kinds of statements that leave no line at their place. -/
def BlockKind.isSilent : BlockKind → Bool
  | stepperSetup | serialSetup | blankLine => true
  | _ => false

variable {n : Nat}

namespace Block

/-- A block that stands for an expression. -/
def isValue (b : Block n) : Bool :=
  match b.kind? with
  | some kind => kind.isValue
  | none => b.hasOutput

/-- A block that leaves a line at its place. The lines of a definition go elsewhere. -/
def writes (b : Block n) : Bool :=
  match b.kind? with
  | some kind => !kind.isValue && !kind.isSilent && !Workspace.isProcedure b
  | none => false

end Block

theorem Workspace.kind_of_isProcedure {b : Block n} (h : isProcedure b = true) :
    ∃ returns, b.kind? = some (.procedure returns) := by
  unfold isProcedure at h
  split at h
  · exact ⟨_, ‹_›⟩
  · cases h

theorem Scene.branchNumbers_ne_nil {s : Scene n} : s.branchNumbers ≠ [] := by
  unfold branchNumbers
  rw [List.range_succ_eq_map]
  simp

/-- The slots of a block whose chains are suites. -/
def Scene.suiteSlots (s : Scene n) : BlockKind → List String
  | .conditional alwaysElse => s.branchNumbers.map (fun k => "DO" ++ toString k) ++
      if alwaysElse || (s.block.slot? "ELSE").isSome then ["ELSE"] else []
  | .repetition | .whileUntil | .counting | .forEach => ["DO"]
  | .entry => ["LOOP_FUNC"]
  | .procedure _ => ["STACK"]
  | _ => []

theorem Scene.suiteSlots_eq_nil {s : Scene n} {kind : BlockKind} (h : kind.isSilent = true ∨ kind.isValue = true) :
    s.suiteSlots kind = [] := by
  cases kind <;> first | rfl | simp [BlockKind.isSilent, BlockKind.isValue] at h

/-- The shapes of the pieces that the rule of a statement leaves. A counting loop keeps up to three bounds. -/
def Scene.Fits (s : Scene n) (kind : BlockKind) (shapes : List Shape) : Prop :=
  match kind with
  | .tone => shapes = [.line, .line]
  | .halt | .returnIf => shapes = [.pair]
  | .counting => ∃ kept ≤ 3, shapes = List.replicate kept .line ++ [.suite "DO"]
  | .conditional _ | .repetition | .whileUntil | .forEach | .entry => shapes = (s.suiteSlots kind).map .suite
  | .stepperSetup | .serialSetup | .blankLine => shapes = []
  | _ => shapes = [.line]

theorem Scene.Fits.slots {s : Scene n} {kind : BlockKind} {shapes : List Shape} (h : s.Fits kind shapes)
    (hp : ∀ returns, kind ≠ .procedure returns) : shapes.filterMap Shape.slot? = s.suiteSlots kind := by
  have hsuites : ∀ names : List String, (names.map Shape.suite).filterMap Shape.slot? = names := by
    intro names
    rw [List.filterMap_map]
    exact List.filterMap_some
  cases kind with
  | counting =>
    obtain ⟨kept, -, rfl⟩ := h
    rw [List.filterMap_append, List.filterMap_replicate_of_none rfl]
    rfl
  | procedure returns => exact absurd rfl (hp returns)
  | conditional _ | repetition | whileUntil | forEach | entry =>
    rw [show shapes = _ from h]
    exact hsuites _
  | _ =>
    rw [show shapes = _ from h]
    rfl

theorem Scene.Fits.ne_nil {s : Scene n} {kind : BlockKind} {shapes : List Shape} (h : s.Fits kind shapes) :
    shapes ≠ [] ↔ kind.isSilent = false := by
  cases kind with
  | counting =>
    obtain ⟨kept, -, rfl⟩ := h
    simp [BlockKind.isSilent]
  | conditional alwaysElse =>
    rw [show shapes = _ from h]
    simp [suiteSlots, branchNumbers_ne_nil, BlockKind.isSilent]
  | _ =>
    rw [show shapes = _ from h]
    simp [suiteSlots, BlockKind.isSilent]

/-- Whether a value block of a kind has a text. -/
def Scene.Says (s : Scene n) : BlockKind → Prop
  | .blankValue => False
  | .join => ∃ count, s.pieceCount = .ok count ∧ 0 ≤ count
  | _ => True

namespace Job

variable (job : Job n)

/-- A block that gives an expression. -/
def Expresses (i : Fin n) : Prop :=
  (job.diagram.block i).disabled = false ∧ (job.diagram.block i).isValue = true

/-- A block that gives an expression with a text. -/
def Says (i : Fin n) : Prop :=
  (job.diagram.block i).disabled = false ∧
    ∃ kind, (job.diagram.block i).kind? = some kind ∧ kind.isValue = true ∧ (job.scene i).Says kind

/-- A definition that assigns to a variable of the program. -/
def Assigns (i : Fin n) : Prop :=
  ∃ start j v, (job.diagram.block i).child? "STACK" = some start ∧ j ∈ job.diagram.descendants start ∧
    (job.scene i).assigned? j = some v ∧ ∀ names, (job.diagram.block i).arguments = .ok names → names.contains v = false

/-- A definition whose suite has lines besides those of its chain. -/
def Padded (i : Fin n) : Prop :=
  Workspace.isProcedure (job.diagram.block i) = true ∧
    ((∃ j, (job.diagram.block i).child? "RETURN" = some j ∧ job.Says j) ∨ job.Assigns i)

/-- The chains that are suites of a block. -/
def suites (i : Fin n) : List (Option (Fin n)) :=
  match (job.diagram.block i).kind? with
  | some kind => ((job.scene i).suiteSlots kind).map (job.diagram.block i).child?
  | none => []

/-- A block whose place keeps its own lines. -/
def InPlace (i : Fin n) : Prop :=
  (job.diagram.block i).disabled = false ∧ Workspace.isProcedure (job.diagram.block i) = false

/-- A block in whose place the blocks that follow it are written. -/
def Passes (i : Fin n) : Prop :=
  (job.diagram.block i).disabled = true ∨ Workspace.isProcedure (job.diagram.block i) = false

/-- A chain that leaves a line other than a comment. -/
inductive Speaks : Option (Fin n) → Prop
  | here {i : Fin n} (enabled : (job.diagram.block i).disabled = false) (writes : (job.diagram.block i).writes = true) :
      Speaks (some i)
  | later {i : Fin n} (passes : job.Passes i) (next : Speaks (job.diagram.block i).next) : Speaks (some i)

/-- A chain that leaves a comment. -/
inductive Remarks : Option (Fin n) → Prop
  | here {i : Fin n} (place : job.InPlace i) (comments : (job.scene i).comments ≠ "") : Remarks (some i)
  | later {i : Fin n} (passes : job.Passes i) (next : Remarks (job.diagram.block i).next) : Remarks (some i)

/-- A chain with a suite in it, however deep, that has comments only. -/
inductive Hollow : Option (Fin n) → Prop
  | here {i : Fin n} {o : Option (Fin n)} (place : job.InPlace i) (suite : o ∈ job.suites i)
      (remarks : job.Remarks o) (silent : ¬ job.Speaks o) : Hollow (some i)
  | inside {i : Fin n} {o : Option (Fin n)} (place : job.InPlace i) (suite : o ∈ job.suites i) (hollow : Hollow o) :
      Hollow (some i)
  | later {i : Fin n} (passes : job.Passes i) (next : Hollow (job.diagram.block i).next) : Hollow (some i)

/-- A chain with such a suite in its lines or in the lines that its blocks put elsewhere: the definitions and what
runs once. -/
inductive Flawed : Option (Fin n) → Prop
  | here {i : Fin n} {o : Option (Fin n)} (enabled : (job.diagram.block i).disabled = false) (suite : o ∈ job.suites i)
      (remarks : job.Remarks o) (silent : ¬ job.Speaks o) (bare : ¬ job.Padded i) : Flawed (some i)
  | inside {i : Fin n} {kind : BlockKind} {name : String} (enabled : (job.diagram.block i).disabled = false)
      (known : (job.diagram.block i).kind? = some kind) (flawed : Flawed ((job.diagram.block i).child? name)) :
      Flawed (some i)
  | later {i : Fin n} (flawed : Flawed (job.diagram.block i).next) : Flawed (some i)

/-- A chain with a comment in its lines, however deep. -/
inductive Annotated : Option (Fin n) → Prop
  | here {i : Fin n} (place : job.InPlace i) (comments : (job.scene i).comments ≠ "") : Annotated (some i)
  | inside {i : Fin n} {o : Option (Fin n)} (place : job.InPlace i) (suite : o ∈ job.suites i) (annotated : Annotated o) :
      Annotated (some i)
  | later {i : Fin n} (passes : job.Passes i) (next : Annotated (job.diagram.block i).next) : Annotated (some i)

/-- The shapes of the pieces that a statement leaves. -/
def Fits (i : Fin n) (shapes : List Shape) : Prop :=
  match (job.diagram.block i).kind? with
  | some kind => (job.scene i).Fits kind shapes
  | none => shapes = []

/-- The nesting of the lines of a chain is that of its blocks: under a line for a slot stand the lines of the chain in the
slot, and behind the lines of a block those of the blocks that follow it. Disabled blocks are passed over, and a definition
leaves nothing. -/
inductive Nests : Option (Fin n) → Forest → Prop
  | none : Nests none .nil
  | disabled {i : Fin n} {f : Forest} (disabled : (job.diagram.block i).disabled = true)
      (next : Nests (job.diagram.block i).next f) : Nests (some i) f
  | definition {i : Fin n} (enabled : (job.diagram.block i).disabled = false)
      (definition : Workspace.isProcedure (job.diagram.block i) = true) : Nests (some i) .nil
  | block {i : Fin n} {pieces : List (Piece Forest)} {rest : Forest} (place : job.InPlace i)
      (statement : (job.diagram.block i).isValue = false) (fits : job.Fits i (pieces.map Piece.shape))
      (reads : ∀ p ∈ pieces, p.Reads)
      (suites : ∀ header name chain, .suite header name chain ∈ pieces → Nests ((job.diagram.block i).child? name) chain)
      (next : Nests (job.diagram.block i).next rest) : Nests (some i) (pieces.foldr Piece.onto rest)

/-- A chain that may be a suite. -/
def SuiteOk (o : Option (Fin n)) : Prop :=
  ¬ job.Hollow o ∧ (job.Remarks o → job.Speaks o)

variable {job} {i : Fin n}

theorem suites_eq {kind : BlockKind} (h : (job.diagram.block i).kind? = some kind) :
    job.suites i = ((job.scene i).suiteSlots kind).map (job.diagram.block i).child? := by
  rw [suites, h]

theorem InPlace.passes (h : job.InPlace i) : job.Passes i :=
  Or.inr h.2

theorem mem_suites {o : Option (Fin n)} (h : o ∈ job.suites i) :
    ∃ kind name, (job.diagram.block i).kind? = some kind ∧ (job.diagram.block i).child? name = o := by
  unfold suites at h
  split at h
  · rename_i kind hk
    obtain ⟨name, -, hname⟩ := List.mem_map.mp h
    exact ⟨kind, name, hk, hname⟩
  · cases h

theorem Hollow.flawed {o : Option (Fin n)} (h : job.Hollow o) : job.Flawed o := by
  induction h with
  | here place suite remarks silent =>
    exact .here place.1 suite remarks silent fun hpadded => absurd hpadded.1 (by simp [place.2])
  | inside place suite _ ih =>
    obtain ⟨kind, name, hk, rfl⟩ := mem_suites suite
    exact .inside place.1 hk ih
  | later _ _ ih => exact .later ih

theorem not_inPlace_of_disabled (h : (job.diagram.block i).disabled = true) : ¬ job.InPlace i := by
  rintro ⟨hd, -⟩
  rw [h] at hd
  cases hd

theorem not_speaks_none : ¬ job.Speaks none := by
  rintro ⟨⟩

theorem not_remarks_none : ¬ job.Remarks none := by
  rintro ⟨⟩

theorem not_hollow_none : ¬ job.Hollow none := by
  rintro ⟨⟩

theorem writes_inPlace (he : (job.diagram.block i).disabled = false) (hw : (job.diagram.block i).writes = true) :
    job.InPlace i := by
  refine ⟨he, ?_⟩
  unfold Block.writes at hw
  split at hw
  · simp only [Bool.and_eq_true, Bool.not_eq_true'] at hw
    exact hw.2
  · cases hw

theorem speaks_inPlace (h : job.InPlace i) : job.Speaks (some i) ↔
    (job.diagram.block i).writes = true ∨ job.Speaks (job.diagram.block i).next := by
  constructor
  · rintro (⟨-, hw⟩ | ⟨-, hn⟩)
    · exact Or.inl hw
    · exact Or.inr hn
  · rintro (hw | hn)
    · exact .here h.1 hw
    · exact .later h.passes hn

theorem remarks_inPlace (h : job.InPlace i) : job.Remarks (some i) ↔
    (job.scene i).comments ≠ "" ∨ job.Remarks (job.diagram.block i).next := by
  constructor
  · rintro (⟨-, hc⟩ | ⟨-, hn⟩)
    · exact Or.inl hc
    · exact Or.inr hn
  · rintro (hc | hn)
    · exact .here h hc
    · exact .later h.passes hn

theorem not_hollow_inPlace (h : job.InPlace i) : ¬ job.Hollow (some i) ↔
    (∀ o ∈ job.suites i, job.SuiteOk o) ∧ ¬ job.Hollow (job.diagram.block i).next := by
  constructor
  · intro hh
    refine ⟨fun o ho => ⟨fun hb => hh (.inside h ho hb), fun hr => ?_⟩, fun hn => hh (.later h.passes hn)⟩
    by_contra hs
    exact hh (.here h ho hr hs)
  · rintro ⟨hok, hnext⟩ (⟨-, ho, hr, hs⟩ | ⟨-, ho, hb⟩ | ⟨-, hn⟩)
    · exact hs ((hok _ ho).2 hr)
    · exact (hok _ ho).1 hb
    · exact hnext hn

/-- What the lines of a chain say about it. -/
structure Chain (job : Job n) (o : Option (Fin n)) (code : String) : Prop where
  sheet : Sheet code (¬ job.Hollow o)
  speaks : outline code ≠ [] ↔ job.Speaks o
  text : code ≠ "" ↔ job.Speaks o ∨ job.Remarks o
  nests : ¬ job.Annotated o → ∃ f, job.Nests o f ∧ Text.indented code = f.render 0

theorem chain_none : job.Chain none "" := by
  refine ⟨Sheet.empty.congr (iff_of_true trivial not_hollow_none), ?_, ?_, fun _ => ⟨.nil, .none, rfl⟩⟩
  · exact iff_of_false (fun h => h rfl) not_speaks_none
  · exact iff_of_false (fun h => h rfl) (not_or.mpr ⟨not_speaks_none, not_remarks_none⟩)

/-- A definition leaves nothing at its place. -/
theorem chain_procedure (he : (job.diagram.block i).disabled = false)
    (hp : Workspace.isProcedure (job.diagram.block i) = true) : job.Chain (some i) "" := by
  have hplace : ¬ job.InPlace i := by
    rintro ⟨-, hn⟩
    rw [hp] at hn
    cases hn
  have hpasses : ¬ job.Passes i := by
    rintro (hd | hn)
    · rw [he] at hd
      cases hd
    · rw [hp] at hn
      cases hn
  have hspeaks : ¬ job.Speaks (some i) := by
    rintro (⟨-, hw⟩ | ⟨h, -⟩)
    · exact hplace (writes_inPlace he hw)
    · exact hpasses h
  have hremarks : ¬ job.Remarks (some i) := by
    rintro (⟨h, -⟩ | ⟨h, -⟩)
    · exact hplace h
    · exact hpasses h
  have hhollow : ¬ job.Hollow (some i) := by
    rintro (⟨h, -⟩ | ⟨h, -⟩ | ⟨h, -⟩)
    · exact hplace h
    · exact hplace h
    · exact hpasses h
  refine ⟨Sheet.empty.congr (iff_of_true trivial hhollow), ?_, ?_, fun _ => ⟨.nil, .definition he hp, rfl⟩⟩
  · exact iff_of_false (fun h => h rfl) hspeaks
  · exact iff_of_false (fun h => h rfl) (not_or.mpr ⟨hspeaks, hremarks⟩)

/-- A disabled block is passed over. -/
theorem Chain.disabled (hd : (job.diagram.block i).disabled = true) {code : String}
    (h : job.Chain (job.diagram.block i).next code) : job.Chain (some i) code := by
  have hplace := not_inPlace_of_disabled hd
  have hspeaks : job.Speaks (some i) ↔ job.Speaks (job.diagram.block i).next := by
    refine ⟨?_, .later (Or.inl hd)⟩
    rintro (⟨he, hw⟩ | ⟨-, hn⟩)
    · exact absurd (writes_inPlace he hw) hplace
    · exact hn
  have hremarks : job.Remarks (some i) ↔ job.Remarks (job.diagram.block i).next := by
    refine ⟨?_, .later (Or.inl hd)⟩
    rintro (⟨hp, -⟩ | ⟨-, hn⟩)
    · exact absurd hp hplace
    · exact hn
  have hhollow : job.Hollow (some i) ↔ job.Hollow (job.diagram.block i).next := by
    refine ⟨?_, .later (Or.inl hd)⟩
    rintro (⟨hp, -⟩ | ⟨hp, -⟩ | ⟨-, hn⟩)
    · exact absurd hp hplace
    · exact absurd hp hplace
    · exact hn
  refine ⟨h.sheet.congr (not_congr hhollow.symm), ?_, ?_, fun hn => ?_⟩
  · rw [h.speaks, hspeaks]
  · rw [h.text, hspeaks, hremarks]
  · obtain ⟨f, hf, hlines⟩ := h.nests fun hnext => hn (.later (Or.inl hd) hnext)
    exact ⟨f, .disabled hd hf, hlines⟩

theorem comments_silent (hs : job.settings = {}) (i : Fin n) : Silent (job.scene i).comments := by
  have hslot : ∀ slot : Slot n, Silent ((job.scene i).slotComments slot) := by
    intro slot
    unfold Scene.slotComments Scene.settings
    split
    · rw [show (job.scene i).job.settings = {} from hs]
      refine ⟨Whole.markLines ?_, outline_comment _⟩
      unfold Diagram.nestedComments
      split
      · exact Or.inl rfl
      · exact Or.inr ⟨_, rfl⟩
    · exact .empty
  unfold Scene.comments Scene.settings
  split
  · exact .empty
  · refine Silent.append ?_ (.joined (by simpa using fun slot _ => hslot slot))
    rw [show (job.scene i).job.settings = {} from hs]
    split
    · exact ⟨Or.inr ⟨_, rfl⟩, by rw [outline_line, outline_comment]⟩
    · exact .empty

/-- The suite of a chain is filled unless it has comments only. -/
theorem Chain.suite {o : Option (Fin n)} {code : String} (hc : job.Chain o code) (s : Scene n) (hs : s.settings = {})
    {header : String} (hh : IsLine true header) :
    Sheet (header ++ "\n" ++ s.orEmptySuite (s.settings.deeper code)) (job.SuiteOk o) := by
  unfold Scene.orEmptySuite
  rw [hs]
  by_cases hcode : code = ""
  · have hnone : ¬ (job.Speaks o ∨ job.Remarks o) := fun h => hc.text.mpr h hcode
    have hok : job.SuiteOk o := by
      refine ⟨hc.sheet.filled.mp ?_, fun hr => absurd (Or.inr hr) hnone⟩
      rw [hcode]
      exact .nil
    subst hcode
    refine (Sheet.suite hh (Indented.line (show IsLine false "pass" from ⟨by decide, by decide⟩))).congr ?_
    exact iff_of_true (by decide) hok
  · have hne : (Settings.deeper {} code).isEmpty = false := by
      have hmark : (Text.markLines "    " code).toList ≠ [] := by
        rw [Text.markLines, if_neg (by simpa [String.isEmpty_iff] using hcode), String.toList_ofList]
        simp
      simpa [String.isEmpty_iff, Settings.deeper, ← String.toList_eq_nil_iff] using hmark
    rw [if_neg (by rw [hne]; simp)]
    refine (Sheet.suite hh (Indented.deeper hc.sheet.whole)).congr ?_
    have hsome := hc.text.mp hcode
    rw [hc.speaks, hc.sheet.filled, SuiteOk]
    constructor
    · rintro ⟨hspeaks, hhollow⟩
      exact ⟨hhollow, fun _ => hspeaks⟩
    · rintro ⟨hhollow, hok⟩
      exact ⟨hsome.elim id hok, hhollow⟩

end Job

namespace Scene

variable {s : Scene n} {p : Piece String} {pieces : List (Piece String)}

/-- The text of a piece with the lines of a chain. -/
def pieceText (s : Scene n) : Piece String → String
  | .line text => text ++ "\n"
  | .pair header text => header ++ "\n" ++ ("    " ++ text ++ "\n")
  | .suite header _ code => header ++ "\n" ++ s.orEmptySuite (s.settings.deeper code)

def piecesText (s : Scene n) (pieces : List (Piece String)) : String :=
  Text.joined "" (pieces.map s.pieceText)

/-- A piece with the chain of its slot. -/
structure Proper (s : Scene n) (p : Piece String) : Prop where
  reads : p.Reads
  chain : ∀ header name code, p = .suite header name code → s.job.Chain (s.block.child? name) code

theorem proper_line {a : String} (h : IsLine false a) : s.Proper (.line a) :=
  ⟨h, nofun⟩

theorem proper_pair {header a : String} (hh : IsLine true header) (h : IsLine false a) : s.Proper (.pair header a) :=
  ⟨⟨hh, h⟩, nofun⟩

theorem proper_suite {header name code : String} (h : IsLine true header) (hc : s.job.Chain (s.block.child? name) code) :
    s.Proper (.suite header name code) := by
  refine ⟨h, ?_⟩
  rintro _ _ _ ⟨⟩
  exact hc

theorem Proper.sheet (hs : s.settings = {}) (h : s.Proper p) :
    Sheet (s.pieceText p) (∀ name ∈ p.shape.slot?, s.job.SuiteOk (s.block.child? name)) := by
  cases p with
  | line a => exact (Sheet.of_line h.reads).congr (by simp [Piece.shape, Shape.slot?])
  | pair header a =>
    refine (Sheet.suite h.reads.1 (Indented.line h.reads.2)).congr (iff_of_true (by decide) ?_)
    simp [Piece.shape, Shape.slot?]
  | suite header name code =>
    exact ((h.chain header name code rfl).suite s hs h.reads).congr (by simp [Piece.shape, Shape.slot?])

theorem Proper.outline_ne_nil (h : s.Proper p) : outline (s.pieceText p) ≠ [] := by
  cases p with
  | line a =>
    rw [pieceText, outline_line, IsLine.outline h.reads]
    simp
  | pair header a =>
    rw [pieceText, outline_append_line, h.reads.1.outline]
    simp
  | suite header name code =>
    rw [pieceText, outline_append_line, IsLine.outline h.reads]
    simp

theorem sheet_pieces (hs : s.settings = {}) (h : ∀ p ∈ pieces, s.Proper p) : Sheet (s.piecesText pieces)
    (∀ p ∈ pieces, ∀ name ∈ p.shape.slot?, s.job.SuiteOk (s.block.child? name)) := by
  refine Sheet.joined (P := fun p : Piece String => ∀ name ∈ p.shape.slot?, s.job.SuiteOk (s.block.child? name)) ?_
  rw [List.forall₂_map_right_iff, List.forall₂_same]
  exact fun p hp => (h p hp).sheet hs

theorem outline_pieces (hs : s.settings = {}) (h : ∀ p ∈ pieces, s.Proper p) : outline (s.piecesText pieces) ≠ [] ↔ pieces ≠ [] := by
  cases pieces with
  | nil => exact iff_of_false (fun h => h rfl) (fun h => h rfl)
  | cons p ps =>
    have hp := h p List.mem_cons_self
    rw [piecesText, List.map_cons, Text.joined_empty_cons, outline_append (hp.sheet hs).whole]
    exact iff_of_true (fun hnil => hp.outline_ne_nil (List.append_eq_nil_iff.mp hnil).1) (List.cons_ne_nil p ps)

theorem piecesText_ne_empty (hs : s.settings = {}) (h : ∀ p ∈ pieces, s.Proper p) : s.piecesText pieces ≠ "" ↔ pieces ≠ [] := by
  refine ⟨?_, fun hne htext => (outline_pieces hs h).mpr hne (by rw [htext]; rfl)⟩
  rintro hne rfl
  exact hne rfl

/-- The lines under a line are those of the chain. -/
theorem indented_orEmptySuite (hs : s.settings = {}) {code : String} (hw : Whole code) {f : Forest}
    (hf : Text.indented code = f.render 0) :
    Text.indented (s.orEmptySuite (s.settings.deeper code)) = f.orPass.render 4 := by
  rw [orEmptySuite, hs]
  by_cases hcode : code = ""
  · subst hcode
    cases f with
    | nil => decide
    | cons line suite rest => cases hf
  · have hdeeper := Text.indented_deeper hw
    have hne : Text.indented (Text.markLines "    " code) ≠ [] := by
      rw [hdeeper]
      simpa using Text.indented_ne_nil hw hcode
    rw [if_neg (fun hempty => hne (by rw [show Text.markLines "    " code = "" from String.isEmpty_iff.mp hempty]; rfl))]
    cases f with
    | nil => exact absurd hf (Text.indented_ne_nil hw hcode)
    | cons line suite rest =>
      rw [show Settings.deeper {} code = Text.markLines "    " code from rfl, hdeeper, hf, ← Forest.render_deeper]
      rfl

theorem Proper.indented (hs : s.settings = {}) (h : s.Proper p)
    (hn : ∀ name ∈ p.shape.slot?, ¬ s.job.Annotated (s.block.child? name)) :
    Text.indented (s.pieceText p) = ((p.map Forest.ofText).onto .nil).render 0 := by
  have hwhole : ∀ {opens : Bool} {a : String}, IsLine opens a → Whole (a ++ "\n") := fun _ => Or.inr ⟨_, rfl⟩
  cases p with
  | line a => exact Text.indented_line h.reads
  | pair header a =>
    rw [pieceText, Text.indented_append (hwhole h.reads.1), Text.indented_line h.reads.1,
      Text.indented_deeper_line h.reads.2]
    rfl
  | suite header name code =>
    have hchain := h.chain header name code rfl
    obtain ⟨f, -, hlines⟩ := hchain.nests (hn name rfl)
    rw [pieceText, Text.indented_append (hwhole h.reads), Text.indented_line h.reads,
      indented_orEmptySuite hs hchain.sheet.whole hlines, Piece.map, Forest.ofText_eq hlines]
    simp [Piece.onto, Forest.render]

theorem indented_pieces (hs : s.settings = {}) (h : ∀ p ∈ pieces, s.Proper p)
    (hn : ∀ p ∈ pieces, ∀ name ∈ p.shape.slot?, ¬ s.job.Annotated (s.block.child? name)) :
    Text.indented (s.piecesText pieces) = (pieces.map (Piece.map Forest.ofText)).flatMap
      fun p => (p.onto .nil).render 0 := by
  induction pieces with
  | nil => rfl
  | cons p ps ih =>
    rw [List.forall_mem_cons] at h hn
    rw [piecesText, List.map_cons, Text.joined_empty_cons, Text.indented_append (h.1.sheet hs).whole,
      h.1.indented hs hn.1, List.map_cons, List.flatMap_cons, ← ih h.2 hn.2, piecesText]

end Scene

namespace Job

variable {job : Job n} {i : Fin n}

theorem Fits.suites (hp : job.InPlace i) {shapes : List Shape} (h : job.Fits i shapes) :
    (shapes.filterMap Shape.slot?).map (job.diagram.block i).child? = job.suites i := by
  unfold Fits at h
  cases hk : (job.diagram.block i).kind? with
  | none =>
    rw [hk] at h
    rw [show shapes = [] from h, Job.suites, hk]
    rfl
  | some kind =>
    rw [hk] at h
    rw [suites_eq hk, h.slots]
    rintro returns rfl
    have hn := hp.2
    rw [Workspace.isProcedure, hk] at hn
    cases hn

theorem Fits.writes (hp : job.InPlace i) (hv : (job.diagram.block i).isValue = false) {shapes : List Shape}
    (h : job.Fits i shapes) : shapes ≠ [] ↔ (job.diagram.block i).writes = true := by
  unfold Fits at h
  cases hk : (job.diagram.block i).kind? with
  | none =>
    rw [hk] at h
    rw [show shapes = [] from h, Block.writes, hk]
    simp
  | some kind =>
    rw [hk] at h
    rw [Block.isValue, hk] at hv
    rw [h.ne_nil, Block.writes, hk]
    simp [hp.2, hv]

/-- The lines of a block, with its comments in front and the blocks that follow behind. -/
theorem Chain.placed (hs : job.settings = {}) (hp : job.InPlace i) (hv : (job.diagram.block i).isValue = false)
    {pieces : List (Piece String)} (hfits : job.Fits i (pieces.map Piece.shape))
    (hproper : ∀ p ∈ pieces, (job.scene i).Proper p) {rest : String} (hnext : job.Chain (job.diagram.block i).next rest) :
    job.Chain (some i) ((job.scene i).comments ++ (job.scene i).piecesText pieces ++ rest) := by
  have hset : (job.scene i).settings = {} := hs
  have hsilent := comments_silent hs i
  have hcode : Sheet ((job.scene i).piecesText pieces) (∀ o ∈ job.suites i, job.SuiteOk o) := by
    refine (Scene.sheet_pieces hset hproper).congr ?_
    rw [← hfits.suites hp, List.forall_mem_map]
    constructor
    · intro hall name hname
      obtain ⟨p, hmem, hslot⟩ := List.mem_filterMap.mp (List.filterMap_map ▸ hname)
      exact hall p hmem name hslot
    · intro hall p hmem name hslot
      exact hall name (List.mem_filterMap.mpr ⟨p.shape, List.mem_map_of_mem hmem, hslot⟩)
  have hwrites : pieces ≠ [] ↔ (job.diagram.block i).writes = true := by
    rw [← hfits.writes hp hv, Ne, Ne, List.map_eq_nil_iff]
  refine ⟨(((Sheet.of_silent hsilent).append hcode).append hnext.sheet).congr ?_, ?_, ?_, fun hn => ?_⟩
  · rw [not_hollow_inPlace hp, true_and]
  · rw [outline_append (hsilent.whole.append hcode.whole), outline_append hsilent.whole, hsilent.outline,
      List.nil_append, speaks_inPlace hp, ← hwrites, ← Scene.outline_pieces hset hproper, ← hnext.speaks, Ne,
      List.append_eq_nil_iff, not_and_or]
  · rw [speaks_inPlace hp, remarks_inPlace hp, ← hwrites, ← Scene.piecesText_ne_empty hset hproper]
    have hrest := hnext.text
    simp only [ne_eq, String.append_eq_empty_iff, not_and_or] at hrest ⊢
    rw [hrest, or_comm (a := ¬ (job.scene i).comments = ""), or_or_or_comm]
  · have hcomments : (job.scene i).comments = "" := by
      by_contra hne
      exact hn (.here hp hne)
    have hslots : ∀ p ∈ pieces, ∀ name ∈ p.shape.slot?, ¬ job.Annotated ((job.diagram.block i).child? name) := by
      intro p hmem name hslot hannotated
      refine hn (.inside hp ?_ hannotated)
      rw [← hfits.suites hp]
      exact List.mem_map_of_mem (List.mem_filterMap.mpr ⟨p.shape, List.mem_map_of_mem hmem, hslot⟩)
    obtain ⟨f, hf, hlines⟩ := hnext.nests fun hlater => hn (.later hp.passes hlater)
    refine ⟨(pieces.map (Piece.map Forest.ofText)).foldr Piece.onto f,
      .block hp hv ?_ ?_ ?_ hf, ?_⟩
    · simpa [Function.comp_def] using hfits
    · rw [List.forall_mem_map]
      exact fun p hmem => (Piece.reads_map _ p).mpr (hproper p hmem).reads
    · intro header name chain hmem
      obtain ⟨p, hp, heq⟩ := List.mem_map.mp hmem
      cases p with
      | line a => cases heq
      | pair header a => cases heq
      | suite header name code =>
        cases heq
        obtain ⟨g, hg, hlines⟩ := ((hproper _ hp).chain _ _ _ rfl).nests (hslots _ hp name rfl)
        rwa [Forest.ofText_eq hlines]
    · rw [hcomments, String.empty_append, Text.indented_append hcode.whole, hlines, Piece.render_foldr_onto,
        Scene.indented_pieces hset hproper hslots]

end Job

end BlockScript
