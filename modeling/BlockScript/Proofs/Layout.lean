import BlockScript.Program.Assembly
import BlockScript.Proofs.Texts

namespace BlockScript

theorem filled_flatMap {α : Type} {f : α → List Mark} {l : List α} (h : ∀ a ∈ l, Filled (f a)) : Filled (l.flatMap f) := by
  induction l with
  | nil => exact .nil
  | cons a l ih =>
    rw [List.forall_mem_cons] at h
    rw [List.flatMap_cons]
    exact filled_append_of h.1 (ih h.2)

theorem IsLine.filled {code : String} (h : IsLine false code) : Filled (BlockScript.outline code) := by
  rw [h.outline]
  decide

theorem Text.readLines_layOut {β : Type} {f : List Char → Option β} (hf : PassesBlanks f) (sections : List String) :
    readLines f (layOut sections) = sections.flatMap (readLines f) := by
  rw [layOut, readLines_line hf, readLines_joined_apart hf]
  induction sections with
  | nil => rfl
  | cons code sections ih =>
    rw [List.filter_cons, List.flatMap_cons]
    split
    · rw [List.map_cons, List.flatMap_cons, ih, readLines_trimEnd hf]
    · rename_i hblank
      rw [ih, readLines_of_isBlankText hf (by simpa using hblank), List.nil_append]

namespace Text

theorem mem_of_mem_splitAt {c : Char} {cs piece : List Char} (h : piece ∈ splitAt c cs) : ∀ d ∈ piece, d ∈ cs := by
  induction cs generalizing piece with
  | nil =>
    obtain rfl := List.mem_singleton.mp h
    simp
  | cons e cs ih =>
    rw [splitAt] at h
    split at h
    · obtain rfl | h := List.mem_cons.mp h
      · simp
      · exact fun d hd => List.mem_cons_of_mem _ (ih h d hd)
    · split at h
      · obtain rfl := List.mem_singleton.mp h
        simp
      · rename_i first rest hsplit
        obtain rfl | h := List.mem_cons.mp h
        · intro d hd
          obtain rfl | hd := List.mem_cons.mp hd
          · simp
          · exact List.mem_cons_of_mem _ (ih (by simp [hsplit]) d hd)
        · exact fun d hd => List.mem_cons_of_mem _ (ih (by simp [hsplit, h]) d hd)

theorem mem_of_mem_dropBlanksEnd {cs : List Char} {c : Char} (h : c ∈ dropBlanksEnd cs) : c ∈ cs := by
  rw [dropBlanksEnd, List.mem_reverse] at h
  exact List.mem_reverse.mp ((List.dropWhile_suffix _).mem h)

theorem trim_oneLine {code : String} (h : OneLine code) : OneLine (trim code) := by
  unfold OneLine trim
  rw [String.toList_ofList]
  exact fun hmem => h ((List.dropWhile_suffix _).mem (mem_of_mem_dropBlanksEnd hmem))

end Text

/-- The parts of an import are parts of a line. -/
structure FromImport.Plain (i : FromImport) : Prop where
  source : OneLine i.source
  names : ∀ name ∈ i.names, OneLine name

namespace FromImport

theorem mem_of_dropStart {start cs rest : List Char} (h : dropStart? start cs = some rest) : ∀ c ∈ rest, c ∈ cs := by
  unfold dropStart? at h
  split at h
  · cases h
    exact fun c hc => List.mem_of_mem_drop hc
  · cases h

theorem mem_of_namesPart {cs names : List Char} (h : namesPart? cs = some names) : ∀ c ∈ names, c ∈ cs := by
  have hline : ∀ c ∈ (if cs.getLast? = some '\n' then cs.dropLast else cs), c ∈ cs := by
    intro c hc
    split at hc
    · exact (List.dropLast_sublist cs).mem hc
    · exact hc
  unfold namesPart? at h
  dsimp only at h
  generalize (if cs.getLast? = some '\n' then cs.dropLast else cs) = line at h hline
  split at h
  · cases h
  · cases h
    exact hline

theorem read_plain {line : String} (hline : OneLine line) {i : FromImport} (h : read? line = some i) : i.Plain := by
  unfold read? at h
  obtain ⟨cs, hcs, h⟩ := Option.bind_eq_some_iff.mp h
  obtain ⟨rest, hrest, h⟩ := Option.bind_eq_some_iff.mp h
  obtain ⟨names, hnames, h⟩ := Option.bind_eq_some_iff.mp h
  split at h
  · cases h
  · cases h
    have hin : ∀ c ∈ names, c ∈ line.toList := fun c hc => mem_of_dropStart hcs c
      ((List.dropWhile_suffix _).mem (mem_of_dropStart hrest c (mem_of_namesPart hnames c hc)))
    refine ⟨?_, ?_⟩
    · unfold OneLine
      rw [String.toList_ofList]
      exact fun hmem => hline (mem_of_dropStart hcs _ ((List.takeWhile_prefix _).mem hmem))
    · rw [List.forall_mem_map]
      intro word hword
      refine Text.trim_oneLine ?_
      unfold OneLine
      rw [String.toList_ofList]
      exact fun hmem => hline (hin _ (Text.mem_of_mem_splitAt hword _ hmem))

theorem Plain.isImport {i : FromImport} (h : i.Plain) : IsImport i.line := by
  have hnames : OneLine (Text.joined ", " i.names) := Text.not_mem_joined (by decide) h.names
  constructor
  · simp only [line, oneLine_append]
    exact ⟨⟨⟨by decide, h.source⟩, by decide⟩, hnames⟩
  · rw [line, String.append_assoc, String.append_assoc, String.toList_append]
    exact Or.inr (List.prefix_append _ _)

end FromImport

theorem IsImport.line {code : String} (h : IsImport code) : IsLine false code := by
  have hstarts : ∀ start : String, Starts false start → start.toList <+: code.toList → IsLine false code := by
    rintro start hstart ⟨rest, hrest⟩
    have hcode : code = start ++ String.ofList rest := by
      rw [← String.toList_inj, ← hrest, String.toList_append, String.toList_ofList]
    rw [hcode]
    refine (hstart.append fun hmem => h.1 ?_).line
    rw [String.toList_ofList] at hmem
    rw [← hrest]
    exact List.mem_append_right _ hmem
  obtain hprefix | hprefix := h.2
  · exact hstarts _ ⟨⟨by decide, by decide⟩, by decide⟩ hprefix
  · exact hstarts _ ⟨⟨by decide, by decide⟩, by decide⟩ hprefix

namespace ImportLine

/-- A line of the import section takes something from a module. -/
def Proper : ImportLine → Prop
  | plain line => IsImport line
  | taken i => i.Plain

theorem Proper.isImport {l : ImportLine} (h : l.Proper) : IsImport l.line := by
  cases l with
  | plain line => exact h
  | taken i => exact FromImport.Plain.isImport h

theorem mem_addNames {old new : List String} {name : String} (h : name ∈ addNames old new) : name ∈ old ∨ name ∈ new := by
  unfold addNames at h
  induction new generalizing old with
  | nil => exact Or.inl h
  | cons first new ih =>
    rw [List.foldl_cons] at h
    obtain h | h := ih h
    · split at h
      · exact Or.inl h
      · obtain h | h := List.mem_append.mp h
        · exact Or.inl h
        · obtain rfl := List.mem_singleton.mp h
          exact Or.inr (by simp)
    · exact Or.inr (by simp [h])

/-- What a line of the import section is made of: a line of its own, or a module with names of it. -/
def Consists (P S T : String → Prop) : ImportLine → Prop
  | plain line => P line
  | taken i => S i.source ∧ ∀ name ∈ i.names, T name

variable {P S T : String → Prop}

instance [DecidablePred P] [DecidablePred S] [DecidablePred T] (l : ImportLine) : Decidable (l.Consists P S T) :=
  match l with
  | plain line => inferInstanceAs (Decidable (P line))
  | taken _ => inferInstanceAs (Decidable (_ ∧ _))

theorem insert_consists {i : FromImport} (hi : (taken i).Consists P S T) {ls : List ImportLine}
    (hls : ∀ l ∈ ls, l.Consists P S T) : ∀ l ∈ insert i ls, l.Consists P S T := by
  have hadd : ∀ {old}, (∀ name ∈ old, T name) → ∀ name ∈ addNames old i.names, T name := by
    intro old hold name hname
    exact (mem_addNames hname).elim (hold name) (hi.2 name)
  induction ls with
  | nil =>
    rw [insert, List.forall_mem_singleton]
    exact ⟨hi.1, hadd (by simp)⟩
  | cons first ls ih =>
    rw [List.forall_mem_cons] at hls
    cases first with
    | plain line => exact List.forall_mem_cons.mpr ⟨hls.1, ih hls.2⟩
    | taken j =>
      rw [insert]
      split
      · exact List.forall_mem_cons.mpr ⟨⟨hls.1.1, hadd hls.1.2⟩, hls.2⟩
      · exact List.forall_mem_cons.mpr ⟨hls.1, ih hls.2⟩

theorem merge_consists {lines : List String}
    (h : ∀ line ∈ lines, ((FromImport.read? line).elim (plain line) taken).Consists P S T) :
    ∀ l ∈ merge lines, l.Consists P S T := by
  refine List.foldlRecOn (motive := fun merged : List ImportLine => ∀ l ∈ merged, l.Consists P S T) lines _ (by simp) ?_
  intro merged hmerged line hline
  have hread := h line hline
  split
  · rename_i i hi
    rw [hi] at hread
    exact insert_consists hread hmerged
  · rename_i hnone
    rw [hnone] at hread
    exact List.forall_mem_append.mpr ⟨hmerged, List.forall_mem_singleton.mpr hread⟩

theorem proper_of_consists {l : ImportLine} (h : l.Consists IsImport OneLine OneLine) : l.Proper := by
  cases l with
  | plain line => exact h
  | taken i => exact ⟨h.1, h.2⟩

theorem merge_proper {lines : List String} (h : ∀ line ∈ lines, IsImport line) : ∀ l ∈ merge lines, l.Proper := by
  intro l hl
  refine proper_of_consists (merge_consists (fun line hline => ?_) l hl)
  cases hread : FromImport.read? line with
  | none => exact h line hline
  | some i =>
    have hplain := FromImport.read_plain (h line hline).1 hread
    exact ⟨hplain.source, hplain.names⟩

end ImportLine

namespace Ledger

variable {κ α : Type} [BEq κ] {l : Ledger κ α} {k : κ} {a : α}

theorem mem_values_of_erase (h : a ∈ (l.erase k).values) : a ∈ l.values := by
  obtain ⟨e, he, rfl⟩ := List.mem_map.mp h
  exact List.mem_map_of_mem (List.mem_of_mem_filter he)

theorem mem_values_of_get? (h : l.get? k = some a) : a ∈ l.values := by
  obtain ⟨e, he, rfl⟩ := Option.map_eq_some_iff.mp h
  exact List.mem_map_of_mem (List.mem_of_find?_eq_some he)

end Ledger

namespace Session

variable {H : Prop} {s : Session}

theorem filled_setupLines (hs : s.Texts H) (hH : H) : ∀ line ∈ s.setupLines, Filled (outline line) := by
  have hsetups : ∀ code ∈ s.setups.values, Filled (outline code) := fun code hcode =>
    hs.fragments .setups (by simp) code hcode hH
  have hown : ∀ code ∈ (s.setups.erase (.text Scene.userSetupTag)).values, Filled (outline code) := fun code hcode =>
    hsetups code (Ledger.mem_values_of_erase hcode)
  unfold setupLines
  dsimp only
  split
  · rename_i code hcode
    split
    · exact hown
    · intro line hline
      obtain hline | hline := List.mem_append.mp hline
      · exact hown line hline
      · obtain rfl := List.mem_singleton.mp hline
        rw [outline_trimEnd]
        exact hsetups code (Ledger.mem_values_of_get? hcode)
  · exact hown

theorem filled_setupSection (hs : s.Texts H) (hH : H) : ∀ code ∈ s.setupSection {}, Filled (outline code) := by
  intro code hcode
  unfold setupSection at hcode
  dsimp only at hcode
  split at hcode
  · cases hcode
  · obtain rfl := List.mem_singleton.mp hcode
    rw [outline_append_line, outline_joined]
    exact filled_append_of (by decide) (filled_flatMap (filled_setupLines hs hH))

theorem filled_imports (hs : s.Texts H) : Filled (outline (Text.joined "\n" (mergeImports s.imports.values))) := by
  rw [outline_joined, mergeImports, List.flatMap_map]
  exact filled_flatMap fun l hl => (ImportLine.merge_proper hs.imports l hl).isImport.line.filled

/-- The lines in front of the body of a program. -/
def front (s : Session) : List String :=
  [Text.joined "\n" (mergeImports s.imports.values), Text.joined "\n" s.globals.values,
    Text.joined "\n" s.declarations.values, Text.joined "\n\n" (s.functions.values.map Text.trimEnd)] ++
  s.setupSection {}

theorem readLines_program {β : Type} {f : List Char → Option β} (hf : Text.PassesBlanks f)
    (hheader : Text.readLines f "# ---- main ----" = []) (s : Session) (body : String) :
    Text.readLines f (s.program {} body) = s.front.flatMap (Text.readLines f) ++ Text.readLines f body := by
  rw [program, Text.readLines_layOut hf, show s.sections {} body = s.front ++ ["# ---- main ----" ++ "\n" ++ body] from rfl,
    List.flatMap_append, List.flatMap_singleton, Text.readLines_append_line, hheader, List.nil_append]

theorem outline_program (s : Session) (body : String) :
    outline (s.program {} body) = s.front.flatMap outline ++ outline body :=
  readLines_program Mark.passesBlanks rfl s body

theorem filled_front (hs : s.Texts H) (hH : H) : Filled (s.front.flatMap outline) := by
  refine filled_flatMap fun code hcode => ?_
  obtain hcode | hcode := List.mem_append.mp hcode
  · simp only [List.mem_cons, List.not_mem_nil, or_false] at hcode
    obtain rfl | rfl | rfl | rfl := hcode
    · exact filled_imports hs
    · rw [outline_joined]
      exact filled_flatMap fun code hcode => hs.fragments .globals (by simp) code hcode hH
    · rw [outline_joined]
      exact filled_flatMap fun code hcode => hs.fragments .declarations (by simp) code hcode hH
    · rw [outline_joined_apart, List.flatMap_map]
      refine filled_flatMap fun code hcode => ?_
      rw [outline_trimEnd]
      exact hs.functions code hcode hH
  · exact filled_setupSection hs hH code hcode

end Session

end BlockScript
