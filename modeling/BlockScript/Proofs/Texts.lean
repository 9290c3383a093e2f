import BlockScript.Proofs.Operands
import BlockScript.Proofs.Sheets

namespace BlockScript

/-- A line that imports something. -/
def IsImport (code : String) : Prop :=
  OneLine code ∧ ("import ".toList <+: code.toList ∨ "from ".toList <+: code.toList)

namespace Ledger

variable {κ α : Type} [BEq κ]

theorem mem_values_put {l : Ledger κ α} {k : κ} {a b : α} (h : b ∈ (l.put k a).values) : b = a ∨ b ∈ l.values := by
  obtain ⟨es⟩ := l
  simp only [put, values] at h ⊢
  induction es with
  | nil => simpa [putEntry] using h
  | cons e es ih =>
    simp only [putEntry] at h
    split at h
    · simp only [List.map_cons, List.mem_cons] at h ⊢
      obtain rfl | h := h
      · exact Or.inl rfl
      · exact Or.inr (Or.inr h)
    · simp only [List.map_cons, List.mem_cons] at h ⊢
      obtain rfl | h := h
      · exact Or.inr (Or.inl rfl)
      · exact (ih h).imp_right Or.inr

end Ledger

theorem Fragments.mem_values_add {κ : Type} [BEq κ] {f : Fragments κ} {tag : κ} {code : String} {overwrite : Bool}
    {b : String} (h : b ∈ (f.add tag code overwrite).2.values) : b = code ∨ b ∈ f.values := by
  unfold Fragments.add at h
  split at h
  · split at h
    · exact Or.inr h
    · exact Ledger.mem_values_put h
  · exact Ledger.mem_values_put h

/-- The texts that a session keeps: imports are lines, and in all other texts the suites are filled if `H` holds. -/
structure Session.Texts (H : Prop) (s : Session) : Prop where
  imports : ∀ code ∈ (s.fragments .imports).values, IsImport code
  fragments : ∀ part, part ≠ .imports → ∀ code ∈ (s.fragments part).values, H → Filled (outline code)
  functions : ∀ code ∈ s.functions.values, H → Filled (outline code)

variable {H : Prop} {α β : Type}

theorem Session.Texts.congr {s t : Session} (hs : s.Texts H) (hf : t.fragments = s.fragments)
    (hv : t.functions.values = s.functions.values) : t.Texts H := by
  refine ⟨?_, ?_, ?_⟩
  · rw [hf]
    exact hs.imports
  · rw [hf]
    exact hs.fragments
  · rw [hv]
    exact hs.functions

/-- What a run gives where it succeeds, with names that stay names and texts that stay filled. -/
structure Run.Ensures (H : Prop) (r : Run α) (P : α → Prop) : Prop where
  holds : ∀ {s t : Session} {a : α}, r.run s = (.ok a, t) → s.Plain → P a ∧ t.Plain ∧ (s.Texts H → t.Texts H)

namespace Run.Ensures

variable {P : α → Prop} {r : Run α}

theorem imp {Q : α → Prop} (h : Ensures H r P) (hi : ∀ a, P a → Q a) : Ensures H r Q :=
  ⟨fun hr hs => (h.holds hr hs).imp_left (hi _)⟩

theorem pure {a : α} (h : P a) : Ensures H (pure a : Run α) P := by
  refine ⟨fun hr hs => ?_⟩
  obtain ⟨rfl, rfl⟩ := ok_of_run_pure hr
  exact ⟨h, hs, id⟩

theorem throw (f : Fault) (P : α → Prop) : Ensures H (throw f : Run α) P :=
  ⟨fun hr _ => (not_ok_of_run_throw hr).elim⟩

theorem bind {f : α → Run β} {Q : β → Prop} (hr : Ensures H r P) (hf : ∀ a, P a → Ensures H (f a) Q) :
    Ensures H (r >>= f) Q := by
  refine ⟨fun h hs => ?_⟩
  obtain ⟨a, u, ha, hb⟩ := ok_of_run_bind h
  obtain ⟨hP, hu, hfirst⟩ := hr.holds ha hs
  obtain ⟨hQ, ht, hnext⟩ := (hf a hP).holds hb hu
  exact ⟨hQ, ht, fun htexts => hnext (hfirst htexts)⟩

theorem mapM {f : α → Run β} {Q : α → β → Prop} (l : List α) (hf : ∀ a ∈ l, Ensures H (f a) (Q a)) :
    Ensures H (l.mapM f) (List.Forall₂ Q l) := by
  induction l with
  | nil => exact pure .nil
  | cons a l ih =>
    rw [List.mapM_cons]
    refine bind (hf a (by simp)) fun b hb => ?_
    refine bind (ih fun a ha => hf a (by simp [ha])) fun bs hbs => ?_
    exact pure (.cons hb hbs)

theorem mapM_all {f : α → Run β} {Q : β → Prop} (l : List α) (hf : ∀ a ∈ l, Ensures H (f a) Q) :
    Ensures H (l.mapM f) fun bs => bs.length = l.length ∧ ∀ b ∈ bs, Q b := by
  refine (mapM (Q := fun _ b => Q b) l hf).imp fun bs hbs => ⟨hbs.length_eq.symm, ?_⟩
  induction hbs with
  | nil => simp
  | cons hb _ ih => exact List.forall_mem_cons.mpr ⟨hb, ih fun a ha => hf a (by simp [ha])⟩

theorem forM {f : α → Run PUnit} (l : List α) (hf : ∀ a ∈ l, Ensures H (f a) fun _ => True) :
    Ensures H (l.forM f) fun _ => True := by
  induction l with
  | nil => exact pure trivial
  | cons a l ih => exact bind (hf a (by simp)) fun _ _ => ih fun a ha => hf a (by simp [ha])

/-- What is known about the trees that a run gives may be used too. -/
theorem and_gives {Q : Session → α → Prop} (h : Ensures H r P) (hg : ∀ u, Gives u r (Q u)) :
    Ensures H r fun a => P a ∧ ∃ u, Q u a := by
  refine ⟨fun {s t a} hr hs => ?_⟩
  obtain ⟨hP, ht, htexts⟩ := h.holds hr hs
  exact ⟨⟨hP, t, (hg t).gives hr hs (.refl t)⟩, ht, htexts⟩

/-- A run that changes no text. -/
theorem of_same (hg : r.Within Session.Grows) (hP : ∀ {s t a}, r.run s = (.ok a, t) → s.Plain → P a)
    (hs : ∀ s, (r.run s).2.fragments = s.fragments ∧ (r.run s).2.functions.values = s.functions.values) :
    Ensures H r P := by
  refine ⟨fun {s t a} hr hplain => ?_⟩
  have hsame := hs s
  rw [hr] at hsame
  exact ⟨hP hr hplain, (hg.of_run hr).2 hplain, fun htexts => htexts.congr hsame.1 hsame.2⟩

end Run.Ensures

open Run

theorem Session.recordIf_fragments (p : Bool) (r : LogRecord) (s : Session) :
    (recordIf p r s).fragments = s.fragments := by
  cases p <;> rfl

theorem record_ensures (r : LogRecord) : Ensures H (record r) fun _ => True :=
  .of_same (Session.grows_steps.record r) (fun _ _ => trivial) fun _ => ⟨rfl, rfl⟩

theorem checkOpen_ensures : Ensures H checkOpen fun _ => True := by
  refine .of_same Session.grows_steps.checkOpen (fun _ _ => trivial) fun s => ?_
  rw [run_checkOpen]
  exact ⟨rfl, rfl⟩

theorem identifier_ensures (realm : Realm) (name : Value) : Ensures H (identifier realm name) IsName := by
  refine .of_same (Session.identifier_within realm name) (fun {s t x} h hs => ?_) fun s => ?_
  · exact ((identifier_gives realm name).gives h hs (.refl t)).2
  · rw [run_identifier]
    split
    · exact ⟨rfl, rfl⟩
    · exact ⟨Session.recordIf_fragments _ _ _, by rw [Session.recordIf_functions]⟩

theorem distinctIdentifier_ensures (realm : Realm) (name : Value) :
    Ensures H (distinctIdentifier realm name) IsName := by
  refine .of_same (Session.grows_steps.distinct realm name) (fun {s t x} h hs => ?_) fun s => ?_
  · rw [run_distinctIdentifier] at h
    cases h
    exact hs.allocate _
  · rw [run_distinctIdentifier]
    exact ⟨rfl, rfl⟩

theorem warn_ensures (id tag : String) (text : Option String) : Ensures H (Run.warn id tag text) fun _ => True :=
  .of_same (Session.grows_steps.warn id tag text) (fun _ _ => trivial) fun _ => ⟨rfl, rfl⟩

theorem claimPin_ensures (id : String) (pin : Value) (task : PinTask) (tag : String) :
    Ensures H (Run.claimPin id pin task tag) fun _ => True := by
  refine .of_same (Session.grows_steps.pin id pin task tag) (fun _ _ => trivial) fun s => ?_
  rw [run_claimPin]
  split <;> exact ⟨rfl, rfl⟩

theorem Session.fragments_setFragments (s : Session) (r : Fragments Value) (part other : Section) :
    (s.setFragments r part).fragments other = if other = part then r else s.fragments other := by
  cases part <;> cases other <;> rfl

theorem ok_of_run_addFragment {part : Section} {tag : Value} {code : String} {overwrite changed : Bool} {s t : Session}
    (h : (addFragment part tag code overwrite).run s = (.ok changed, t)) :
    t.names = s.names ∧ t.functions = s.functions ∧ ∀ other, ∀ b ∈ (t.fragments other).values,
      (other = part ∧ b = code) ∨ b ∈ (s.fragments other).values := by
  rw [run_addFragment] at h
  split at h
  · obtain rfl := (Prod.mk.inj h).2
    refine ⟨?_, ?_, fun other b hb => ?_⟩
    · rw [Session.recordIf_names, Session.setFragments_names]
    · rw [Session.recordIf_functions, Session.setFragments_functions]
    · rw [Session.recordIf_fragments, Session.fragments_setFragments] at hb
      split at hb
      · rename_i hother
        subst hother
        exact (Fragments.mem_values_add hb).imp_left fun h => ⟨rfl, h⟩
      · exact Or.inr hb
  · cases h

theorem addFragment_ensures {part : Section} {tag : Value} {code : String} {overwrite : Bool}
    (hi : part = .imports → IsImport code) (hc : part ≠ .imports → H → Filled (outline code)) :
    Ensures H (addFragment part tag code overwrite) fun _ => True := by
  refine ⟨fun {s t a} h hs => ⟨trivial, ((Session.grows_steps.fragment part tag code overwrite).of_run h).2 hs, ?_⟩⟩
  intro htexts
  obtain ⟨-, hfunctions, hvalues⟩ := ok_of_run_addFragment h
  refine ⟨fun b hb => ?_, fun other hother b hb hH => ?_, ?_⟩
  · obtain ⟨hpart, rfl⟩ | hb := hvalues _ b hb
    · exact hi hpart.symm
    · exact htexts.imports b hb
  · obtain ⟨rfl, rfl⟩ | hb := hvalues _ b hb
    · exact hc hother hH
    · exact htexts.fragments other hother b hb hH
  · rw [hfunctions]
    exact htexts.functions

theorem importModule_ensures {source : String} (h : OneLine source) :
    Ensures H (importModule source) fun _ => True := by
  refine addFragment_ensures (fun _ => ⟨?_, Or.inl ?_⟩) fun hne => absurd rfl hne
  · rw [oneLine_append]
    exact ⟨by decide, h⟩
  · rw [String.toList_append]
    exact List.prefix_append _ _

theorem importFrom_ensures {source name : String} (hs : OneLine source) (hn : OneLine name) :
    Ensures H (importFrom source name) fun _ => True := by
  refine addFragment_ensures (fun _ => ⟨?_, Or.inr ?_⟩) fun hne => absurd rfl hne
  · simp only [oneLine_append]
    exact ⟨⟨⟨by decide, hs⟩, by decide⟩, hn⟩
  · simp only [String.toList_append, List.append_assoc]
    exact List.prefix_append _ _

theorem declare_ensures {tag code : String} {overwrite : Bool} (h : H → Filled (outline code)) :
    Ensures H (declare tag code overwrite) fun _ => True :=
  addFragment_ensures (fun hne => by cases hne) fun _ => h

theorem addVariable_ensures {name : Value} {code : String} {overwrite : Bool} (h : H → Filled (outline code)) :
    Ensures H (addVariable name code overwrite) fun _ => True :=
  addFragment_ensures (fun hne => by cases hne) fun _ => h

theorem addSetup_ensures {tag code : String} {overwrite : Bool} (h : H → Filled (outline code)) :
    Ensures H (addSetup tag code overwrite) fun _ => True :=
  addFragment_ensures (fun hne => by cases hne) fun _ => h

theorem addProcedure_ensures {name code : String} (h : H → Filled (outline code)) :
    Ensures H (addProcedure name code) fun _ => True := by
  refine ⟨fun {s t a} hr hs => ⟨trivial, ((Session.grows_steps.procedure name code).of_run hr).2 hs, ?_⟩⟩
  intro htexts
  rw [run_addProcedure] at hr
  split at hr
  · cases hr
    refine ⟨htexts.imports, htexts.fragments, fun b hb hH => ?_⟩
    obtain hb | hb := List.mem_append.mp hb
    · exact htexts.functions b (List.mem_append_left _ hb) hH
    · obtain rfl | hb := Ledger.mem_values_put hb
      · exact h hH
      · exact htexts.functions b (List.mem_append_right _ hb) hH
  · cases hr

theorem Functions.mem_values_provide {f : Functions} {names : Names} {preferred text b : String}
    (h : b ∈ (f.provide names preferred text).2.1.values) :
    b = named (f.provide names preferred text).1 text ∨ b ∈ f.values := by
  have htexts : (f.identify names preferred).2.1.texts = f.texts := by
    unfold identify
    split <;> rfl
  have hprocedures : (f.identify names preferred).2.1.procedures = f.procedures := by
    unfold identify
    split <;> rfl
  unfold provide at h ⊢
  dsimp only at h ⊢
  rw [htexts] at h ⊢
  split at h
  · rename_i hin
    rw [if_pos hin]
    rw [values, htexts, hprocedures] at h
    exact Or.inr h
  · rename_i hout
    rw [if_neg hout]
    obtain h | h := List.mem_append.mp h
    · replace h := Ledger.mem_values_put h
      rw [htexts] at h
      exact h.imp_right (List.mem_append_left _)
    · replace h : b ∈ (f.identify names preferred).2.1.procedures.values := h
      rw [hprocedures] at h
      exact Or.inr (List.mem_append_right _ h)

theorem provide_ensures {preferred text : String}
    (h : ∀ x, IsIdentifier x → Filled (outline (Functions.named x text))) :
    Ensures H (Run.provide preferred text) IsName := by
  refine ⟨fun {s t x} hr hs => ?_⟩
  have hgrows := (Session.provide_within preferred text).of_run hr
  have hname := ((provide_gives preferred text).gives hr hs (.refl t)).2
  refine ⟨hname, hgrows.2 hs, fun htexts => ?_⟩
  rw [run_provide] at hr
  split at hr
  · cases hr
    refine ⟨?_, ?_, ?_⟩
    · rw [Session.recordIf_fragments, Session.recordIf_fragments]
      exact htexts.imports
    · rw [Session.recordIf_fragments, Session.recordIf_fragments]
      exact htexts.fragments
    · rw [Session.recordIf_functions, Session.recordIf_functions]
      intro b hb hH
      obtain hb | hb := Functions.mem_values_provide hb
      · rw [hb]
        exact h _ hname.1
      · exact htexts.functions b hb hH
  · cases hr

namespace Text

variable {key value : List Char}

theorem substituteFrom_skip (k : Nat) (cs : List Char) :
    substituteFrom key value k cs = substituteFrom key value 0 (cs.drop k) := by
  induction k generalizing cs with
  | zero => rfl
  | succ k ih =>
    cases cs with
    | nil => rfl
    | cons c cs => exact ih cs

theorem substituteFrom_plain {d : Char} {ds cs : List Char} (h : d ∉ cs) (rest : List Char) :
    substituteFrom (d :: ds) value 0 (cs ++ rest) = cs ++ substituteFrom (d :: ds) value 0 rest := by
  induction cs with
  | nil => rfl
  | cons c cs ih =>
    rw [List.mem_cons, not_or] at h
    have hprefix : (d :: ds).isPrefixOf (c :: (cs ++ rest)) = false := by
      simp [List.isPrefixOf, h.1]
    simp only [List.cons_append, substituteFrom, hprefix, ih h.2]
    rfl

theorem substituteFrom_key {d : Char} {ds : List Char} (rest : List Char) :
    substituteFrom (d :: ds) value 0 (d :: ds ++ rest) = value ++ substituteFrom (d :: ds) value 0 rest := by
  have hprefix : (d :: ds).isPrefixOf (d :: (ds ++ rest)) = true := by
    rw [List.isPrefixOf_iff_prefix]
    exact List.prefix_append (d :: ds) rest
  simp only [List.cons_append, substituteFrom, hprefix, if_true, List.length_cons, Nat.add_sub_cancel,
    substituteFrom_skip ds.length, List.drop_left]

end Text

theorem Functions.named_eq {x start rest : String} (hs : '\x7b' ∉ start.toList) (hr : '\x7b' ∉ rest.toList) :
    named x (start ++ functionMark ++ rest) = start ++ x ++ rest := by
  have hmark : functionMark.toList = '\x7b' :: functionMark.toList.tail := rfl
  have hrest : Text.substituteFrom ('\x7b' :: functionMark.toList.tail) x.toList 0 (rest.toList ++ []) = _ :=
    Text.substituteFrom_plain hr []
  rw [← String.toList_inj, named, Text.substitute, String.toList_ofList, String.toList_append, String.toList_append,
    hmark, List.append_assoc, Text.substituteFrom_plain hs, Text.substituteFrom_key]
  rw [List.append_nil] at hrest
  rw [hrest]
  simp [Text.substituteFrom]

namespace FunctionText

/-- The lines of a function as text. -/
def body (lines : List (Nat × String)) : String :=
  Text.joined "\n" (lines.map fun (depth, line) => Text.repeated "    " depth ++ line)

/-- The characters of a line at its depth. -/
def chars (line : Nat × List Char) : List Char :=
  (List.replicate line.1 [' ', ' ', ' ', ' ']).flatten ++ line.2

/-- Lines with their characters. -/
inductive Spelled : List (Nat × String) → List (Nat × List Char) → Prop
  | nil : Spelled [] []
  | cons {depth : Nat} {line : String} {cs : List Char} {ls : List (Nat × String)} {ds : List (Nat × List Char)}
      (head : line = String.ofList cs) (tail : Spelled ls ds) : Spelled ((depth, line) :: ls) ((depth, cs) :: ds)

/-- A function whose suites are filled under every name. -/
inductive Proper : FunctionText → Prop
  | intro {preferred args : String} {ls : List (Nat × String)} {as : List Char} {ds : List (Nat × List Char)}
      (spelled : Spelled ((0, args) :: ls) ((0, as) :: ds)) (plain : ∀ d ∈ (0, as) :: ds, '\n' ∉ d.2 ∧ '\x7b' ∉ d.2)
      (filled : Filled (⟨0, true⟩ :: ds.filterMap (Mark.ofLine? ∘ chars))) : Proper ⟨preferred, header args :: ls⟩

theorem toList_repeated (depth : Nat) :
    (Text.repeated "    " depth).toList = (List.replicate depth [' ', ' ', ' ', ' ']).flatten := by
  induction depth with
  | zero => rfl
  | succ depth ih => simp [Text.repeated, ih, List.replicate_succ]

theorem Spelled.plain {c : Char} (hc : c ≠ ' ') {ls : List (Nat × String)} {ds : List (Nat × List Char)}
    (h : Spelled ls ds) (hd : ∀ d ∈ ds, c ∉ d.2) : ∀ l ∈ ls, c ∉ (Text.repeated "    " l.1 ++ l.2).toList := by
  induction h with
  | nil => simp
  | cons head tail ih =>
    rw [List.forall_mem_cons] at hd ⊢
    refine ⟨?_, ih hd.2⟩
    rw [head, String.toList_append, String.toList_ofList, toList_repeated]
    simp [hc, hd.1]

theorem Spelled.outline {ls : List (Nat × String)} {ds : List (Nat × List Char)} (h : Spelled ls ds)
    (hd : ∀ d ∈ ds, '\n' ∉ d.2) : outline (body ls) = ds.filterMap (Mark.ofLine? ∘ chars) := by
  have hlines := h.plain (by decide) hd
  rw [body, outline_joined, List.flatMap_map]
  clear hd
  induction h with
  | nil => rfl
  | cons head tail ih =>
    rw [List.forall_mem_cons] at hlines
    rw [List.flatMap_cons, List.filterMap_cons, ih hlines.2, OneLine.outline hlines.1, head, String.toList_append,
      String.toList_ofList, toList_repeated]
    cases hm : (Mark.ofLine? ∘ chars) _ with
    | none => simp_all [chars]
    | some m => simp_all [chars]

theorem body_header {args : String} {ls : List (Nat × String)} (h : ls ≠ []) :
    body (header args :: ls) = "def " ++ functionMark ++ ("(" ++ args ++ "):" ++ "\n" ++ body ls) := by
  cases ls with
  | nil => exact absurd rfl h
  | cons l ls =>
    simp only [body, header, List.map_cons, Text.joined, Text.repeated, String.empty_append, String.append_assoc]

/-- A function under a name has its header, and then the lines of its suite. -/
theorem Proper.named {f : FunctionText} (hf : f.Proper) : ∃ args ls ds, f.lines = header args :: ls ∧ OneLine args ∧
    Spelled ls ds ∧ (∀ d ∈ ds, '\n' ∉ d.2) ∧ Filled (⟨0, true⟩ :: ds.filterMap (Mark.ofLine? ∘ chars)) ∧
    ∀ x, Functions.named x (body f.lines) = "def " ++ x ++ "(" ++ args ++ "):" ++ "\n" ++ body ls := by
  cases hf with
  | @intro _ args ls as ds spelled plain filled =>
    cases spelled with
    | cons head tail =>
      rw [List.forall_mem_cons] at plain
      obtain ⟨⟨hargs, hplain⟩, hlines⟩ := plain
      have hchars : as = args.toList := by rw [head, String.toList_ofList]
      rw [hchars] at hargs hplain
      have hne : ls ≠ [] := by
        rintro rfl
        cases tail
        simp [filled_cons] at filled
      have hbody : '\x7b' ∉ (body ls).toList := by
        refine Text.not_mem_joined (by decide) ?_
        rw [List.forall_mem_map]
        exact tail.plain (by decide) fun d hd => (hlines d hd).2
      have hclean : '\x7b' ∉ ("(" ++ args ++ "):" ++ "\n" ++ body ls).toList := by
        simp only [String.toList_append, List.mem_append, not_or]
        exact ⟨⟨⟨⟨by decide, hplain⟩, by decide⟩, by decide⟩, hbody⟩
      refine ⟨args, ls, ds, rfl, hargs, tail, fun d hd => (hlines d hd).1, filled, fun x => ?_⟩
      rw [body_header hne, Functions.named_eq (by decide) hclean]
      simp only [String.append_assoc]

theorem Proper.filled {f : FunctionText} (hf : f.Proper) {x : String} (hx : IsIdentifier x) :
    Filled (outline (Functions.named x (body f.lines))) := by
  obtain ⟨args, ls, ds, -, hargs, hspelled, hlines, hfilled, hnamed⟩ := hf.named
  have hdef : Starts true "def " := ⟨⟨by decide, by decide⟩, by decide⟩
  have hline := ((((hdef.append hx.oneLine).append (by decide : OneLine "(")).append hargs).append
    (by decide : OneLine "):")).line
  rw [hnamed, outline_append_line, hline.outline, hspelled.outline hlines]
  exact hfilled

/-- The suites of all functions that rules provide are filled. -/
theorem proper_of_mem {f : FunctionText} (hf : f ∈ all) : f.Proper := by
  simp only [all, List.mem_cons, List.not_mem_nil, or_false] at hf
  obtain rfl | rfl | rfl | rfl | rfl | rfl | rfl := hf
  case inr.inr.inr.inr.inr.inl =>
    -- numbers stand in its lines, which are therefore no literals
    exact .intro (.cons rfl (.cons String.ofList_toList.symm (.cons String.ofList_toList.symm .nil)))
      (by decide +kernel) (by decide +kernel)
  all_goals exact .intro (by repeat' constructor) (by decide +kernel) (by decide +kernel)

end FunctionText

theorem Scene.function_ensures {n : Nat} {s : Scene n} (hs : s.settings = {}) {f : FunctionText}
    (hf : f ∈ FunctionText.all) : Ensures H (s.function f) IsName := by
  unfold function provide
  rw [hs]
  exact provide_ensures fun x hx => (FunctionText.proper_of_mem hf).filled hx

end BlockScript
