import Mathlib.Data.List.Pairwise
import BlockScript.Proofs.Identifiers

namespace BlockScript

/-- What is asked of a name table. -/
inductive NameRequest where
  /-- The identifier that is kept for a logical name. -/
  | get (label : Label)
  /-- A new identifier for this time only. -/
  | distinct (label : Label)
  | reset

/-- An identifier handed out for a logical name, and whether it is kept for it. -/
structure Handout where
  label : Label
  kept : Bool
  identifier : String

/-- Both are kept for the same logical name. -/
def Handout.Agree (a b : Handout) : Prop :=
  a.kept = true ∧ b.kept = true ∧ (a.label == b.label) = true

theorem Handout.Agree.symm {a b : Handout} (h : a.Agree b) : b.Agree a :=
  ⟨h.2.1, h.1, BEq.symm h.2.2⟩

/-- A name table and what it handed out since the last reset, in order. -/
structure NameRun where
  names : Names
  given : List Handout

namespace NameRun

/-- A logical name that cannot be looked up gets no identifier and changes nothing. -/
def step (r : NameRun) : NameRequest → NameRun
  | .get l => match r.names.get l with
    | .ok (x, names) => ⟨names, r.given ++ [⟨l, true, x⟩]⟩
    | .error _ => r
  | .distinct l =>
    let (x, names) := r.names.allocate l
    ⟨names, r.given ++ [⟨l, false, x⟩]⟩
  | .reset => ⟨r.names.reset, []⟩

def after (reserved : List String) (requests : List NameRequest) : NameRun :=
  requests.foldl step ⟨{ reserved }, []⟩

/-- The tables say what was handed out, and every identifier was the first free one. -/
structure Sound (reserved : List String) (r : NameRun) : Prop where
  words : r.names.reserved = reserved
  used : ∀ x, x ∈ r.names.used ↔ x ∈ r.given.map (·.identifier)
  found : ∀ l, r.names.find? l = (r.given.find? fun h => h.kept && h.label == l).map (·.identifier)
  labelled : ∀ x, r.names.labels.get? x = (r.given.find? (·.identifier == x)).map (·.label)
  separate : r.given.Pairwise fun a b => a.identifier = b.identifier ↔ a.Agree b
  chosen : ∀ earlier h later, r.given = earlier ++ h :: later →
    h.identifier ∉ earlier.map (·.identifier) →
      Names.IsFirstFree (fun x => x ∈ earlier.map (·.identifier) ∨ x ∈ reserved)
        h.label.name.identifier h.identifier

variable {reserved : List String} {r : NameRun}

theorem sound_empty (names : Names) (hw : names.reserved = reserved) (hu : names.used = [])
    (hi : names.identifiers = {}) (hl : names.labels = {}) : Sound reserved ⟨names, []⟩ where
  words := hw
  used x := by simp [hu]
  found l := by simp [Names.find?, hi, Ledger.get?]
  labelled x := by simp [hl, Ledger.get?]
  separate := .nil
  chosen earlier h later he := by simp at he

/-- What `given ++ [g]` asks for when `given` has it already. -/
theorem chosen_concat {given : List Handout} {g : Handout} {P : List Handout → Handout → Prop}
    (hold : ∀ earlier h later, given = earlier ++ h :: later → P earlier h) (hnew : P given g)
    (earlier : List Handout) (h : Handout) (later : List Handout)
    (he : given ++ [g] = earlier ++ h :: later) : P earlier h := by
  obtain rfl | ⟨later, g', rfl⟩ := later.eq_nil_or_concat
  · obtain ⟨rfl, hg⟩ := List.append_inj' he rfl
    obtain rfl : g = h := by simpa using hg
    exact hnew
  · have he' : given ++ [g] = (earlier ++ h :: later) ++ [g'] := by simpa using he
    exact hold earlier h later (List.append_inj_left' he' rfl)

theorem Sound.find?_congr (hr : Sound reserved r) {l l' : Label} (h : (l == l') = true) :
    r.names.find? l = r.names.find? l' := by
  have hp : (fun g : Handout => g.kept && g.label == l) = fun g => g.kept && g.label == l' := by
    funext g
    rw [BEq.congr_right h]
  rw [hr.found, hr.found, hp]

theorem Sound.mem_of_found (hr : Sound reserved r) {l : Label} {x : String} (h : r.names.find? l = some x) :
    ∃ g ∈ r.given, g.kept = true ∧ (g.label == l) = true ∧ g.identifier = x := by
  rw [hr.found, Option.map_eq_some_iff] at h
  obtain ⟨g, hg, rfl⟩ := h
  have hp := List.find?_some hg
  simp only [Bool.and_eq_true] at hp
  exact ⟨g, List.mem_of_find?_eq_some hg, hp.1, hp.2, rfl⟩

/-- Two different handouts have the same identifier exactly if they agree. -/
theorem Sound.agree_iff (hr : Sound reserved r) {a b : Handout} (ha : a ∈ r.given) (hb : b ∈ r.given)
    (hne : a ≠ b) : a.identifier = b.identifier ↔ a.Agree b := by
  have hsymm : Std.Symm fun a b : Handout => a.identifier = b.identifier ↔ a.Agree b :=
    ⟨fun a b hab => eq_comm.trans (hab.trans ⟨Handout.Agree.symm, Handout.Agree.symm⟩)⟩
  exact hr.separate.forall ha hb hne

theorem freeIdentifier_not_given (hr : Sound reserved r) (base : String) :
    r.names.freeIdentifier base ∉ r.given.map (·.identifier) := by
  have h := (r.names.freeIdentifier_firstFree base).not_taken
  rw [← hr.used]
  exact fun hu => h (Or.inl hu)

/-- What a new identifier does to the tables; where it is kept, there was none before. -/
theorem Sound.extend (hr : Sound reserved r) (l : Label) (kept : Bool) (names : Names)
    (hk : kept = true → r.names.find? l = none)
    (hn : names = { r.names with
      used := r.names.freeIdentifier l.name.identifier :: r.names.used
      labels := r.names.labels.put (r.names.freeIdentifier l.name.identifier) l
      identifiers := if kept then
        r.names.identifiers.put l (r.names.freeIdentifier l.name.identifier) else r.names.identifiers }) :
    Sound reserved ⟨names, r.given ++ [⟨l, kept, r.names.freeIdentifier l.name.identifier⟩]⟩ := by
  have hnew := freeIdentifier_not_given hr l.name.identifier
  have hfirst := r.names.freeIdentifier_firstFree l.name.identifier
  generalize r.names.freeIdentifier l.name.identifier = x at hn hnew hfirst ⊢
  subst hn
  constructor
  case words => exact hr.words
  case used =>
    intro y
    simp [hr.used y, or_comm]
  case found =>
    intro l'
    simp only [Names.find?, List.find?_append, Option.map_or]
    rw [← hr.found l']
    cases kept with
    | false => simp [Names.find?]
    | true =>
      simp only [↓reduceIte, Ledger.get?_put]
      by_cases hl : (l == l') = true
      · have hnone : r.names.identifiers.get? l' = none := (hr.find?_congr hl).symm.trans (hk rfl)
        simp [hl, Names.find?, hnone]
      · simp [hl, Names.find?]
  case labelled =>
    intro y
    rw [Ledger.get?_put, List.find?_append, Option.map_or, ← hr.labelled y]
    by_cases hy : x = y
    · subst hy
      have hnone : r.names.labels.get? x = none := by
        rw [hr.labelled, Option.map_eq_none_iff, List.find?_eq_none]
        intro h hh he
        exact hnew (List.mem_map.mpr ⟨h, hh, by simpa using he⟩)
      simp [hnone]
    · simp [hy]
  case separate =>
    refine List.pairwise_append.mpr ⟨hr.separate, List.pairwise_singleton _ _, ?_⟩
    intro a ha b hb
    obtain rfl := List.mem_singleton.mp hb
    have hne : a.identifier ≠ x := fun he => hnew (List.mem_map.mpr ⟨a, ha, he⟩)
    refine ⟨fun he => absurd he hne, fun hab => ?_⟩
    have hfound : r.names.find? l = none := hk hab.2.1
    rw [hr.found, Option.map_eq_none_iff, List.find?_eq_none] at hfound
    exact absurd (by simp [hab.1, show (a.label == l) = true from hab.2.2]) (hfound a ha)
  case chosen =>
    refine chosen_concat hr.chosen fun _ => hfirst.congr fun y => ?_
    simp only [hr.words, hr.used]

/-- Asking again for a logical name that has its identifier. -/
theorem Sound.repeat (hr : Sound reserved r) {l : Label} {x : String} (hf : r.names.find? l = some x) :
    Sound reserved ⟨r.names, r.given ++ [⟨l, true, x⟩]⟩ := by
  obtain ⟨g, hg, hkept, hlabel, rfl⟩ := hr.mem_of_found hf
  have hold : g.identifier ∈ r.given.map (·.identifier) := List.mem_map.mpr ⟨g, hg, rfl⟩
  constructor
  case words => exact hr.words
  case used =>
    intro y
    rw [List.map_append, List.mem_append, hr.used]
    refine ⟨Or.inl, fun h => h.elim id fun h => ?_⟩
    obtain rfl := List.mem_singleton.mp h
    exact hold
  case found =>
    intro l'
    rw [List.find?_append, Option.map_or, ← hr.found l']
    by_cases hl : (l == l') = true
    · rw [← hr.find?_congr hl, hf]
      rfl
    · simp [hl]
  case labelled =>
    intro y
    rw [List.find?_append, Option.map_or, ← hr.labelled y]
    by_cases hy : g.identifier = y
    · subst hy
      have hsome : (r.names.labels.get? g.identifier).isSome = true := by
        rw [hr.labelled, Option.isSome_map, List.find?_isSome]
        exact ⟨g, hg, by simp⟩
      obtain ⟨l', hl'⟩ := Option.isSome_iff_exists.mp hsome
      simp [hl']
    · simp [hy]
  case separate =>
    refine List.pairwise_append.mpr ⟨hr.separate, List.pairwise_singleton _ _, ?_⟩
    intro a ha b hb
    obtain rfl := List.mem_singleton.mp hb
    by_cases he : a = g
    · subst he
      simp [Handout.Agree, hkept, hlabel]
    · simp [hr.agree_iff ha hg he, Handout.Agree, BEq.congr_right hlabel, hkept]
  case chosen =>
    exact chosen_concat hr.chosen fun h => absurd hold h

theorem Sound.step (hr : Sound reserved r) (q : NameRequest) : Sound reserved (r.step q) := by
  cases q with
  | get l =>
    unfold NameRun.step Names.get
    by_cases hk : l.name.isKey = true
    · cases hf : r.names.find? l with
      | some x => simpa [hk, hf] using hr.repeat hf
      | none => simpa [hk, hf, Names.allocateFor, Names.allocate] using hr.extend l true _ (fun _ => hf) rfl
    · simpa [hk] using hr
  | distinct l => exact hr.extend l false _ (by simp) rfl
  | reset => exact sound_empty r.names.reset hr.words rfl rfl rfl

theorem sound_after (reserved : List String) (requests : List NameRequest) :
    Sound reserved (after reserved requests) := by
  have hrun : ∀ (r : NameRun), Sound reserved r → Sound reserved (requests.foldl NameRun.step r) := by
    induction requests with
    | nil => exact fun r hr => hr
    | cons q requests ih => exact fun r hr => ih (r.step q) (hr.step q)
  exact hrun _ (sound_empty _ rfl rfl rfl rfl)

/-- An identifier that was handed out first came from the search for a free one. -/
theorem Sound.first_handout (hr : Sound reserved r) {h : Handout} (hh : h ∈ r.given) :
    ∃ g ∈ r.given, g.identifier = h.identifier ∧ ∃ earlier : List Handout,
      Names.IsFirstFree (fun x => x ∈ earlier.map (·.identifier) ∨ x ∈ reserved)
        g.label.name.identifier g.identifier := by
  have hsome : (r.given.find? (·.identifier == h.identifier)).isSome = true := by
    rw [List.find?_isSome]
    exact ⟨h, hh, by simp⟩
  obtain ⟨g, hg⟩ := Option.isSome_iff_exists.mp hsome
  obtain ⟨hg', earlier, later, he, hearlier⟩ := List.find?_eq_some_iff_append.mp hg
  have hgh : g.identifier = h.identifier := by simpa using hg'
  refine ⟨g, List.mem_of_find?_eq_some hg, hgh, earlier, hr.chosen earlier g later he ?_⟩
  rw [List.mem_map]
  rintro ⟨a, ha, hax⟩
  simpa [hax, hgh] using hearlier a ha

theorem Sound.plain (hr : Sound reserved r) {h : Handout} (hh : h ∈ r.given) :
    h.identifier ∉ reserved ∧ IsIdentifier h.identifier := by
  obtain ⟨g, -, hgh, earlier, hfirst⟩ := hr.first_handout hh
  rw [← hgh]
  exact ⟨fun hx => hfirst.not_taken (Or.inr hx), hfirst.isIdentifier (Names.identifier_isIdentifier _)⟩

/-- A name table never hands an identifier out twice, but for the same logical name: after any run,
two handouts have the same identifier exactly if both are kept for the same logical name; none is
reserved, all are identifiers; each new one was the first free one at its time; the table knows the
logical name that each was first handed out for; and whatever is asked next gets an answer. -/
theorem handouts_never_collide (reserved : List String) (requests : List NameRequest) :
    let r := after reserved requests
    (r.given.Pairwise fun a b => a.identifier = b.identifier ↔ a.Agree b) ∧
    (∀ h ∈ r.given, h.identifier ∉ reserved ∧ IsIdentifier h.identifier) ∧
    (∀ earlier h later, r.given = earlier ++ h :: later →
      h.identifier ∉ earlier.map (·.identifier) →
        Names.IsFirstFree (fun x => x ∈ earlier.map (·.identifier) ∨ x ∈ reserved)
          h.label.name.identifier h.identifier) ∧
    (∀ x, r.names.logicalName? x = (r.given.find? (·.identifier == x)).map (·.label.name)) ∧
    (∀ l : Label, l.name.isKey = true →
      ∃ x, (r.step (.get l)).given = r.given ++ [⟨l, true, x⟩]) ∧
    (∀ l : Label, ∃ x, (r.step (.distinct l)).given = r.given ++ [⟨l, false, x⟩]) := by
  intro r
  have hr : Sound reserved r := sound_after reserved requests
  refine ⟨hr.separate, fun h hh => hr.plain hh, hr.chosen, ?_, ?_, ?_⟩
  · intro x
    rw [Names.logicalName?, hr.labelled, Option.map_map]
    rfl
  · intro l hl
    cases hf : r.names.find? l with
    | some x => exact ⟨x, by simp [step, Names.get, hl, hf]⟩
    | none => exact ⟨_, by simp [step, Names.get, hl, hf, Names.allocateFor]; rfl⟩
  · exact fun l => ⟨_, rfl⟩

example :
    let a : Label := ⟨.variable, .text "a"⟩
    ((after ["if"] [.get a, .distinct a, .get ⟨.procedure, .text "a_2"⟩, .get a, .distinct
      ⟨.generated, .text "if"⟩]).given.map (·.identifier)) = ["a", "a_2", "a_2_2", "a", "if_2"] := by
  decide

end NameRun

end BlockScript
