import BlockScript.Proofs.BoundNames
import BlockScript.Proofs.Forests
import BlockScript.Proofs.Tracing

namespace BlockScript

variable {n : Nat}

/-- What a pin can be driven as. -/
inductive Drive where
  | digital
  | pwm
  | adc
  | servo
deriving DecidableEq

namespace Drive

/-- The devices that share the object of a pin. -/
def devices : Drive → List Device
  | digital => [.digital "IN", .digital "OUT"]
  | pwm => [.pwm]
  | adc => [.adc]
  | servo => [.servo]

/-- What the declaration of an object takes from the machine. -/
def needed : Drive → List String
  | digital => ["Pin"]
  | pwm => ["Pin", "PWM"]
  | adc => ["Pin", "ADC"]
  | servo => ["Pin", "PWM"]

def object : Drive → String
  | digital => "pin"
  | pwm => "pwm"
  | adc => "adc"
  | servo => "servo"

def tag : Drive → String
  | digital => "io_"
  | pwm => "pwm_"
  | adc => "adc_"
  | servo => "servo_"

end Drive

/-- A pin by its text, with what it is driven as. -/
structure Resource where
  drive : Drive
  pin : String
deriving DecidableEq

namespace Resource

def label (r : Resource) : Label :=
  ⟨.generated, .text (r.drive.object ++ r.pin)⟩

def key (r : Resource) : Value :=
  .text (r.drive.tag ++ r.pin)

variable {r r' : Resource}

end Resource

namespace Block

end Block

namespace Ledger

variable {κ α : Type} [BEq κ] {l : Ledger κ α} {k : κ}

/-- No key stands twice in a table. -/
def KeysApart (l : Ledger κ α) : Prop :=
  l.keys.Pairwise fun k k' => (k == k') = false

theorem KeysApart.put (h : l.KeysApart) (k : κ) (a : α) : (l.put k a).KeysApart := by
  rw [KeysApart, keys_put]
  split
  · exact h
  · rename_i hnew
    refine List.pairwise_append.mpr ⟨h, by simp, fun k' hk' k'' hk'' => ?_⟩
    obtain rfl := List.mem_singleton.mp hk''
    obtain ⟨e, he, rfl⟩ := List.mem_map.mp hk'
    rw [Bool.not_eq_true, contains, List.any_eq_false] at hnew
    exact Bool.eq_false_iff.mpr (hnew e he)

variable [EquivBEq κ]

/-- An entry is an old one, or it has the new value under the key. -/
theorem mem_entries_put {e : κ × α} {a : α} (h : e ∈ (l.put k a).entries) :
    e ∈ l.entries ∨ (e.1 == k) = true ∧ e.2 = a := by
  obtain ⟨es⟩ := l
  simp only [put] at h ⊢
  induction es with
  | nil =>
    obtain rfl := List.mem_singleton.mp h
    exact Or.inr ⟨BEq.rfl, rfl⟩
  | cons e' es ih =>
    rw [putEntry] at h
    split at h
    · rename_i hkey
      obtain rfl | h := List.mem_cons.mp h
      · exact Or.inr ⟨hkey, rfl⟩
      · exact Or.inl (List.mem_cons_of_mem _ h)
    · obtain rfl | h := List.mem_cons.mp h
      · exact Or.inl List.mem_cons_self
      · exact (ih h).imp_left (List.mem_cons_of_mem _)

/-- Where no key stands twice, a test that only entries of one key pass leaves one entry. -/
theorem KeysApart.filter_eq (h : l.KeysApart) {e : κ × α} (he : e ∈ l.entries) {p : κ × α → Bool} (hp : p e = true)
    (honly : ∀ e' ∈ l.entries, p e' = true → (e'.1 == e.1) = true) : l.entries.filter p = [e] := by
  obtain ⟨es⟩ := l
  simp only [KeysApart, keys] at h he honly ⊢
  induction es with
  | nil => cases he
  | cons e' es ih =>
    obtain ⟨hnew, hrest⟩ := List.pairwise_cons.mp h
    obtain rfl | he := List.mem_cons.mp he
    · rw [List.filter_cons_of_pos hp, List.filter_eq_nil_iff.mpr]
      intro e'' he'' hp''
      have hsame := honly e'' (List.mem_cons_of_mem _ he'') hp''
      have hdiffers := hnew e''.1 (List.mem_map_of_mem he'')
      rw [BEq.comm, hsame] at hdiffers
      cases hdiffers
    · have hdrop : ¬ p e' = true := by
        intro hp'
        have hsame := honly e' List.mem_cons_self hp'
        rw [hnew e.1 (List.mem_map_of_mem he)] at hsame
        cases hsame
      rw [List.filter_cons_of_neg hdrop]
      exact ih hrest he fun e'' he'' => honly e'' (List.mem_cons_of_mem _ he'')

end Ledger

namespace Fragments

variable {κ : Type} [BEq κ] {f : Fragments κ} {tag : κ} {code : String} {overwrite : Bool}

theorem add_cases (f : Fragments κ) (tag : κ) (code : String) (overwrite : Bool) :
    (f.add tag code overwrite).2 = f ∧ f.contains tag = true ∨ (f.add tag code overwrite).2 = f.put tag code := by
  unfold add
  cases hget : f.get? tag with
  | none => exact Or.inr rfl
  | some old =>
    dsimp only
    split
    · refine Or.inl ⟨rfl, ?_⟩
      rw [Ledger.contains_eq, hget]
      rfl
    · exact Or.inr rfl

theorem keysApart_add (h : f.KeysApart) : (f.add tag code overwrite).2.KeysApart := by
  obtain ⟨hsame, -⟩ | hput := f.add_cases tag code overwrite
  · rwa [hsame]
  · rw [hput]
    exact h.put tag code

variable [EquivBEq κ]

theorem mem_entries_add {e : κ × String} (h : e ∈ (f.add tag code overwrite).2.entries) :
    e ∈ f.entries ∨ (e.1 == tag) = true ∧ e.2 = code := by
  obtain ⟨hsame, -⟩ | hput := f.add_cases tag code overwrite
  · exact Or.inl (hsame ▸ h)
  · exact Ledger.mem_entries_put (hput ▸ h)

end Fragments

/-- An entry of the declarations: a constant, or an object by its identifier. -/
inductive Names.Filed (n : Nat) (names : Names) : Value × String → Prop where
  | constant {b : Block n} {tag : Value} {code : String} : b.DeclaresConstant tag code → names.Filed n (tag, code)
  | object {b : Block n} {label tag x : String} {declaration : String → String} {overwrite : Bool} :
      b.DeclaresObject label tag declaration overwrite → names.find? ⟨.generated, .text label⟩ = some x →
      names.Filed n (.text tag, declaration x)

namespace Session

variable {s t : Session}

/-- Only constants and named objects are declared, each once, and what is imported can be told from its tag. -/
structure Equipped (n : Nat) (s : Session) : Prop where
  isOpen : s.isOpen = true
  plain : s.Plain
  apart : s.names.Apart
  keys : s.declarations.KeysApart
  filed : ∀ e ∈ s.declarations.entries, s.names.Filed n e
  imported : ∀ e ∈ s.imports.entries, BringsIn e.1 e.2

/-- A step that takes back no declaration and no import. -/
structure Retains (s t : Session) : Prop where
  declarations : ∀ k, s.declarations.contains k = true → t.declarations.contains k = true
  imports : ∀ k, s.imports.contains k = true → t.imports.contains k = true


/-- A step that leaves declarations and imports alone. -/
structure SameStock (s t : Session) : Prop where
  isOpen : t.isOpen = s.isOpen
  declarations : t.declarations = s.declarations
  imports : t.imports = s.imports

theorem SameStock.retains (h : s.SameStock t) : s.Retains t where
  declarations k hk := by rwa [h.declarations]
  imports k hk := by rwa [h.imports]

theorem Equipped.of_same (hs : s.Equipped n) (hgrows : s.Grows t) (hapart : s.StaysApart t) (hsame : s.SameStock t) :
    t.Equipped n where
  isOpen := hsame.isOpen.trans hs.isOpen
  plain := hgrows.2 hs.plain
  apart := hapart hs.apart
  keys := by
    rw [hsame.declarations]
    exact hs.keys
  filed e he := by
    rw [hsame.declarations] at he
    cases hs.filed e he with
    | constant h => exact .constant h
    | object h hx => exact .object h (hgrows.1.names _ _ hx)
  imported := by
    rw [hsame.imports]
    exact hs.imported

/-- Nothing is lost, and the session stays equipped. -/
structure Equips (n : Nat) (s t : Session) : Prop where
  grows : s.Grows t
  retains : s.Retains t
  equipped : s.Equipped n → t.Equipped n

/-- One more declaration. -/
theorem Equipped.declared (hs : s.Equipped n) (hplain : t.Plain) (hapart : t.names.Apart) (hkept : s.Keeps t)
    (hopen : t.isOpen = s.isOpen) (hi : t.imports = s.imports) {tag : Value} {code : String} {overwrite : Bool}
    (hd : t.declarations = (s.declarations.add tag code overwrite).2)
    (hfiled : ∀ tag', (tag' == tag) = true → t.names.Filed n (tag', code)) : t.Equipped n where
  isOpen := hopen.trans hs.isOpen
  plain := hplain
  apart := hapart
  keys := by
    rw [hd]
    exact Fragments.keysApart_add hs.keys
  filed e he := by
    rw [hd] at he
    obtain he | ⟨htag, hcode⟩ := Fragments.mem_entries_add he
    · cases hs.filed e he with
      | constant h => exact .constant h
      | object h hx => exact .object h (hkept.names _ _ hx)
    · obtain ⟨tag', code'⟩ := e
      obtain rfl : code' = code := hcode
      exact hfiled tag' htag
  imported := by
    rw [hi]
    exact hs.imported

end Session

namespace Names

variable {names : Names} {r : Resource} {x : String} {e : Value × String}

end Names

namespace Run

variable {s t : Session}

end Run

namespace Session

variable {s t : Session} {r : Resource} {x : String}

/-- The object of a resource has its identifier, its declaration and what that needs. -/
structure Serves (s : Session) (r : Resource) (x : String) : Prop where
  named : s.names.find? r.label = some x
  declared : s.declarations.contains r.key = true
  imported : ∀ name ∈ r.drive.needed, s.imports.contains (.text ("machine." ++ name)) = true

theorem Serves.later (h : s.Serves r x) (hst : s.Equips n t) : t.Serves r x where
  named := hst.grows.1.names _ _ h.named
  declared := hst.retains.declarations _ h.declared
  imported name hname := hst.retains.imports _ (h.imported name hname)

end Session

namespace Scene

variable {s : Scene n} {t u : Session} {o : Output} {r : Resource}

end Scene

namespace Session

variable {τ : Session} {r : Resource} {x : String}

end Session

namespace Generator

variable {g : Generator} {w : Workspace n} {σ τ : Session}

end Generator

end BlockScript
