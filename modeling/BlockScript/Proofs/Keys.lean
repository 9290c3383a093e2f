import Mathlib.Data.List.Induction
import Mathlib.Data.List.Nodup
import BlockScript.Names

namespace BlockScript

/-- What a value is as a key of a table. -/
inductive Key where
  | null
  | number (place : Option Number.Place)
  | mark (n : Nat)
  | text (s : String)
  | list (items : List Key)

namespace Value

mutual

def key : Value → Key
  | null => .null
  | bool b => .number (Number.whole (if b then 1 else 0)).place?
  | int n => .number (Number.whole n).place?
  | real d => .number (Number.real d).place?
  | nan mark => .mark mark
  | text s => .text s
  | list items => .list (keys items)

def keys : List Value → List Key
  | [] => []
  | v :: vs => key v :: keys vs

end

end Value

theorem Number.same_iff (a b : Number) : a.same b = true ↔ a.place? = b.place? := by
  unfold Number.same
  cases a.place? <;> cases b.place? <;> simp

namespace Value

mutual

theorem same_iff (v w : Value) : v.same w = true ↔ v.key = w.key := by
  cases v with
  | list items =>
    cases w with
    | list others => simpa [same, key] using sameItems_iff items others
    | _ => simp [same, key, number?]
  | _ => cases w <;> simp [same, key, number?, Number.same_iff]

theorem sameItems_iff (vs ws : List Value) : sameItems vs ws = true ↔ keys vs = keys ws := by
  cases vs with
  | nil => cases ws <;> simp [sameItems, keys]
  | cons v vs =>
    cases ws with
    | nil => simp [sameItems, keys]
    | cons w ws => simp [sameItems, keys, same_iff v w, sameItems_iff vs ws]

end

theorem beq_iff (v w : Value) : (v == w) = true ↔ v.key = w.key := same_iff v w

instance : EquivBEq Value where
  rfl := (beq_iff _ _).mpr rfl
  symm h := (beq_iff _ _).mpr ((beq_iff _ _).mp h).symm
  trans h h' := (beq_iff _ _).mpr (((beq_iff _ _).mp h).trans ((beq_iff _ _).mp h'))

theorem isKey_congr {v w : Value} (h : (v == w) = true) : v.isKey = w.isKey := by
  have hk := (beq_iff v w).mp h
  cases v <;> cases w <;> simp_all [key, isKey]

end Value

theorem Ledger.get?_congr {κ α : Type} [BEq κ] [EquivBEq κ] (l : Ledger κ α) {k k' : κ}
    (h : (k == k') = true) : l.get? k = l.get? k' := by
  have hp : (fun e : κ × α => e.1 == k) = fun e => e.1 == k' := by
    funext e
    rw [BEq.congr_right h]
  rw [get?, get?, hp]

namespace Label

theorem beq_iff (a b : Label) : (a == b) = true ↔ a.realm = b.realm ∧ (a.name == b.name) = true := by
  change (a.realm == b.realm && a.name == b.name) = true ↔ _
  simp

instance : EquivBEq Label where
  rfl := (beq_iff _ _).mpr ⟨rfl, BEq.rfl⟩
  symm h :=
    have ⟨hr, hn⟩ := (beq_iff _ _).mp h
    (beq_iff _ _).mpr ⟨hr.symm, BEq.symm hn⟩
  trans h h' :=
    have ⟨hr, hn⟩ := (beq_iff _ _).mp h
    have ⟨hr', hn'⟩ := (beq_iff _ _).mp h'
    (beq_iff _ _).mpr ⟨hr.trans hr', BEq.trans hn hn'⟩

end Label

/-! ### Keys in the order in which they come first -/

section

variable {α : Type} [BEq α] [LawfulBEq α]

theorem eraseDups_concat (as : List α) (a : α) :
    (as ++ [a]).eraseDups = if as.contains a then as.eraseDups else as.eraseDups ++ [a] := by
  rw [List.eraseDups_append, List.removeAll]
  by_cases h : a ∈ as
  · simp [h]
  · simp [h, List.eraseDups_cons]

theorem nodup_eraseDups (as : List α) : as.eraseDups.Nodup := by
  induction as using List.reverseRecOn with
  | nil => exact .nil
  | append_singleton as a ih =>
    rw [eraseDups_concat]
    split
    · exact ih
    · rename_i hmem
      have hdisjoint : ∀ x ∈ as, x ≠ a := fun x hx hxa => hmem (by simpa [← hxa] using hx)
      simpa [List.nodup_append, ih] using hdisjoint

end

end BlockScript
