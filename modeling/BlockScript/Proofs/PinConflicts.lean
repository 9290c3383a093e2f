import BlockScript.Proofs.Forests
import BlockScript.Proofs.Naming

namespace BlockScript

variable {n : Nat}

namespace Pins

/-- What is shown where a pin is claimed that has another task. -/
def warning? (pins : Pins) (pin : Value) (task : PinTask) (tag : String) : Option String :=
  ((pins.task? pin).filter (· ≠ task)).map (conflictText pin tag task)

/-- No pin loses its task. -/
def Grows (pins pins' : Pins) : Prop :=
  ∀ pin task, pins.task? pin = some task → pins'.task? pin = some task

variable {pins pins' : Pins}

theorem Grows.refl (pins : Pins) : pins.Grows pins :=
  fun _ _ h => h

theorem Grows.trans {pins'' : Pins} (h : pins.Grows pins') (h' : pins'.Grows pins'') : pins.Grows pins'' :=
  fun pin task hpin => h' pin task (h pin task hpin)

theorem Grows.isSome (h : pins.Grows pins') {pin : Value} (hpin : (pins.task? pin).isSome) : (pins'.task? pin).isSome := by
  obtain ⟨task, htask⟩ := Option.isSome_iff_exists.mp hpin
  rw [h pin task htask]
  rfl

theorem Grows.warning? (h : pins.Grows pins') {pin : Value} (hpin : (pins.task? pin).isSome) (task : PinTask)
    (tag : String) : pins'.warning? pin task tag = pins.warning? pin task tag := by
  obtain ⟨earlier, hearlier⟩ := Option.isSome_iff_exists.mp hpin
  rw [Pins.warning?, Pins.warning?, hearlier, h pin earlier hearlier]

end Pins

namespace WarningEvent

theorem get?_active_concat (events : List WarningEvent) (e : WarningEvent) (key : String × String) :
    (active (events ++ [e])).get? key = if (e.blockId, e.tag) = key then e.text else (active events).get? key := by
  unfold active
  rw [List.foldl_append, List.foldl_cons, List.foldl_nil, apply]
  cases htext : e.text with
  | some text => simp [Ledger.get?_put]
  | none => simp [Ledger.get?_erase]

theorem get?_active_append {events new : List WarningEvent} {key : String × String}
    (h : ∀ e ∈ new, (e.blockId, e.tag) ≠ key) : (active (events ++ new)).get? key = (active events).get? key := by
  induction new using List.reverseRecOn with
  | nil => rw [List.append_nil]
  | append_singleton new e ih =>
    rw [← List.append_assoc, get?_active_concat, if_neg (h e (by simp))]
    exact ih fun e he => h e (by simp [he])

end WarningEvent

/-- A session after a block has claimed its pins: the last thing said about each is what its task makes of it. -/
structure Session.Claims (s t : Session) (id : String) (use : PinUse) : Prop where
  grows : s.pins.Grows t.pins
  claimed : ∀ pin ∈ use.pins, (t.pins.task? pin).isSome
  events : t.events = s.events ++ use.pins.map fun pin => ⟨id, use.tag, t.pins.warning? pin use.task use.tag⟩

theorem Session.Claims.cons {s t u : Session} {id : String} {pin : Value} {pins : List Value} {task : PinTask}
    {tag : String} (hst : s.Claims t id ⟨[pin], task, tag⟩) (htu : t.Claims u id ⟨pins, task, tag⟩) :
    s.Claims u id ⟨pin :: pins, task, tag⟩ := by
  have hpin : (t.pins.task? pin).isSome := hst.claimed pin (by simp)
  constructor
  · exact hst.grows.trans htu.grows
  · intro other hother
    obtain rfl | hother := List.mem_cons.mp hother
    · exact htu.grows.isSome hpin
    · exact htu.claimed other hother
  · rw [htu.events, hst.events, List.append_assoc]
    simp only [List.map_cons, List.map_nil, List.cons_append, List.nil_append, htu.grows.warning? hpin]

namespace Run

end Run

namespace Block

variable {b : Block n} {use : PinUse}

theorem wires?_pos {count : Nat} (h : b.wires? = some count) : 0 < count := by
  unfold wires? Value.lookup at h
  split at h
  · rename_i found hfound
    cases hv : b.fieldD "STEPPER_NUMBER_OF_PINS" (.text "TWO") with
    | text name =>
      simp only [hv, Except.ok.injEq] at hfound
      subst hfound
      obtain ⟨before, after, htable, -⟩ := List.lookup_eq_some_iff.mp h
      have hmem : (name, count) ∈ [("TWO", 2), ("FOUR", 4)] := by
        rw [htable]
        simp
      simp only [List.mem_cons, Prod.mk.injEq, List.not_mem_nil, or_false] at hmem
      omega
    | list items => simp [hv] at hfound
    | null | bool | int | real | nan =>
      simp only [hv, Except.ok.injEq] at hfound
      subst hfound
      cases h
  · cases h

/-- Only a motor has several pins. -/
theorem pinUse?_cases (h : b.pinUse? = some use) :
    use.tag ∉ [typeTag, "pwm_value"] ∧ use.pins ≠ [] ∧ (b.kind? ≠ some .stepperSetup → ∃ pin, use.pins = [pin]) := by
  obtain ⟨kind, hkind, huse⟩ := Option.bind_eq_some_iff.mp h
  cases kind <;> simp only [pinUseAs?, Option.some.injEq, reduceCtorEq] at huse
  case stepperSetup =>
    obtain ⟨count, hcount, rfl⟩ := Option.map_eq_some_iff.mp huse
    have hpos := wires?_pos hcount
    refine ⟨by simp [typeTag], ?_, fun hne => absurd hkind hne⟩
    simp only [ne_eq, List.map_eq_nil_iff, List.range_eq_nil]
    omega
  all_goals
    subst huse
    exact ⟨by simp [typeTag], by simp, fun _ => ⟨_, rfl⟩⟩

end Block

namespace Workspace

variable {w : Workspace n} {s t : Session} {i : Fin n} {use : PinUse}

/-- What has been said about pins, and what is shown of it: at each block the word on the last pin. -/
structure Tallies (w : Workspace n) (s : Session) : Prop where
  said : ∀ e ∈ s.events, e.tag ∉ [typeTag, "pwm_value"] → ∃ i use pin, w.Reachable i ∧ (w.block i).pinUse? = some use ∧
    e.blockId = (w.block i).id ∧ e.tag = use.tag ∧ pin ∈ use.pins ∧ (s.pins.task? pin).isSome ∧
    e.text = s.pins.warning? pin use.task use.tag
  shown : ∀ i use last, w.Reachable i → (w.block i).pinUse? = some use → use.pins.getLast? = some last →
    (∃ e ∈ s.events, e.blockId = (w.block i).id ∧ e.tag = use.tag) →
      (s.pins.task? last).isSome ∧
      (WarningEvent.active s.events).get? ((w.block i).id, use.tag) = s.pins.warning? last use.task use.tag

theorem Tallies.of_same (h : w.Tallies s) (hevents : t.events = s.events) (hpins : t.pins = s.pins) : w.Tallies t := by
  constructor
  · rw [hevents, hpins]
    exact h.said
  · rw [hevents, hpins]
    exact h.shown

/-- A word on other matters changes nothing for the pins. -/
theorem Tallies.warn (h : w.Tallies s) (id : String) (text : Option String) :
    w.Tallies { s with events := s.events ++ [⟨id, "pwm_value", text⟩] } := by
  constructor
  · intro e he htag
    obtain he | he := List.mem_append.mp he
    · exact h.said e he htag
    · rw [List.mem_singleton.mp he] at htag
      simp at htag
  · intro i use last hi huse hlast hsome
    have htag := (Block.pinUse?_cases huse).1
    have hother : ∀ e ∈ [WarningEvent.mk id "pwm_value" text], (e.blockId, e.tag) ≠ ((w.block i).id, use.tag) := by
      intro e he heq
      rw [List.mem_singleton.mp he] at heq
      simp [← (Prod.mk.inj heq).2] at htag
    obtain ⟨e, he, hkey⟩ := hsome
    have hold : e ∈ s.events := by
      obtain he | he := List.mem_append.mp he
      · exact he
      · exact absurd (Prod.ext hkey.1 hkey.2) (hother e he)
    rw [WarningEvent.get?_active_append hother]
    exact h.shown i use last hi huse hlast ⟨e, hold, hkey⟩

theorem Tallies.claims (h : w.Tallies s) (hids : w.DistinctIds) (hi : w.Reachable i) (huse : (w.block i).pinUse? = some use)
    (hst : s.Claims t (w.block i).id use) : w.Tallies t := by
  constructor
  · intro e he htag
    rw [hst.events] at he
    obtain he | he := List.mem_append.mp he
    · obtain ⟨j, use', pin, hj, huse', hid, htag', hpin, hclaimed, htext⟩ := h.said e he htag
      refine ⟨j, use', pin, hj, huse', hid, htag', hpin, hst.grows.isSome hclaimed, ?_⟩
      rw [htext, hst.grows.warning? hclaimed]
    · obtain ⟨pin, hpin, rfl⟩ := List.mem_map.mp he
      exact ⟨i, use, pin, hi, huse, rfl, rfl, hpin, hst.claimed pin hpin, rfl⟩
  · intro j use' last hj huse' hlast hsome
    by_cases hkey : ((w.block i).id, use.tag) = ((w.block j).id, use'.tag)
    · obtain rfl := hids i j hi hj (Prod.mk.inj hkey).1
      rw [huse] at huse'
      cases huse'
      obtain ⟨earlier, hpins⟩ := List.getLast?_eq_some_iff.mp hlast
      refine ⟨hst.claimed last (by simp [hpins]), ?_⟩
      rw [hst.events, hpins, List.map_append, List.map_singleton, ← List.append_assoc,
        WarningEvent.get?_active_concat, if_pos rfl]
    · have hother : ∀ e ∈ use.pins.map fun pin =>
          WarningEvent.mk (w.block i).id use.tag (t.pins.warning? pin use.task use.tag),
          (e.blockId, e.tag) ≠ ((w.block j).id, use'.tag) := by
        intro e he heq
        obtain ⟨pin, -, rfl⟩ := List.mem_map.mp he
        exact hkey heq
      have hold : ∃ e ∈ s.events, e.blockId = (w.block j).id ∧ e.tag = use'.tag := by
        obtain ⟨e, he, hkey'⟩ := hsome
        rw [hst.events] at he
        obtain he | he := List.mem_append.mp he
        · exact ⟨e, he, hkey'⟩
        · exact absurd (Prod.ext hkey'.1 hkey'.2) (hother e he)
      obtain ⟨hclaimed, hshown⟩ := h.shown j use' last hj huse' hlast hold
      refine ⟨hst.grows.isSome hclaimed, ?_⟩
      rw [hst.events, WarningEvent.get?_active_append hother, hshown, hst.grows.warning? hclaimed]

end Workspace

namespace Session

/-- A step that says nothing about pins and claims none. -/
def SamePins (s t : Session) : Prop :=
  t.events = s.events ∧ t.pins = s.pins

theorem SamePins.refl (s : Session) : s.SamePins s :=
  ⟨rfl, rfl⟩

theorem SamePins.recordIf {s t : Session} (h : s.SamePins t) (p : Bool) (r : LogRecord) :
    s.SamePins (Run.recordIf p r t) := by
  cases p <;> exact h

end Session

namespace Generator

variable {w : Workspace n}

end Generator

end BlockScript
