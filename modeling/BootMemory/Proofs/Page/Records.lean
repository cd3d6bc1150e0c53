import BootMemory.Page.Registry
import BootMemory.Proofs.Firmware.Custody

/-!
# The records of a registry

The slots of a registry stand for a list of ranges.  Storing adds a range to the list
and forgetting takes one out; where in the list this happens depends on the slots and
does not matter.

Main results:

- Theorem {lit}`Registry.recorded_store?`: storing adds a range.
- Theorem {lit}`Registry.recorded_forget_eq_eraseP`: forgetting drops the first range with a base.
- Theorem {lit}`Registry.forget_cases`: in terms of the bag of records, it drops one with that
  base, if there is one.
- Theorem {lit}`Registry.forget_store?`: forgetting a range that was just stored restores
  the registry.
-/

open scoped List

namespace BootMemory

namespace Slot

theorem range?_of_isEmpty {slot : Slot} (h : slot.isEmpty = true) : slot.range? = none :=
  Option.isNone_iff_eq_none.1 h

theorem holds_iff (base : UInt64) (slot : Slot) :
    slot.holds base = true ↔ ∃ range, slot.range? = some range ∧ range.base = base := by
  simp [holds, base?]

/-- Filling the first empty slot adds its range. -/
theorem filterMap_set_occupied {slots : List Slot} {index : Nat} (range : PageRange)
    (h : slots.findIdx? Slot.isEmpty = some index) :
    (slots.set index (.occupied range)).filterMap Slot.range? ~
      range :: slots.filterMap Slot.range? := by
  induction slots generalizing index with
  | nil => cases h
  | cons slot rest ih =>
      rw [List.findIdx?_cons] at h
      by_cases hempty : slot.isEmpty = true
      · rw [if_pos hempty] at h
        obtain rfl := Option.some.inj h
        rw [List.set_cons_zero, List.filterMap_cons_none (range?_of_isEmpty hempty)]
        rfl
      · rw [if_neg hempty] at h
        obtain ⟨position, hposition, rfl⟩ := Option.map_eq_some_iff.1 h
        rw [List.set_cons_succ]
        cases slot with
        | empty => exact (hempty rfl).elim
        | occupied held => exact ((ih hposition).cons held).trans (List.Perm.swap range held _)

/-- Clearing the first slot with a base drops the first range with that base. -/
theorem filterMap_set_empty {slots : List Slot} {base : UInt64} {index : Nat}
    (h : slots.findIdx? (Slot.holds base) = some index) :
    (slots.set index .empty).filterMap Slot.range? =
      (slots.filterMap Slot.range?).eraseP (PageRange.startsAt base) := by
  induction slots generalizing index with
  | nil => cases h
  | cons slot rest ih =>
      rw [List.findIdx?_cons] at h
      by_cases hholds : slot.holds base = true
      · rw [if_pos hholds] at h
        obtain rfl := Option.some.inj h
        obtain ⟨range, hrange, hbase⟩ := (holds_iff base slot).1 hholds
        rw [List.set_cons_zero, List.filterMap_cons_some hrange,
          List.eraseP_cons_of_pos (PageRange.startsAt_iff.2 hbase)]
        rfl
      · rw [if_neg hholds] at h
        obtain ⟨position, hposition, rfl⟩ := Option.map_eq_some_iff.1 h
        rw [List.set_cons_succ]
        cases slot with
        | empty => exact ih hposition
        | occupied held =>
            have hother : ¬ held.startsAt base = true := fun heq =>
              hholds ((holds_iff base (.occupied held)).2
                ⟨held, rfl, PageRange.startsAt_iff.1 heq⟩)
            exact (congrArg (held :: ·) (ih hposition)).trans
              (List.eraseP_cons_of_neg hother).symm

/-- A range that fills the first empty slot is the first one with its base, if none of the
others has it; clearing its slot restores the slots. -/
theorem findIdx?_holds_set_occupied {slots : List Slot} {range : PageRange} {index : Nat}
    (hother : range.base ∉ (slots.filterMap Slot.range?).map PageRange.base)
    (h : slots.findIdx? Slot.isEmpty = some index) :
    (slots.set index (.occupied range)).findIdx? (Slot.holds range.base) = some index ∧
      slots.set index .empty = slots := by
  induction slots generalizing index with
  | nil => cases h
  | cons slot rest ih =>
      rw [List.findIdx?_cons] at h
      cases slot with
      | empty =>
          obtain rfl := Option.some.inj h
          have hholds : (Slot.occupied range).holds range.base = true :=
            (holds_iff range.base (.occupied range)).2 ⟨range, rfl, rfl⟩
          rw [List.set_cons_zero, List.set_cons_zero, List.findIdx?_cons, if_pos hholds]
          exact ⟨rfl, rfl⟩
      | occupied held =>
          obtain ⟨position, hposition, rfl⟩ := Option.map_eq_some_iff.1 h
          obtain ⟨hne, hrest⟩ := not_or.1 (mt List.mem_cons.2 hother)
          have hholds : ¬ (Slot.occupied held).holds range.base = true := by
            rw [holds_iff]
            rintro ⟨_, hheld, hbase⟩
            obtain rfl := Option.some.inj hheld
            exact hne hbase.symm
          obtain ⟨hfound, hrestored⟩ := ih hrest hposition
          rw [List.set_cons_succ, List.set_cons_succ, List.findIdx?_cons, if_neg hholds, hfound,
            hrestored]
          exact ⟨rfl, rfl⟩

/-- Some slot holds a range with a base exactly when one of the ranges has it. -/
theorem findIdx?_holds_eq_none_iff {slots : List Slot} {base : UInt64} :
    slots.findIdx? (Slot.holds base) = none ↔
      base ∉ (slots.filterMap Slot.range?).map PageRange.base := by
  rw [List.findIdx?_eq_none_iff]
  constructor
  · intro hnone hmem
    obtain ⟨range, hrange, hbase⟩ := List.mem_map.1 hmem
    obtain ⟨slot, hslot, hheld⟩ := List.mem_filterMap.1 hrange
    have hholds := (holds_iff base slot).2 ⟨range, hheld, hbase⟩
    rw [hnone slot hslot] at hholds
    cases hholds
  · intro hother slot hslot
    apply Bool.eq_false_iff.2
    intro hholds
    obtain ⟨range, hheld, hbase⟩ := (holds_iff base slot).1 hholds
    exact hother (List.mem_map.2 ⟨range, List.mem_filterMap.2 ⟨slot, hslot, hheld⟩, hbase⟩)

end Slot

namespace Registry

theorem range_store? {registry stored : Registry} {range : PageRange}
    (h : registry.store? range = some stored) : stored.range = registry.range := by
  unfold store? at h
  split at h
  next => cases h
  next =>
    obtain rfl := Option.some.inj h
    rfl

/-- Storing adds a range to the records. -/
theorem recorded_store? {registry stored : Registry} {range : PageRange}
    (h : registry.store? range = some stored) :
    stored.recorded ~ range :: registry.recorded := by
  unfold store? at h
  split at h
  next => cases h
  next index hindex =>
    obtain rfl := Option.some.inj h
    exact Slot.filterMap_set_occupied range hindex

theorem range_forget (registry : Registry) (base : UInt64) :
    (registry.forget base).range = registry.range := by
  unfold forget
  split
  next => rfl
  next =>
    split
    next => rfl
    next => rfl

/-- Forgetting a base that the registry itself does not have drops the first record with it. -/
theorem recorded_forget_eq_eraseP {registry : Registry} {base : UInt64}
    (hother : registry.range.base ≠ base) :
    (registry.forget base).recorded =
      registry.recorded.eraseP (PageRange.startsAt base) := by
  rw [forget, if_neg hother]
  cases hindex : registry.slots.findIdx? (Slot.holds base) with
  | none =>
      refine (List.eraseP_of_forall_not ?_).symm
      intro range hmem hbase
      exact Slot.findIdx?_holds_eq_none_iff.1 hindex
        (List.mem_map.2 ⟨range, hmem, PageRange.startsAt_iff.1 hbase⟩)
  | some index => exact Slot.filterMap_set_empty hindex

/-- Forgetting drops the range with a base, if no two records have one base and the
registry itself has another. -/
theorem recorded_forget {registry : Registry} {base : UInt64}
    (hnodup : (registry.recorded.map PageRange.base).Nodup) (hother : registry.range.base ≠ base) :
    (registry.forget base).recorded = withoutBase base registry.recorded := by
  rw [recorded_forget_eq_eraseP hother, eraseP_startsAt_eq_withoutBase hnodup]

/-- Forgetting a record leaves the others, if they have other bases. -/
theorem recorded_forget_of_perm {registry : Registry} {range : PageRange}
    {others : List PageRange} (hrecorded : registry.recorded ~ range :: others)
    (hnodup : ((range :: others).map PageRange.base).Nodup)
    (hother : registry.range.base ≠ range.base) :
    (registry.forget range.base).recorded ~ others := by
  have hbases := (hrecorded.map PageRange.base).nodup_iff.2 hnodup
  calc
    (registry.forget range.base).recorded
      = withoutBase range.base registry.recorded := recorded_forget hbases hother
    _ ~ withoutBase range.base (range :: others) := hrecorded.filter _
    _ = others := by
        rw [withoutBase_cons_of_eq rfl, withoutBase_of_not_mem (List.nodup_cons.1 hnodup).1]

/-- Forgetting a base drops one record that has it, if there is one and the base is not the
registry's own; it does nothing otherwise. -/
theorem forget_cases (registry : Registry) (base : UInt64) :
    ((registry.range.base = base ∨ base ∉ registry.recorded.map PageRange.base) ∧
        registry.forget base = registry) ∨
      registry.range.base ≠ base ∧ ∃ removed, removed.base = base ∧
        registry.recorded ~ removed :: (registry.forget base).recorded := by
  by_cases hhome : registry.range.base = base
  · exact .inl ⟨.inl hhome, if_pos hhome⟩
  · by_cases hmem : base ∈ registry.recorded.map PageRange.base
    · rw [recorded_forget_eq_eraseP hhome]
      exact .inr ⟨hhome, exists_perm_eraseP_startsAt hmem⟩
    · refine .inl ⟨.inr hmem, ?_⟩
      rw [forget, if_neg hhome, Slot.findIdx?_holds_eq_none_iff.2 hmem]

/-- Forgetting undoes storing, if no other record has the base and the registry itself has
another one. -/
theorem forget_store? {registry stored : Registry} {range : PageRange}
    (h : registry.store? range = some stored) (hhome : registry.range.base ≠ range.base)
    (hother : range.base ∉ registry.recorded.map PageRange.base) :
    stored.forget range.base = registry := by
  unfold store? at h
  split at h
  next => cases h
  next index hindex =>
    obtain rfl := Option.some.inj h
    obtain ⟨hfound, hrestored⟩ := Slot.findIdx?_holds_set_occupied hother hindex
    simp only [forget, if_neg hhome, hfound, List.set_set, hrestored]

/-- Also when other records have the base, forgetting it after storing leaves as many records
of each base as there were. -/
theorem map_base_recorded_forget_store? {registry stored : Registry} {range : PageRange}
    (h : registry.store? range = some stored) (hhome : registry.range.base ≠ range.base) :
    (stored.forget range.base).recorded.map PageRange.base ~
      registry.recorded.map PageRange.base := by
  have hstored := recorded_store? h
  have hmem : range.base ∈ stored.recorded.map PageRange.base :=
    List.mem_map_of_mem (hstored.mem_iff.2 List.mem_cons_self)
  rcases stored.forget_cases range.base with ⟨hkept, _⟩ | ⟨_, removed, hbase, hperm⟩
  · rcases hkept with heq | hnone
    · exact (hhome (range_store? h ▸ heq)).elim
    · exact (hnone hmem).elim
  · have hbases := (hperm.symm.trans hstored).map PageRange.base
    rw [List.map_cons, List.map_cons, hbase] at hbases
    exact hbases.cons_inv

/-! ## How many records there are -/

theorem length_recorded_le (registry : Registry) :
    registry.recorded.length ≤ registry.capacity :=
  List.length_filterMap_le _ _

/-- Storing fails only when there are as many records as slots. -/
theorem length_recorded_of_store?_eq_none {registry : Registry} {range : PageRange}
    (h : registry.store? range = none) : registry.recorded.length = registry.capacity := by
  apply List.filterMap_length_eq_length.2
  intro slot hmem
  have hslot := (store?_eq_none_iff registry range).1 h slot hmem
  rw [Slot.isEmpty, Option.isNone_eq_false_iff] at hslot
  exact hslot

/-- Storing succeeds only when there are fewer records than slots. -/
theorem length_recorded_lt_of_store? {registry stored : Registry} {range : PageRange}
    (h : registry.store? range = some stored) :
    registry.recorded.length < registry.capacity := by
  have hlength := (recorded_store? h).length_eq
  have hle := length_recorded_le stored
  rw [List.length_cons] at hlength
  rw [capacity_store? h] at hle
  omega

theorem recorded_ofStorage (range : PageRange) (bytes : UInt64) :
    (ofStorage range bytes).recorded = [] := by
  apply List.filterMap_eq_nil_iff.2
  intro slot hmem
  rw [(List.mem_replicate.1 hmem).2]
  rfl

end Registry

end BootMemory
