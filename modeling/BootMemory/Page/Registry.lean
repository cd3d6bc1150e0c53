import BootMemory.Page.Range

/-!
# The page registry

The registry is a fixed number of slots in pages that the firmware granted.  Each
slot is empty or holds one range.  A range goes into the first empty slot, and is
forgotten from the first slot that holds its base.

The slots are values of their own and no part of the firmware's memory: nothing but
the registry changes them.  What becomes of the records when the firmware grants the
pages of the registry once more, or takes them back, and others write to these pages,
is outside of the model.

Main results:

- Theorem {lit}`Registry.capacity_store?`: storing keeps the number of slots.
- Theorem {lit}`Registry.capacity_forget`: so does forgetting.
- Theorem {lit}`Registry.store?_eq_none_iff`: storing fails exactly when no slot
  is empty.
-/

namespace BootMemory

/-- One record of the registry. -/
inductive Slot
  | empty
  | occupied (range : PageRange)
deriving DecidableEq, Repr, Inhabited

namespace Slot

/-- Bytes of a slot in the registry's storage. -/
def width : UInt64 := 24

/-- The range in a slot. -/
def range? : Slot → Option PageRange
  | empty => none
  | occupied range => some range

/-- The base of the range in a slot. -/
def base? (slot : Slot) : Option UInt64 := slot.range?.map PageRange.base

/-- Whether a slot holds no range. -/
def isEmpty (slot : Slot) : Bool := slot.range?.isNone

/-- Whether a slot holds a range with a given base. -/
def holds (base : UInt64) (slot : Slot) : Bool := slot.base? == some base

/-- The text of a slot, with decimal numbers. -/
def text : Slot → String
  | empty => "Empty"
  | occupied range =>
      "Occupied \x7b base: " ++ toString range.base ++ ", pages: " ++ toString range.pages ++
        " \x7d"

end Slot

/-- The storage of recorded ranges.  The pages are only named; the slots are kept
beside the firmware's memory and not in it. -/
structure Registry where
  /-- The pages that hold the slots. -/
  range : PageRange
  slots : List Slot
deriving DecidableEq, Repr

namespace Registry

/-- A registry without records, in some bytes of storage. -/
def ofStorage (range : PageRange) (bytes : UInt64) : Registry :=
  { range, slots := List.replicate (bytes / Slot.width).toNat .empty }

/-- The number of slots. -/
def capacity (registry : Registry) : Nat := registry.slots.length

/-- The recorded ranges, in the order of their slots. -/
def recorded (registry : Registry) : List PageRange := registry.slots.filterMap Slot.range?

/-- Whether some slot holds a range with a given base. -/
def isRecorded (registry : Registry) (base : UInt64) : Bool :=
  registry.slots.any (Slot.holds base)

/-- Record a range in the first empty slot. -/
def store? (registry : Registry) (range : PageRange) : Option Registry :=
  match registry.slots.findIdx? Slot.isEmpty with
  | none => none
  | some index => some { registry with slots := registry.slots.set index (.occupied range) }

/-- Empty the first slot that holds a range with a given base.  The registry's own
base is left alone. -/
def forget (registry : Registry) (base : UInt64) : Registry :=
  if registry.range.base = base then registry
  else
    match registry.slots.findIdx? (Slot.holds base) with
    | none => registry
    | some index => { registry with slots := registry.slots.set index .empty }

/-! ## Small laws of the slots -/

/-- A new registry has as many slots as fit into its storage. -/
@[simp] theorem capacity_ofStorage (range : PageRange) (bytes : UInt64) :
    (ofStorage range bytes).capacity = (bytes / Slot.width).toNat := by
  simp [ofStorage, capacity]

/-- Storing keeps the number of slots. -/
theorem capacity_store? {registry stored : Registry} {range : PageRange}
    (h : registry.store? range = some stored) : stored.capacity = registry.capacity := by
  unfold store? at h
  split at h
  next => cases h
  next index _ =>
    cases h
    simp [capacity]

/-- Storing fails exactly when no slot is empty. -/
theorem store?_eq_none_iff (registry : Registry) (range : PageRange) :
    registry.store? range = none ↔ ∀ slot ∈ registry.slots, slot.isEmpty = false := by
  unfold store?
  split
  next h =>
    simp only [true_iff]
    simpa using List.findIdx?_eq_none_iff.1 h
  next index h =>
    simp only [reduceCtorEq, false_iff]
    intro hall
    have hnone : registry.slots.findIdx? Slot.isEmpty = none := by
      rw [List.findIdx?_eq_none_iff]
      exact hall
    rw [hnone] at h
    cases h

/-- Forgetting keeps the number of slots. -/
@[simp] theorem capacity_forget (registry : Registry) (base : UInt64) :
    (registry.forget base).capacity = registry.capacity := by
  unfold forget
  split
  next => rfl
  next =>
    split
    next => rfl
    next => simp [capacity]

end Registry

end BootMemory
