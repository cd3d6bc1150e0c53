import BootMemory.E820.Cursor

/-!
# The hand-off slot

The boot protocol runs after the memory manager and holds no reference to it.
The finished map is parked in a slot that outlives its maker, and is read from
there with a cursor.  Publishing copies, so later changes to the manager's map
do not show.

Main results:

- Theorem {lit}`Handoff.map_publish`: the slot holds what was published last.
- Theorem {lit}`Handoff.publishedCount_clear`: a cleared slot holds no entry.
-/

namespace BootMemory

/-- The slot through which a map reaches the next boot stage. -/
structure Handoff where
  map : E820.LegacyMap := {}
deriving DecidableEq, Repr, Inhabited

namespace Handoff

/-- Replace what the slot holds. -/
def publish (_slot : Handoff) (map : E820.LegacyMap) : Handoff := { map }

/-- Forget what the slot holds. -/
def clear (_slot : Handoff) : Handoff := {}

/-- The number of published entries. -/
def publishedCount (slot : Handoff) : Nat := slot.map.size

/-- The published record at a cursor, and the cursor for the next call. -/
def next (slot : Handoff) (cursor : Int32) : E820.Record × Int32 := slot.map.next cursor

/-- What a reader gets that starts at cursor 0. -/
def readOut (slot : Handoff) : List E820.Record := slot.map.readOut

/-- The slot holds what was published last. -/
@[simp] theorem map_publish (slot : Handoff) (map : E820.LegacyMap) :
    (slot.publish map).map = map := rfl

/-- A cleared slot holds the empty map. -/
@[simp] theorem map_clear (slot : Handoff) : slot.clear.map = E820.LegacyMap.empty := rfl

/-- A cleared slot holds no entry. -/
@[simp] theorem publishedCount_clear (slot : Handoff) : slot.clear.publishedCount = 0 := rfl

end Handoff

end BootMemory
