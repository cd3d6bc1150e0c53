import BootMemory.E820.Entry

/-!
# The legacy map

The map is a table of at most 128 entries, filled from the front.  A region that
continues the last entry makes it longer; any other region becomes a new entry.
A full table takes nothing more, not even a region that would continue the last
entry, and a region of no size is never entered.

Main results:

- Theorem {lit}`LegacyMap.addRegion_of_size_eq_zero`: a region of no size changes
  nothing, also when the map is full.
- Theorem {lit}`LegacyMap.addRegion_of_full`: a full map refuses every other
  region.
- Theorem {lit}`LegacyMap.addRegion_of_room`: a map with room takes it.
- Theorem {lit}`LegacyMap.addRegion_eq_ok`: nothing else is taken.
-/

namespace BootMemory.E820

namespace Entry

/-- Whether a region continues an entry: the kinds agree and no gap is between. -/
def continuedBy (entry : Entry) (region : Region) : Bool :=
  entry.code == region.kind.code && entry.limit == region.start

/-- The entry with more bytes at its end. -/
def grow (entry : Entry) (size : UInt64) : Entry :=
  { entry with size := saturatingAdd entry.size size }

/-- Growing moves the limit of an entry by as many bytes, up to the largest word. -/
theorem limit_grow (entry : Entry) (size : UInt64) :
    (entry.grow size).limit = saturatingAdd entry.limit size := by
  rw [limit, limit, grow, saturatingAdd_assoc]

/-- Put a region behind some entries, into the last one where it continues that. -/
def place (entries : List Entry) (region : Region) : List Entry :=
  match entries.getLast? with
  | none => [ofRegion region]
  | some last =>
      if last.continuedBy region then entries.dropLast ++ [last.grow region.size]
      else entries ++ [ofRegion region]

end Entry

/-- The memory map that is handed to a legacy kernel. -/
structure LegacyMap where
  entries : List Entry := []
  /-- Whether the firmware's map had more than the table could take. -/
  truncated : Bool := false
deriving DecidableEq, Repr

namespace LegacyMap

instance : Inhabited LegacyMap := ⟨{}⟩

/-- The map without entries. -/
def empty : LegacyMap := {}

/-- How many entries a map can have. -/
def capacity : Nat := 128

/-- The number of entries. -/
def size (map : LegacyMap) : Nat := map.entries.length

/-- Whether there is no entry. -/
def isEmpty (map : LegacyMap) : Bool := map.entries.isEmpty

/-- The entry added or grown most recently. -/
def last? (map : LegacyMap) : Option Entry := map.entries.getLast?

/-- Enter one region. -/
def addRegion (map : LegacyMap) (region : Region) : Except MemoryError LegacyMap :=
  if region.size = 0 then .ok map
  else if capacity ≤ map.size then .error .mapFull
  else .ok { map with entries := Entry.place map.entries region }

/-- Enter regions in order, up to the first one that is refused; those before it
stay. -/
def addRegions (map : LegacyMap) : List Region → LegacyMap × Except MemoryError Unit
  | [] => (map, .ok ())
  | region :: rest =>
      match map.addRegion region with
      | .error cause => (map, .error cause)
      | .ok grown => grown.addRegions rest

/-- The text of a map, entry by entry. -/
def text (map : LegacyMap) : String :=
  "LegacyMap \x7b entries: [" ++ ", ".intercalate (map.entries.map Entry.text) ++
    "], truncated: " ++ (if map.truncated then "true" else "false") ++ " \x7d"

/-! ## Entering regions -/

/-- A region of no size changes nothing, also when the map is full. -/
theorem addRegion_of_size_eq_zero (map : LegacyMap) {region : Region} (h : region.size = 0) :
    map.addRegion region = .ok map := by
  simp [addRegion, h]

/-- A full map refuses every region that has a size. -/
theorem addRegion_of_full {map : LegacyMap} {region : Region} (hsize : region.size ≠ 0)
    (hfull : capacity ≤ map.size) : map.addRegion region = .error .mapFull := by
  simp [addRegion, hsize, hfull]

/-- A map with room takes every region that has a size. -/
theorem addRegion_of_room {map : LegacyMap} {region : Region} (hsize : region.size ≠ 0)
    (hroom : map.size < capacity) :
    map.addRegion region = .ok { map with entries := Entry.place map.entries region } := by
  simp [addRegion, hsize, Nat.not_le.2 hroom]

/-- A region that is not refused had no size, or found room. -/
theorem addRegion_eq_ok {map grown : LegacyMap} {region : Region}
    (h : map.addRegion region = .ok grown) :
    (region.size = 0 ∧ grown = map) ∨
      (region.size ≠ 0 ∧ map.size < capacity ∧
        grown = { map with entries := Entry.place map.entries region }) := by
  by_cases hsize : region.size = 0
  · rw [addRegion_of_size_eq_zero map hsize] at h
    exact Or.inl ⟨hsize, (Except.ok.inj h).symm⟩
  · rcases Nat.lt_or_ge map.size capacity with hroom | hfull
    · rw [addRegion_of_room hsize hroom] at h
      exact Or.inr ⟨hsize, hroom, (Except.ok.inj h).symm⟩
    · rw [addRegion_of_full hsize hfull] at h
      cases h

/-- Nothing to enter leaves the map as it is. -/
@[simp] theorem addRegions_nil (map : LegacyMap) : map.addRegions [] = (map, .ok ()) := rfl

end LegacyMap

end BootMemory.E820
