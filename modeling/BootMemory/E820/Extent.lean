import BootMemory.E820.Conversion

/-!
# Memory sizes of the legacy map

Older kernels also ask for two numbers: how much free memory lies below the
legacy hole, and how much follows it without a gap.  Both are in units of 1024
bytes, rounded down.
-/

namespace BootMemory.E820

namespace Entry

/-- Whether an entry is free memory. -/
def isRam (entry : Entry) : Bool := entry.kind? == some .ram

/-- How many bytes of an entry that starts below the legacy hole lie below it. -/
def lowBytes (entry : Entry) : UInt64 := min entry.limit holeStart - entry.address

/-- Whether an entry is free memory that holds the first address after the hole. -/
def coversHoleLimit (entry : Entry) : Bool :=
  entry.isRam && entry.address ≤ holeLimit && holeLimit < entry.limit

end Entry

namespace LegacyMap

/-- The entries of free memory that start below the legacy hole. -/
def lowEntries (map : LegacyMap) : List Entry :=
  map.entries.filter fun entry => entry.isRam && entry.address < holeStart

/-- Kibibytes of free memory below the legacy hole. -/
def conventionalKib (map : LegacyMap) : UInt64 :=
  map.lowEntries.foldl (fun total entry => total + entry.lowBytes) 0 >>> 10

/-- Kibibytes of free memory that start at one mebibyte and have no gap. -/
def extendedKib (map : LegacyMap) : UInt64 :=
  match map.entries.find? Entry.coversHoleLimit with
  | none => 0
  | some entry => (entry.limit - holeLimit) >>> 10

end LegacyMap

end BootMemory.E820
