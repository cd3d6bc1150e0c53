import BootMemory.Firmware.Descriptor
import BootMemory.E820.LegacyMap

/-!
# Converting the firmware's map

Each descriptor contributes at most two pieces to the legacy map.  A descriptor
whose type means nothing to a legacy kernel contributes none, and memory that is
free to use is cut around the legacy hole, where video memory and the BIOS live.
The pieces are entered in the firmware's order.  When the table is full the rest
of the map is dropped and the result says so.

Main results:

- Definition {lit}`pieces` says what one descriptor contributes.
- Definition {lit}`LegacyMap.ofMemoryMap` converts a whole map.
- Theorem {lit}`LegacyMap.ofMemoryMap_eq_error_iff`: a stride that cannot hold a
  descriptor is the only failure.
-/

namespace BootMemory.E820

/-- The first address of the legacy hole. -/
def holeStart : UInt64 := 0xa0000

/-- The first address after the legacy hole. -/
def holeLimit : UInt64 := 0x100000

/-- The kind that a legacy kernel gives to a descriptor, if it gives one. -/
def kindOf? (descriptor : Descriptor) : Option Kind :=
  descriptor.memoryType?.bind Kind.ofMemoryType?

/-- The part of free memory below the legacy hole, for a range that reaches it. -/
def lowPiece (start : UInt64) : List Region :=
  if start < holeStart then [{ start, size := holeStart - start, kind := .ram }] else []

/-- The part of free memory above the legacy hole, for a range that starts below
the end of the hole. -/
def highPiece (limit : UInt64) : List Region :=
  if holeLimit < limit then [{ start := holeLimit, size := limit - holeLimit, kind := .ram }]
  else []

/-- The regions that a descriptor contributes, lower one first.  Only free memory
that reaches into the legacy hole is cut. -/
def pieces (descriptor : Descriptor) : List Region :=
  let start := descriptor.physicalStart
  let limit := descriptor.limit
  match kindOf? descriptor with
  | none => []
  | some kind =>
      if kind ≠ .ram ∨ limit ≤ holeStart ∨ holeLimit ≤ start then
        [{ start, size := limit - start, kind }]
      else lowPiece start ++ highPiece limit

namespace LegacyMap

/-- Enter what a descriptor contributes.  When its second piece is refused, the
first one stays. -/
def addDescriptor (map : LegacyMap) (descriptor : Descriptor) :
    LegacyMap × Except MemoryError Unit :=
  map.addRegions (pieces descriptor)

/-- Convert descriptors, dropping all that follows the first refused piece. -/
def ofDescriptors (descriptors : List Descriptor) : LegacyMap :=
  match empty.addRegions (descriptors.flatMap pieces) with
  | (map, .ok _) => map
  | (map, .error _) => { map with truncated := true }

/-- Convert the firmware's map, given as bytes and the stride between its
descriptors. -/
def ofMemoryMap (bytes : List UInt8) (stride : UInt64) : Except MemoryError LegacyMap :=
  match DescriptorStream.ofBytes? bytes stride with
  | none => .error (.invalidDescriptorSize stride)
  | some stream => .ok (ofDescriptors stream.toList)

/-- A stride that cannot hold a descriptor is the only failure. -/
theorem ofMemoryMap_eq_error_iff (bytes : List UInt8) (stride : UInt64) (cause : MemoryError) :
    ofMemoryMap bytes stride = .error cause ↔
      stride.toNat < Descriptor.width ∧ cause = .invalidDescriptorSize stride := by
  unfold ofMemoryMap DescriptorStream.ofBytes?
  by_cases h : stride.toNat < Descriptor.width
  · simp [h, eq_comm]
  · simp [h]

end LegacyMap

end BootMemory.E820
