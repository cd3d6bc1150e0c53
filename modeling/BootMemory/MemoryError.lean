import BootMemory.Firmware.Status

/-!
# Errors of the memory layer

Each constructor is a cause; its wording is in {lit}`MemoryError.message` alone.
-/

namespace BootMemory

/-- Why an operation of the memory layer failed. -/
inductive MemoryError
  /-- A firmware service did not succeed. -/
  | firmware (status : Status)
  /-- The requested address lies above the allocation ceiling. -/
  | addressAboveCeiling (address : UInt64)
  /-- Every slot of the page registry is occupied. -/
  | tooManyAllocations
  /-- The legacy map has no room for another entry. -/
  | mapFull
  /-- The firmware kept asking for a larger map buffer. -/
  | bufferTooSmall (required : UInt64)
  /-- The firmware reported a stride that cannot hold a descriptor. -/
  | invalidDescriptorSize (stride : UInt64)
  /-- The page registry has no storage. -/
  | notInitialized
deriving DecidableEq, Repr, Inhabited

/-- The sentence that describes an error. -/
def MemoryError.message : MemoryError → String
  | firmware status => "firmware call failed: " ++ status.text
  | addressAboveCeiling address =>
      "address " ++ hexText address ++ " is above the allocation ceiling"
  | tooManyAllocations => "too many page allocations"
  | mapFull => "too many entries in the memory map"
  | bufferTooSmall required =>
      "memory map buffer too small (" ++ toString required ++ " bytes required)"
  | invalidDescriptorSize stride =>
      "descriptor size " ++ toString stride ++ " is smaller than a memory descriptor"
  | notInitialized => "page registry not initialized"

end BootMemory
