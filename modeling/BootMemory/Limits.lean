import BootMemory.Firmware.MemoryType
import BootMemory.Page.Range

/-!
# Limits of a memory manager

How much storage a manager asks for, how high it may place an allocation, and how
often it tries.  The values given here are those that a boot loader normally uses.
-/

namespace BootMemory

/-- What a memory manager may ask for. -/
structure Limits where
  /-- The highest address that a placed allocation may name. -/
  ceiling : UInt64 := 0x7fffffff
  /-- Bytes of storage for the page registry. -/
  registryBytes : UInt64 := 0x1000
  /-- Bytes of the first buffer for the firmware's memory map. -/
  memoryMapBytes : UInt64 := 0x2000
  /-- How often a refresh queries the firmware at most; zero counts as one. -/
  attempts : Nat := 4
  /-- The type under which all memory is requested. -/
  memoryType : MemoryType := .loaderData
deriving DecidableEq, Repr

instance : Inhabited Limits := ⟨{}⟩

/-- Pages that the registry's storage fills. -/
def Limits.registryPages (limits : Limits) : UInt64 :=
  bytesToPages limits.registryBytes

end BootMemory
