/-!
# Firmware memory types

The firmware labels each range of memory with a number.  The numbers below
fifteen have a meaning; the others belong to vendors and operating systems and
have no constructor here.

Main results:

- Theorem {lit}`MemoryType.ofCode?_code`: reading the number of a type gives
  that type back.
-/

namespace BootMemory

/-- What a range of memory is used for, as the firmware says it. -/
inductive MemoryType
  | reserved
  | loaderCode
  | loaderData
  | bootServicesCode
  | bootServicesData
  | runtimeServicesCode
  | runtimeServicesData
  | conventional
  | unusable
  | acpiReclaim
  | acpiNvs
  | mmio
  | mmioPortSpace
  | palCode
  | persistent
deriving DecidableEq, Repr, Inhabited

namespace MemoryType

/-- The number that the firmware uses for a type. -/
def code : MemoryType → UInt32
  | reserved => 0
  | loaderCode => 1
  | loaderData => 2
  | bootServicesCode => 3
  | bootServicesData => 4
  | runtimeServicesCode => 5
  | runtimeServicesData => 6
  | conventional => 7
  | unusable => 8
  | acpiReclaim => 9
  | acpiNvs => 10
  | mmio => 11
  | mmioPortSpace => 12
  | palCode => 13
  | persistent => 14

/-- The type with a given number, if the number has a meaning. -/
def ofCode? (value : UInt32) : Option MemoryType :=
  match value.toNat with
  | 0 => some reserved
  | 1 => some loaderCode
  | 2 => some loaderData
  | 3 => some bootServicesCode
  | 4 => some bootServicesData
  | 5 => some runtimeServicesCode
  | 6 => some runtimeServicesData
  | 7 => some conventional
  | 8 => some unusable
  | 9 => some acpiReclaim
  | 10 => some acpiNvs
  | 11 => some mmio
  | 12 => some mmioPortSpace
  | 13 => some palCode
  | 14 => some persistent
  | _ => none

/-- The name under which a type is shown. -/
def name : MemoryType → String
  | reserved => "Reserved"
  | loaderCode => "LoaderCode"
  | loaderData => "LoaderData"
  | bootServicesCode => "BootServicesCode"
  | bootServicesData => "BootServicesData"
  | runtimeServicesCode => "RuntimeServicesCode"
  | runtimeServicesData => "RuntimeServicesData"
  | conventional => "Conventional"
  | unusable => "Unusable"
  | acpiReclaim => "AcpiReclaim"
  | acpiNvs => "AcpiNvs"
  | mmio => "Mmio"
  | mmioPortSpace => "MmioPortSpace"
  | palCode => "PalCode"
  | persistent => "Persistent"

/-- Reading the number of a type gives that type back. -/
@[simp] theorem ofCode?_code (kind : MemoryType) : ofCode? kind.code = some kind := by
  cases kind <;> rfl

end MemoryType

end BootMemory
