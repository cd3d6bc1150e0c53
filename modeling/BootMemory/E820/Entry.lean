import BootMemory.MemoryError
import BootMemory.Word.LittleEndian
import BootMemory.Firmware.MemoryType
import BootMemory.Word.Saturating

/-!
# Entries of the legacy map

A legacy kernel knows four kinds of memory and wants them in a table of entries:
an address, a size and the number of the kind, packed into twenty bytes.

Main results:

- Theorem {lit}`Kind.ofCode?_code`: reading the number of a kind gives that kind
  back.
- Theorem {lit}`Entry.ofBytes?_bytes`: reading the packed form of an entry gives
  that entry back.
-/

namespace BootMemory.E820

/-- What a legacy kernel may do with a range of memory. -/
inductive Kind
  /-- Free to use. -/
  | ram
  /-- Not to be touched. -/
  | reserved
  /-- Tables that may be reclaimed once read. -/
  | acpi
  /-- Storage that must survive sleep. -/
  | nvs
deriving DecidableEq, Repr, Inhabited

namespace Kind

/-- The number of a kind in the table. -/
def code : Kind → UInt32
  | ram => 1
  | reserved => 2
  | acpi => 3
  | nvs => 4

/-- The kind with a given number. -/
def ofCode? (value : UInt32) : Option Kind :=
  match value.toNat with
  | 1 => some ram
  | 2 => some reserved
  | 3 => some acpi
  | 4 => some nvs
  | _ => none

/-- The kind under which a legacy kernel sees a firmware type.  Persistent memory
is of no use to it and has none. -/
def ofMemoryType? : MemoryType → Option Kind
  | .acpiReclaim => some acpi
  | .acpiNvs => some nvs
  | .reserved | .runtimeServicesCode | .runtimeServicesData | .unusable | .mmio
  | .mmioPortSpace | .palCode => some reserved
  | .loaderCode | .loaderData | .bootServicesCode | .bootServicesData
  | .conventional => some ram
  | .persistent => none

/-- The name under which a kind is shown. -/
def name : Kind → String
  | ram => "Ram"
  | reserved => "Reserved"
  | acpi => "Acpi"
  | nvs => "Nvs"

/-- Reading the number of a kind gives that kind back. -/
@[simp] theorem ofCode?_code (kind : Kind) : ofCode? kind.code = some kind := by
  cases kind <;> rfl

/-- Two kinds with the same number are the same. -/
theorem code_inj {a b : Kind} : a.code = b.code ↔ a = b := by
  constructor
  · intro h
    have hread := congrArg ofCode? h
    simpa using hread
  · intro h
    rw [h]

end Kind

/-- A range of memory of one kind. -/
structure Region where
  start : UInt64
  size : UInt64
  kind : Kind
deriving DecidableEq, Repr, Inhabited

/-- One line of the legacy table. -/
structure Entry where
  address : UInt64
  size : UInt64
  /-- The number of the kind, known or not. -/
  code : UInt32
deriving DecidableEq, Repr, Inhabited

namespace Entry

/-- The entry that describes a region. -/
def ofRegion (region : Region) : Entry :=
  { address := region.start, size := region.size, code := region.kind.code }

/-- The kind, if its number has a meaning. -/
def kind? (entry : Entry) : Option Kind :=
  Kind.ofCode? entry.code

/-- The first address after the entry, at most the largest word. -/
def limit (entry : Entry) : UInt64 :=
  saturatingAdd entry.address entry.size

/-- Bytes of a packed entry. -/
def width : Nat := 20

/-- The packed form of an entry. -/
def bytes (entry : Entry) : List UInt8 :=
  encodeLittle 8 entry.address.toNat ++ encodeLittle 8 entry.size.toNat ++
    encodeLittle 4 entry.code.toNat

/-- The entry whose packed form the bytes are. -/
def ofBytes? (packed : List UInt8) : Option Entry :=
  if packed.length = width then
    some {
      address := UInt64.ofNat (decodeLittle (packed.take 8))
      size := UInt64.ofNat (decodeLittle ((packed.drop 8).take 8))
      code := UInt32.ofNat (decodeLittle (packed.drop 16)) }
  else none

/-- The text of an entry, with decimal numbers. -/
def text (entry : Entry) : String :=
  "E820Entry \x7b addr: " ++ toString entry.address ++ ", size: " ++ toString entry.size ++
    ", entry_type: " ++ toString entry.code ++ " \x7d"

/-! ## Laws of entries -/

/-- The entry of a region has the kind of that region. -/
@[simp] theorem kind?_ofRegion (region : Region) : (ofRegion region).kind? = some region.kind := by
  simp [kind?, ofRegion]

/-- A packed entry fills twenty bytes. -/
@[simp] theorem length_bytes (entry : Entry) : entry.bytes.length = width := by
  simp [bytes, width]

/-- Reading the packed form of an entry gives that entry back. -/
@[simp] theorem ofBytes?_bytes (entry : Entry) : ofBytes? entry.bytes = some entry := by
  have haddress : entry.address.toNat < Nat.pow 256 8 := entry.address.toNat_lt
  have hsize : entry.size.toNat < Nat.pow 256 8 := entry.size.toNat_lt
  have hcode : entry.code.toNat < Nat.pow 256 4 := entry.code.toNat_lt
  have hfirst : entry.bytes.take 8 = encodeLittle 8 entry.address.toNat := by
    simp [bytes]
  have hsecond : (entry.bytes.drop 8).take 8 = encodeLittle 8 entry.size.toNat := by
    simp [bytes]
  have hthird : entry.bytes.drop 16 = encodeLittle 4 entry.code.toNat := by
    simp [bytes, List.drop_append]
  simp only [ofBytes?, length_bytes, if_true, hfirst, hsecond, hthird,
    decodeLittle_encodeLittle haddress, decodeLittle_encodeLittle hsize,
    decodeLittle_encodeLittle hcode, UInt64.ofNat_toNat, UInt32.ofNat_toNat]

end Entry

end BootMemory.E820
