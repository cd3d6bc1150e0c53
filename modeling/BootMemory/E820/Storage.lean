import BootMemory.Word.Exact
import BootMemory.E820.Cursor
import BootMemory.E820.Extent
import BootMemory.E820.Operations
import BootMemory.E820.Table

/-!
# Maps in their storage

A map lies in an array of 128 slots, of which a number in front are in use.  This
module works on that array and with exact arithmetic.  Every difference, sum and index
is checked where it is evaluated, and there is no result at all as soon as one of them
leaves its type or its bounds.  A refusal is a result like any other.

Saturating operations and comparisons cannot go wrong and are not checked.  The kinds
of descriptors, their limits and the blocks of the firmware's map are those of the
conversion.

Main results:

- Definition {lit}`Storage.toMap`: the map that lies in some storage.
- Definition {lit}`Storage.runAll?`: operations on several maps in their storage.
-/

namespace BootMemory.E820

/-- The first elements of a list, if there are that many. -/
def front? {α : Type} (list : List α) (count : Nat) : Option (List α) :=
  if count ≤ list.length then some (list.take count) else none

/-- A slot that was never used. -/
def Entry.unused : Entry := { address := 0, size := 0, code := 0 }

/-- How many bytes of an entry lie below the legacy hole, if it does not start above it. -/
def Entry.lowBytes? (entry : Entry) : Option UInt64 :=
  exactSub? (min entry.limit holeStart) entry.address

/-- Add the low bytes of an entry to those of others. -/
def Entry.addLowBytes? (total : UInt64) (entry : Entry) : Option UInt64 := do
  exactAdd? total (← entry.lowBytes?)

/-- A map as it lies in memory. -/
structure Storage where
  slots : Vector Entry LegacyMap.capacity
  /-- How many slots in front are in use. -/
  count : UInt64
  truncated : Bool
deriving DecidableEq, Repr

namespace Storage

/-- Storage without entries. -/
def empty : Storage :=
  { slots := Vector.replicate LegacyMap.capacity Entry.unused, count := 0, truncated := false }

/-- The map that lies in the storage. -/
def toMap (storage : Storage) : LegacyMap :=
  { entries := storage.slots.toList.take storage.count.toNat, truncated := storage.truncated }

/-! ## Slots -/

/-- The slots in use. -/
def entries? (storage : Storage) : Option (List Entry) :=
  front? storage.slots.toList storage.count.toNat

/-- Write a slot. -/
def put? (storage : Storage) (index : Nat) (entry : Entry) : Option Storage :=
  if h : index < LegacyMap.capacity then
    some { storage with slots := storage.slots.set index entry h }
  else none

/-- Write the slot behind those in use and count it. -/
def append? (storage : Storage) (entry : Entry) : Option Storage := do
  let written ← storage.put? storage.count.toNat entry
  let count ← exactAdd? storage.count 1
  return { written with count }

/-! ## Entering -/

/-- Enter one region. -/
def addRegion? (storage : Storage) (region : Region) : Option (Except MemoryError Storage) :=
  if region.size = 0 then some (.ok storage)
  else if storage.count.toNat = LegacyMap.capacity then some (.error .mapFull)
  else do
    let entries ← storage.entries?
    match entries.getLast? with
    | none => return .ok (← storage.append? (Entry.ofRegion region))
    | some last =>
        if last.continuedBy region then
          return .ok (← storage.put? (entries.length - 1) (last.grow region.size))
        else
          return .ok (← storage.append? (Entry.ofRegion region))

/-- Enter what lies between two addresses. -/
def addSpan? (storage : Storage) (start limit : UInt64) (kind : Kind) :
    Option (Except MemoryError Storage) := do
  let size ← exactSub? limit start
  storage.addRegion? { start, size, kind }

/-- Enter what lies between two addresses, if the first one is lower. -/
def addPart? (storage : Storage) (start limit : UInt64) (kind : Kind) :
    Option (Except MemoryError Storage) :=
  if start < limit then storage.addSpan? start limit kind else some (.ok storage)

/-- The storage after something was entered or refused, and which of the two. -/
def settle (storage : Storage) : Except MemoryError Storage → Storage × Except MemoryError Unit
  | .error cause => (storage, .error cause)
  | .ok grown => (grown, .ok ())

/-- Enter what free memory has on both sides of the legacy hole.  What lies above it is only
looked at when the part below it was not refused. -/
def addAroundHole? (storage : Storage) (start limit : UInt64) :
    Option (Storage × Except MemoryError Unit) := do
  match ← storage.addPart? start holeStart .ram with
  | .error cause => return (storage, .error cause)
  | .ok grown => return grown.settle (← grown.addPart? holeLimit limit .ram)

/-- Enter what a descriptor contributes. -/
def addDescriptor? (storage : Storage) (descriptor : Descriptor) :
    Option (Storage × Except MemoryError Unit) :=
  let start := descriptor.physicalStart
  let limit := descriptor.limit
  match kindOf? descriptor with
  | none => some (storage, .ok ())
  | some kind =>
      if kind ≠ .ram ∨ limit ≤ holeStart ∨ holeLimit ≤ start then do
        return storage.settle (← storage.addSpan? start limit kind)
      else storage.addAroundHole? start limit

/-- Enter descriptors, dropping all that follows a refused one. -/
def addDescriptors? (storage : Storage) : List Descriptor → Option Storage
  | [] => some storage
  | descriptor :: rest => do
      match ← storage.addDescriptor? descriptor with
      | (grown, .ok ()) => grown.addDescriptors? rest
      | (grown, .error _) => return { grown with truncated := true }

/-- Convert the firmware's map. -/
def ofMemoryMap? (bytes : List UInt8) (stride : UInt64) : Option (Except MemoryError Storage) :=
  match DescriptorStream.ofBytes? bytes stride with
  | none => some (.error (.invalidDescriptorSize stride))
  | some stream => do return .ok (← empty.addDescriptors? stream.toList)

/-! ## Reading -/

/-- Kibibytes of free memory below the legacy hole. -/
def conventionalKib? (storage : Storage) : Option UInt64 := do
  let entries ← storage.entries?
  let low := entries.filter fun entry => entry.isRam && entry.address < holeStart
  let bytes ← low.foldlM Entry.addLowBytes? 0
  return bytes >>> 10

/-- Kibibytes of free memory that start at one mebibyte and have no gap. -/
def extendedKib? (storage : Storage) : Option UInt64 := do
  let entries ← storage.entries?
  match entries.find? Entry.coversHoleLimit with
  | none => return 0
  | some entry => return (← exactSub? entry.limit holeLimit) >>> 10

/-- The record at a cursor, and the cursor for the next call. -/
def next? (storage : Storage) (cursor : Int32) : Option (Record × Int32) := do
  let entries ← storage.entries?
  match cursor.toInt.toNat?.bind (entries[·]?) with
  | none => return (Record.empty, 0)
  | some entry =>
      let following ← exactSucc? cursor
      return (Record.ofEntry entry, if following.toInt = entries.length then 0 else following)

/-- A table with the entries that fit copied over its front, and how many these are. -/
def exportTo? (storage : Storage) (table : List Entry) : Option (List Entry × Nat) := do
  let count := min storage.count.toNat table.length
  let target ← front? table count
  let source ← front? storage.slots.toList count
  if target.length = source.length then return (source ++ table.drop count, count) else none

/-! ## Operations on several maps -/

/-- Perform one operation. -/
def step? (storages : Nat → Storage) :
    LegacyMap.Operation → Option ((Nat → Storage) × Except MemoryError Unit)
  | .addRegion target region => do
      match ← (storages target).addRegion? region with
      | .error cause => return (storages, .error cause)
      | .ok grown => return (Function.update storages target grown, .ok ())
  | .addDescriptor target descriptor => do
      let (grown, result) ← (storages target).addDescriptor? descriptor
      return (Function.update storages target grown, result)
  | .convert target bytes stride => do
      match ← ofMemoryMap? bytes stride with
      | .error cause => return (storages, .error cause)
      | .ok filled => return (Function.update storages target filled, .ok ())
  | .clear target => some (Function.update storages target empty, .ok ())
  | .copy source target => some (Function.update storages target (storages source), .ok ())

/-- Perform operations in order; the storage afterwards and what each operation answered. -/
def runAll? (storages : Nat → Storage) :
    List LegacyMap.Operation → Option ((Nat → Storage) × List (Except MemoryError Unit))
  | [] => some (storages, [])
  | operation :: rest => do
      let (storages, result) ← step? storages operation
      let (storages, results) ← runAll? storages rest
      return (storages, result :: results)

end Storage

end BootMemory.E820
