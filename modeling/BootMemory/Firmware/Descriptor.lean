import BootMemory.Word.LittleEndian
import BootMemory.Firmware.MemoryType
import BootMemory.Page.Range

/-!
# Memory descriptors

The firmware's memory map is a buffer of descriptors that start a fixed number
of bytes apart, the *stride*.  Forty bytes of each have a meaning:

* bytes 0 to 3, the memory type, and four bytes of padding;
* bytes 8 to 15, the physical start, and 16 to 23, the virtual start;
* bytes 24 to 31, the number of pages, and 32 to 39, the attributes.

Bytes between the fortieth and the stride are never read, and neither is a last
block that is shorter than the stride.

Main results:

- Definition {lit}`DescriptorStream.next?` reads one block;
  {lit}`DescriptorStream.toList` reads all.
- Theorem {lit}`Descriptor.length_encode`: an encoded block fills its stride.
-/

namespace BootMemory

/-- One range of memory as the firmware describes it. -/
structure Descriptor where
  /-- The number of the memory type, known or not. -/
  typeCode : UInt32
  physicalStart : UInt64
  virtualStart : UInt64
  /-- The length in pages. -/
  pages : UInt64
  attributes : UInt64
deriving DecidableEq, Repr, Inhabited

namespace Descriptor

/-- Bytes of a descriptor that have a meaning. -/
def width : Nat := 40

/-- The memory type, if its number has a meaning. -/
def memoryType? (descriptor : Descriptor) : Option MemoryType :=
  MemoryType.ofCode? descriptor.typeCode

/-- The length in bytes, at most the largest word. -/
def size (descriptor : Descriptor) : UInt64 :=
  pagesToBytes descriptor.pages

/-- The first address after the range, at most the largest word. -/
def limit (descriptor : Descriptor) : UInt64 :=
  saturatingAdd descriptor.physicalStart descriptor.size

/-! ## Bytes of one descriptor -/

/-- The word of eight bytes at an offset. -/
def wordAt (bytes : List UInt8) (offset : Nat) : UInt64 :=
  UInt64.ofNat (decodeLittle ((bytes.drop offset).take 8))

/-- The descriptor at the front of some bytes, if there are forty of them. -/
def parse (bytes : List UInt8) : Option Descriptor :=
  let block := bytes.take width
  if block.length < width then none
  else some {
    typeCode := UInt32.ofNat (decodeLittle (block.take 4))
    physicalStart := wordAt block 8
    virtualStart := wordAt block 16
    pages := wordAt block 24
    attributes := wordAt block 32 }

/-- A block that holds a descriptor: four bytes of padding follow the type, and
filler follows the attributes. -/
def encode (padding filler : List UInt8) (descriptor : Descriptor) : List UInt8 :=
  encodeLittle 4 descriptor.typeCode.toNat ++ padding ++
    encodeLittle 8 descriptor.physicalStart.toNat ++
    encodeLittle 8 descriptor.virtualStart.toNat ++
    encodeLittle 8 descriptor.pages.toNat ++
    encodeLittle 8 descriptor.attributes.toNat ++ filler

/-- Padding of four bytes and filler up to the stride make a block of one stride. -/
theorem length_encode {padding filler : List UInt8} (descriptor : Descriptor)
    (hpadding : padding.length = 4) :
    (encode padding filler descriptor).length = width + filler.length := by
  simp [encode, hpadding, width]
  omega

end Descriptor

/-! ## Descriptors of a whole map -/

/-- The part of a memory map that has not been read yet. -/
structure DescriptorStream where
  bytes : List UInt8
  /-- The distance between the starts of two descriptors. -/
  stride : Nat
deriving Repr

namespace DescriptorStream

/-- Start reading a map; a stride that cannot hold a descriptor is refused. -/
def ofBytes? (bytes : List UInt8) (stride : UInt64) : Option DescriptorStream :=
  if stride.toNat < Descriptor.width then none
  else some { bytes, stride := stride.toNat }

/-- The number of whole blocks still to be read. -/
def remaining (stream : DescriptorStream) : Nat :=
  stream.bytes.length / stream.stride

/-- Read the next whole block. -/
def next? (stream : DescriptorStream) : Option (Descriptor × DescriptorStream) :=
  let block := stream.bytes.take stream.stride
  if block.length < stream.stride then none
  else
    match Descriptor.parse block with
    | none => none
    | some descriptor =>
        some (descriptor, { stream with bytes := stream.bytes.drop stream.stride })

/-- Read at most a given number of blocks, after those in {lit}`done`, which are
listed last first. -/
def drain : Nat → DescriptorStream → List Descriptor → List Descriptor
  | 0, _, done => done.reverse
  | count + 1, stream, done =>
      match stream.next? with
      | none => done.reverse
      | some (descriptor, rest) => drain count rest (descriptor :: done)

/-- Every whole block, in order. -/
def toList (stream : DescriptorStream) : List Descriptor :=
  stream.drain stream.remaining []

/-- What was read before stays in front of what is read next. -/
theorem drain_eq_append (count : Nat) (stream : DescriptorStream) (done : List Descriptor) :
    drain count stream done = done.reverse ++ drain count stream [] := by
  induction count generalizing stream done with
  | zero => simp [drain]
  | succ count ih =>
      simp only [drain]
      split
      next => simp
      next descriptor rest _ =>
        rw [ih rest (descriptor :: done), ih rest [descriptor]]
        simp

end DescriptorStream

end BootMemory
