import BootMemory.Firmware.MemoryType
import BootMemory.Page.Range
import BootMemory.Firmware.Status

/-!
# The firmware's memory services

The memory layer asks the firmware for five things: to grant or take back pages,
to grant or take back a pool buffer, and to write out its memory map.  A firmware
is any state machine that answers these requests; nothing is assumed of its
answers.

Main results:

- Definition {lit}`Placement`: how the firmware is to choose an address.
- Definition {lit}`Services`: the firmware as a state machine.
- Definition {lit}`Exchange`: one request together with its answer.
-/

namespace BootMemory

/-- How the firmware is to choose the address of a grant. -/
inductive Placement
  /-- Anywhere in memory. -/
  | anywhere
  /-- At or below a limit. -/
  | atMost (limit : UInt64)
  /-- At one address. -/
  | exactly (address : UInt64)
deriving DecidableEq, Repr, Inhabited

namespace Placement

/-- The number of the way to choose. -/
def code : Placement → Nat
  | anywhere => 0
  | atMost _ => 1
  | exactly _ => 2

/-- The address that goes with the request. -/
def address : Placement → UInt64
  | anywhere => 0
  | atMost limit => limit
  | exactly address => address

end Placement

/-- The answer to a request for memory.  The address is what the firmware left in
its answer cell, also when the status is not success. -/
structure GrantReply where
  status : Status
  address : UInt64
deriving DecidableEq, Repr, Inhabited

/-- What the firmware says about its memory map beside the descriptors. -/
structure MapLayout where
  /-- Bytes written, or bytes required when the buffer was too small. -/
  mapSize : UInt64 := 0
  /-- The version of the map. -/
  mapKey : UInt64 := 0
  /-- The distance between the starts of two descriptors. -/
  stride : UInt64 := 0
  /-- The version of the descriptor format. -/
  descriptorVersion : UInt32 := 0
deriving DecidableEq, Repr, Inhabited

/-- The answer to a request for the memory map. -/
structure MapReply where
  status : Status
  layout : MapLayout
  /-- What was written over the front of the buffer, as far as it reaches. -/
  written : List UInt8
deriving DecidableEq, Repr, Inhabited

/-- The firmware as a state machine with states in {lit}`σ`. -/
structure Services (σ : Type) where
  /-- Grant pages of a type. -/
  allocatePages : Placement → MemoryType → UInt64 → σ → GrantReply × σ
  /-- Take pages back. -/
  freePages : PageRange → σ → Status × σ
  /-- Grant a pool buffer of a type, of some bytes. -/
  allocatePool : MemoryType → UInt64 → σ → GrantReply × σ
  /-- Take a pool buffer back. -/
  freePool : UInt64 → σ → Status × σ
  /-- Write the memory map into a buffer with given contents. -/
  getMemoryMap : List UInt8 → σ → MapReply × σ
  /-- Whether memory at an address can be reached. -/
  reach : UInt64 → σ → Bool × σ
  /-- The bytes that memory holds from an address on. -/
  contents : σ → UInt64 → Nat → List UInt8
  /-- As many bytes are there as one asks for. -/
  length_contents : ∀ state address count, (contents state address count).length = count

/-- A request to the firmware together with its answer. -/
inductive Exchange
  | allocatePages (placement : Placement) (type : MemoryType) (pages : UInt64) (reply : GrantReply)
  | freePages (range : PageRange) (status : Status)
  | allocatePool (type : MemoryType) (size : UInt64) (reply : GrantReply)
  | freePool (buffer : UInt64) (status : Status)
  | getMemoryMap (buffer : List UInt8) (reply : MapReply)
deriving DecidableEq, Repr

/-- A buffer with bytes written over its front, as far as it reaches. -/
def overwrite (buffer written : List UInt8) : List UInt8 :=
  written.take buffer.length ++ buffer.drop written.length

/-- Writing over a buffer keeps its length. -/
@[simp] theorem length_overwrite (buffer written : List UInt8) :
    (overwrite buffer written).length = buffer.length := by
  simp only [overwrite, List.length_append, List.length_take, List.length_drop]
  omega

end BootMemory
