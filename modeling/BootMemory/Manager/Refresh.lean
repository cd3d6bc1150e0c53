import BootMemory.E820.Report
import BootMemory.Firmware.MapQuery
import BootMemory.Page.Ledger

/-!
# Obtaining a fresh legacy map

The firmware writes its map into a buffer, and the buffer is itself a recorded
allocation.  When the buffer is too short it is given back and replaced by one of
the size that the firmware wants and two descriptors more, since allocating the
new buffer can itself split a descriptor.  The bytes of a buffer are those that
memory held, with the firmware's reply written over them.

Main results:

- Definition {lit}`PageLedger.attemptMap` is one query through a buffer of its own.
- Definition {lit}`PageLedger.obtainMap` queries until the buffer is large enough,
  a limited number of times.
-/

namespace BootMemory

/-- The size of the next buffer after one that was too short. -/
def MapLayout.grownSize (layout : MapLayout) : UInt64 :=
  saturatingAdd layout.mapSize (saturatingMul layout.stride 2)

/-- How a query through one buffer ended. -/
inductive MapAttempt
  /-- The buffer held the map, and this is the legacy map. -/
  | converted (map : E820.LegacyMap)
  /-- The buffer was too short; try again with this many bytes. -/
  | short (required : UInt64)
deriving DecidableEq, Repr

namespace PageLedger

variable {σ : Type} (services : Services σ)

/-- What a query and its buffer amount to. -/
def readMap (fetched : Except MemoryError MapOutcome) (buffer : List UInt8) :
    Boot σ (Except MemoryError MapAttempt) := do
  match fetched with
  | .error cause => return .error cause
  | .ok (.insufficient layout) => return .ok (.short layout.grownSize)
  | .ok (.complete layout) =>
      let bytes := buffer.take layout.mapSize.toNat
      match E820.LegacyMap.ofMemoryMap bytes layout.stride with
      | .error cause => return .error cause
      | .ok map =>
          Boot.notes (map.conversionReport bytes.length)
          return .ok (.converted map)

/-- Query the map through a buffer that is given back before the end.  Granted pages are
always taken to be in reach: a buffer that memory does not show is not modelled, nor is
one over the pages of the registry, whose slots no buffer can change. -/
def attemptMap (ledger : PageLedger) (bytes : UInt64) :
    Boot σ (PageLedger × Except MemoryError MapAttempt) := do
  let pages := storagePages bytes
  match ← ledger.allocate services 0 pages with
  | (ledger, .error cause) => return (ledger, .error cause)
  | (ledger, .ok base) =>
      let buffer ← services.window base (pagesToBytes pages).toNat
      let (fetched, buffer) ← services.fetchMap buffer
      let outcome ← readMap fetched buffer
      match ← ledger.free services { base, pages } with
      | (ledger, .error cause) =>
          Boot.note (.bufferNotReleased base cause)
          return (ledger, outcome)
      | (ledger, .ok ()) => return (ledger, outcome)

/-- Query the map with growing buffers, at most a given number of times; {lit}`number`
counts the queries from one. -/
def obtainMap (ledger : PageLedger) : (left number : Nat) → (bytes : UInt64) →
    Boot σ (PageLedger × Except MemoryError E820.LegacyMap)
  | 0, _, bytes => return (ledger, .error (.bufferTooSmall bytes))
  | left + 1, number, bytes => do
      match ← ledger.attemptMap services bytes with
      | (ledger, .error cause) => return (ledger, .error cause)
      | (ledger, .ok (.converted map)) =>
          Boot.note map.refreshReport
          return (ledger, .ok map)
      | (ledger, .ok (.short required)) =>
          Boot.note (.bufferTooShort number (saturatingSub required bytes) required)
          ledger.obtainMap left (number + 1) required

end PageLedger

end BootMemory
