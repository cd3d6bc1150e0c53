import BootMemory.E820.Handoff
import BootMemory.Manager.Refresh

/-!
# The memory manager

A manager owns a page ledger and the current legacy map.  It is made with a
registry and, if the firmware allows, a first map; at its end it gives every
recorded range back.  Pool buffers are not recorded.

Main results:

- Definition {lit}`Manager.create` makes a manager, {lit}`Manager.teardown` ends it.
- Definition {lit}`Manager.refresh` rebuilds the legacy map; after a failure the map
  is empty.
- Definition {lit}`Manager.step` is one operation of any kind.
-/

namespace BootMemory

/-- The memory layer of one boot phase. -/
structure Manager where
  limits : Limits
  ledger : PageLedger
  /-- The legacy map of the last successful refresh. -/
  map : E820.LegacyMap
  /-- Whether this manager has put a map into the hand-off slot. -/
  published : Bool
deriving DecidableEq, Repr

namespace Manager

section Operations

variable {σ : Type} (services : Services σ)

/-- Read the firmware's map again and rebuild the legacy map from it. -/
def refresh (manager : Manager) : Boot σ (Manager × Except MemoryError Unit) := do
  let attempts := max 1 manager.limits.attempts
  let bytes := manager.limits.memoryMapBytes
  match ← manager.ledger.obtainMap services attempts 1 bytes with
  | (ledger, .error cause) =>
      return ({ manager with ledger, map := .empty }, .error cause)
  | (ledger, .ok map) => return ({ manager with ledger, map }, .ok ())

/-- Make a manager.  It needs a registry, but not a first map. -/
def create (limits : Limits) : Boot σ (Except MemoryError Manager) := do
  match ← PageLedger.init services (.ofLimits limits) with
  | (_, .error cause) => return .error cause
  | (ledger, .ok ()) =>
      match ← refresh services { limits, ledger, map := .empty, published := false } with
      | (manager, .error cause) =>
          Boot.note (.firstMapUnavailable cause)
          return .ok manager
      | (manager, .ok ()) => return .ok manager

/-- Allocate and record pages at an address, or anywhere up to the ceiling when the
address is zero. -/
def allocate (manager : Manager) (address pages : UInt64) :
    Boot σ (Manager × Except MemoryError UInt64) := do
  let (ledger, result) ← manager.ledger.allocate services address pages
  return ({ manager with ledger }, result)

/-- Allocate and record pages anywhere in memory. -/
def allocateAnywhere (manager : Manager) (pages : UInt64) :
    Boot σ (Manager × Except MemoryError UInt64) := do
  let (ledger, result) ← manager.ledger.allocateAnywhere services pages
  return ({ manager with ledger }, result)

/-- Give a range back and drop its record. -/
def free (manager : Manager) (range : PageRange) :
    Boot σ (Manager × Except MemoryError Unit) := do
  let (ledger, result) ← manager.ledger.free services range
  return ({ manager with ledger }, result)

/-- Allocate a pool buffer, without a record. -/
def allocatePool (manager : Manager) (size : UInt64) : Boot σ (Except MemoryError UInt64) := do
  match ← services.requestPool manager.limits.memoryType size with
  | .error status => return .error (.firmware status)
  | .ok buffer => return .ok buffer

/-- Give a pool buffer back. -/
def freePool (buffer : UInt64) : Boot σ (Except MemoryError Unit) := do
  match ← services.releasePool buffer with
  | .error status => return .error (.firmware status)
  | .ok () => return .ok ()

/-- Put the current map into the hand-off slot. -/
def publish (manager : Manager) (slot : Handoff) : Boot σ (Manager × Handoff) := do
  Boot.note manager.map.publicationReport
  return ({ manager with published := true }, slot.publish manager.map)

/-- Give everything back, and clear the hand-off slot if this manager has published.
Nothing happens without a registry. -/
def teardown (manager : Manager) (slot : Handoff) : Boot σ (Manager × Handoff) := do
  if manager.ledger.isReady then
    let ledger ← manager.ledger.teardown services
    return ({ manager with ledger, map := .empty, published := false },
      if manager.published then slot.clear else slot)
  else
    return (manager, slot)

end Operations

/-- The record of the current map at a cursor, and the cursor for the next call. -/
def next (manager : Manager) (cursor : Int32) : E820.Record × Int32 := manager.map.next cursor

/-! ## Sequences of operations -/

/-- An operation of a manager. -/
inductive Operation
  | refresh
  | allocate (address pages : UInt64)
  | allocateAnywhere (pages : UInt64)
  | free (range : PageRange)
  | allocatePool (size : UInt64)
  | freePool (buffer : UInt64)
  | publish
  | teardown
deriving DecidableEq, Repr

/-- What an operation of a manager answers. -/
inductive Answer
  /-- Nothing to answer. -/
  | nothing
  /-- Whether it worked. -/
  | outcome (result : Except MemoryError Unit)
  /-- The address of allocated memory. -/
  | address (result : Except MemoryError UInt64)
  /-- The entries of a rebuilt map. -/
  | entries (result : Except MemoryError (List E820.Entry))

/-- Perform one operation on a manager and the hand-off slot. -/
def step {σ : Type} (services : Services σ) (manager : Manager) (slot : Handoff) :
    Operation → Boot σ (Manager × Handoff × Answer)
  | .refresh => do
      let (manager, result) ← manager.refresh services
      return (manager, slot, .entries (result.map fun _ => manager.map.entries))
  | .allocate address pages => do
      let (manager, result) ← manager.allocate services address pages
      return (manager, slot, .address result)
  | .allocateAnywhere pages => do
      let (manager, result) ← manager.allocateAnywhere services pages
      return (manager, slot, .address result)
  | .free range => do
      let (manager, result) ← manager.free services range
      return (manager, slot, .outcome result)
  | .allocatePool size => do
      let result ← manager.allocatePool services size
      return (manager, slot, .address result)
  | .freePool buffer => do
      let result ← freePool services buffer
      return (manager, slot, .outcome result)
  | .publish => do
      let (manager, slot) ← manager.publish slot
      return (manager, slot, .nothing)
  | .teardown => do
      let (manager, slot) ← manager.teardown services slot
      return (manager, slot, .nothing)

/-- Perform operations in order; the manager and the slot afterwards and what each
operation answered. -/
def runAll {σ : Type} (services : Services σ) (manager : Manager) (slot : Handoff) :
    List Operation → Boot σ (Manager × Handoff × List Answer)
  | [] => return (manager, slot, [])
  | operation :: rest => do
      let (manager, slot, answer) ← step services manager slot operation
      let (manager, slot, answers) ← runAll services manager slot rest
      return (manager, slot, answer :: answers)

end Manager

end BootMemory
