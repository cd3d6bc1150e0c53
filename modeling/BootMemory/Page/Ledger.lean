import BootMemory.Limits
import BootMemory.Firmware.Request
import BootMemory.Page.Registry

/-!
# The page ledger

Every range that is taken from the firmware is recorded, so that all of it can be
given back.  The registry of the records lives in firmware pages of its own, which
are not among the records.

Without a registry the ledger still allocates and frees, but records nothing.

Pages at address zero are never handed out by a placed allocation, because zero
stands for no memory: the ledger asks again while it still holds them, so that
the firmware cannot grant them twice, and then gives them back.

Main results:

- Definitions {lit}`PageLedger.init` and {lit}`PageLedger.teardown` open and
  close the registry.
- Definitions {lit}`PageLedger.allocate`, {lit}`PageLedger.allocateAnywhere` and
  {lit}`PageLedger.free` keep the records beside the firmware's grants.
- Definition {lit}`PageLedger.step` is one operation of any kind.
-/

namespace BootMemory

/-- A ledger of outstanding page ranges. -/
structure PageLedger where
  /-- The highest address that a placed allocation may name. -/
  ceiling : UInt64
  /-- The type under which pages are requested. -/
  memoryType : MemoryType
  /-- Bytes of storage for the registry. -/
  registryBytes : UInt64
  /-- The records, once their storage has been granted. -/
  registry : Option Registry
deriving DecidableEq, Repr

namespace PageLedger

/-- A ledger that has no registry yet. -/
def ofLimits (limits : Limits) : PageLedger :=
  { ceiling := limits.ceiling
    memoryType := limits.memoryType
    registryBytes := limits.registryBytes
    registry := none }

/-! ## What a ledger knows -/

/-- Whether there is a registry. -/
def isReady (ledger : PageLedger) : Bool := ledger.registry.isSome

/-- The number of slots. -/
def capacity (ledger : PageLedger) : Nat :=
  match ledger.registry with
  | none => 0
  | some registry => registry.capacity

/-- The recorded ranges, in the order of their slots. -/
def recorded (ledger : PageLedger) : List PageRange :=
  match ledger.registry with
  | none => []
  | some registry => registry.recorded

/-- The number of recorded ranges. -/
def recordedCount (ledger : PageLedger) : Nat := ledger.recorded.length

/-- Whether a range with a given base is recorded. -/
def isRecorded (ledger : PageLedger) (base : UInt64) : Bool :=
  match ledger.registry with
  | none => false
  | some registry => registry.isRecorded base

/-- The pages that hold the registry. -/
def registryRange? (ledger : PageLedger) : Option PageRange :=
  ledger.registry.map Registry.range

/-- Drop the record of a range with a given base. -/
def forget (ledger : PageLedger) (base : UInt64) : PageLedger :=
  { ledger with registry := ledger.registry.map fun registry => registry.forget base }

/-! ## Grants -/

section Operations

variable {σ : Type} (services : Services σ)

/-- Give a range back; a refusal is only reported. -/
def giveBack (range : PageRange) (complaint : Status → Message) : Boot σ Unit := do
  match ← services.releasePages range with
  | .ok () => return ()
  | .error status => Boot.note (complaint status)

/-- Give pages at address zero back. -/
def giveBackPageZero (pages : UInt64) : Boot σ Unit :=
  giveBack services { base := 0, pages } .pageZeroNotReleased

/-- Ask again after a grant at address zero, and only then give that grant back. -/
def askPastPageZero (ledger : PageLedger) (pages : UInt64) :
    Boot σ (Except MemoryError UInt64) := do
  Boot.note .pageZeroGranted
  let second ← services.requestPages (.atMost ledger.ceiling) ledger.memoryType pages
  giveBackPageZero services pages
  match second with
  | .error status => return .error (.firmware status)
  | .ok base =>
      if base = 0 then
        giveBackPageZero services pages
        return .error (.firmware .outOfResources)
      else
        return .ok base

/-- Where a placed allocation asks for its pages: at the address, or anywhere up to
the ceiling when the address is zero. -/
def placementOf (ledger : PageLedger) (address : UInt64) : Placement :=
  if address = 0 then .atMost ledger.ceiling else .exactly address

/-- A placed grant, without a record. -/
def obtain (ledger : PageLedger) (address pages : UInt64) :
    Boot σ (Except MemoryError UInt64) := do
  if ledger.ceiling < address then
    return .error (.addressAboveCeiling address)
  else
    match ← services.requestPages (ledger.placementOf address) ledger.memoryType pages with
    | .error status => return .error (.firmware status)
    | .ok base => if base = 0 then askPastPageZero services ledger pages else return .ok base

/-- Record a granted range.  When every slot is occupied, the range is given back
and the allocation fails. -/
def record (ledger : PageLedger) (range : PageRange) :
    Boot σ (PageLedger × Except MemoryError UInt64) := do
  match ledger.registry with
  | none => return (ledger, .ok range.base)
  | some registry =>
      match registry.store? range with
      | some stored => return ({ ledger with registry := some stored }, .ok range.base)
      | none =>
          Boot.note (.registryFull registry.capacity range.base)
          giveBack services range (.unrecordedNotReleased range.base)
          return (ledger, .error .tooManyAllocations)

/-! ## Operations -/

/-- Get storage for the registry and start without records.  Nothing happens when
there is a registry already. -/
def init (ledger : PageLedger) : Boot σ (PageLedger × Except MemoryError Unit) := do
  match ledger.registry with
  | some _ => return (ledger, .ok ())
  | none =>
      let pages := storagePages ledger.registryBytes
      match ← obtain services ledger 0 pages with
      | .error cause =>
          Boot.note (.registryUnavailable cause)
          return (ledger, .error cause)
      | .ok base =>
          let range : PageRange := { base, pages }
          if ← services.reachable base then
            let registry := Registry.ofStorage range ledger.registryBytes
            Boot.note (.registryReady base registry.capacity)
            return ({ ledger with registry := some registry }, .ok ())
          else
            giveBack services range .registryNotReleased
            return (ledger, .error .notInitialized)

/-- Allocate pages at an address, or anywhere up to the ceiling when the address is
zero, and record them. -/
def allocate (ledger : PageLedger) (address pages : UInt64) :
    Boot σ (PageLedger × Except MemoryError UInt64) := do
  match ← obtain services ledger address pages with
  | .error cause => return (ledger, .error cause)
  | .ok base => record services ledger { base, pages }

/-- Allocate pages anywhere in memory, also above the ceiling or at address zero, and
record them. -/
def allocateAnywhere (ledger : PageLedger) (pages : UInt64) :
    Boot σ (PageLedger × Except MemoryError UInt64) := do
  match ← services.requestPages .anywhere ledger.memoryType pages with
  | .error status => return (ledger, .error (.firmware status))
  | .ok base => record services ledger { base, pages }

/-- Give a range back, recorded or not, and drop its record.  A range that the
firmware refuses stays recorded. -/
def free (ledger : PageLedger) (range : PageRange) :
    Boot σ (PageLedger × Except MemoryError Unit) := do
  match ← services.releasePages range with
  | .error status => return (ledger, .error (.firmware status))
  | .ok () => return (ledger.forget range.base, .ok ())

/-- Give recorded ranges back in order; refusals are only reported. -/
def giveBackAll : List PageRange → Boot σ Unit
  | [] => return ()
  | range :: rest => do
      giveBack services range (.recordedNotReleased range.base range.pages)
      giveBackAll rest

/-- Give every recorded range back, and the registry last. -/
def teardown (ledger : PageLedger) : Boot σ PageLedger := do
  match ledger.registry with
  | none => return ledger
  | some registry =>
      giveBackAll services registry.recorded
      giveBack services registry.range .registryNotReleased
      Boot.note (.registryReleased registry.recorded.length)
      return { ledger with registry := none }

end Operations

/-! ## Sequences of operations -/

/-- An operation of a ledger. -/
inductive Operation
  | init
  | allocate (address pages : UInt64)
  | allocateAnywhere (pages : UInt64)
  | free (range : PageRange)
  | teardown
deriving DecidableEq, Repr

/-- What an operation of a ledger answers. -/
inductive Answer
  /-- Nothing to answer. -/
  | nothing
  /-- Whether it worked. -/
  | outcome (result : Except MemoryError Unit)
  /-- The address of allocated pages. -/
  | address (result : Except MemoryError UInt64)

/-- Perform one operation. -/
def step {σ : Type} (services : Services σ) (ledger : PageLedger) :
    Operation → Boot σ (PageLedger × Answer)
  | .init => do
      let (ledger, result) ← init services ledger
      return (ledger, .outcome result)
  | .allocate address pages => do
      let (ledger, result) ← allocate services ledger address pages
      return (ledger, .address result)
  | .allocateAnywhere pages => do
      let (ledger, result) ← allocateAnywhere services ledger pages
      return (ledger, .address result)
  | .free range => do
      let (ledger, result) ← free services ledger range
      return (ledger, .outcome result)
  | .teardown => do
      let ledger ← teardown services ledger
      return (ledger, .nothing)

/-- Perform operations in order; the ledger afterwards and what each answered. -/
def runAll {σ : Type} (services : Services σ) (ledger : PageLedger) :
    List Operation → Boot σ (PageLedger × List Answer)
  | [] => return (ledger, [])
  | operation :: rest => do
      let (ledger, answer) ← step services ledger operation
      let (ledger, answers) ← runAll services ledger rest
      return (ledger, answer :: answers)

end PageLedger

end BootMemory
