import BootMemory.Firmware.Services

/-!
# A firmware with an arena

This firmware grants pages and pool buffers from one arena, in ascending order,
and never uses a page of it twice.  It knows which ranges and buffers are live.
Its answers can be laid down beforehand: each request takes the next scripted
answer of its kind, and is answered in the normal way when there is none.

Main results:

- Definition {lit}`Arena.services` is the arena as a firmware.
- Theorem {lit}`Arena.carve_eq_none_iff`: the arena refuses exactly an empty request
  and one that does not fit.
-/

namespace BootMemory

/-- A scripted answer to a request for memory. -/
structure ScriptedGrant where
  /-- What to put into the answer cell, if anything. -/
  address : Option UInt64
  status : Status
deriving DecidableEq, Repr, Inhabited

/-- A scripted answer to a request for the memory map. -/
structure ScriptedMap where
  mapSize : Option UInt64
  mapKey : Option UInt64
  stride : Option UInt64
  descriptorVersion : Option UInt32
  /-- What to write into the buffer, if anything. -/
  written : Option (List UInt8)
  status : Status
deriving DecidableEq, Repr, Inhabited

/-- Answers that are laid down beforehand, per kind of request.  A vacant item
stands for the normal answer. -/
structure Script where
  grants : List (Option ScriptedGrant) := []
  releases : List (Option Status) := []
  poolGrants : List (Option ScriptedGrant) := []
  poolReleases : List (Option Status) := []
  maps : List (Option ScriptedMap) := []
deriving DecidableEq, Repr, Inhabited

/-- One script after another. -/
def Script.append (first second : Script) : Script :=
  { grants := first.grants ++ second.grants
    releases := first.releases ++ second.releases
    poolGrants := first.poolGrants ++ second.poolGrants
    poolReleases := first.poolReleases ++ second.poolReleases
    maps := first.maps ++ second.maps }

/-- The state of a firmware with an arena. -/
structure Arena where
  /-- The first address of the arena. -/
  base : UInt64 := 0x100000
  /-- The length of the arena in pages. -/
  pages : Nat := 64
  /-- How many pages of the arena are used up. -/
  nextPage : Nat := 0
  mapKey : UInt64 := 0x1000
  /-- Whether the next look at memory fails. -/
  hidesMemory : Bool := false
  /-- The memory map. -/
  map : List UInt8 := []
  /-- The distance between the starts of two descriptors. -/
  stride : UInt64 := 40
  script : Script := {}
  /-- The ranges that are granted now, in the order of their grants. -/
  live : List PageRange := []
  /-- The pool buffers that are granted now, in the order of their grants. -/
  pools : List UInt64 := []
deriving DecidableEq, Repr, Inhabited

namespace Arena

/-- The largest page count that is granted at an address of the firmware's choice. -/
def largestGrant : UInt64 := 1024

/-- Lay down further answers. -/
def enqueue (arena : Arena) (script : Script) : Arena :=
  { arena with script := arena.script.append script }

/-- Replace the memory map, which gets a new version. -/
def replaceMap (arena : Arena) (map : List UInt8) (stride : UInt64) : Arena :=
  { arena with map, stride, mapKey := arena.mapKey + 1 }

/-- Whether some pages are left for a request. -/
def hasRoom (arena : Arena) (pages : Nat) : Bool :=
  0 < pages && arena.nextPage + pages ≤ arena.pages

/-- Cut the next pages off the arena. -/
def carve (arena : Arena) (pages : Nat) : Option (UInt64 × Arena) :=
  if arena.hasRoom pages then
    some (arena.base + UInt64.ofNat (4096 * arena.nextPage),
      { arena with nextPage := arena.nextPage + pages })
  else none

/-- The answer to a request that is carved from the arena; the address stays as it
was when the arena refuses. -/
def carved (arena : Arena) (pages : Nat) (address : UInt64) : GrantReply × Arena :=
  match arena.carve pages with
  | none => ({ status := .outOfResources, address }, arena)
  | some (base, arena) => ({ status := .success, address := base }, arena)

/-! ## Pages -/

/-- Whether the next pages of the arena would reach past a limit. -/
def exceeds (arena : Arena) (limit : UInt64) (pages : UInt64) : Bool :=
  0 < pages &&
    limit.toNat < arena.base.toNat + 4096 * (arena.nextPage + pages.toNat) - 1

/-- The normal answer to a request for pages. -/
def grantNormally (arena : Arena) (placement : Placement) (pages : UInt64) :
    GrantReply × Arena :=
  match placement with
  | .exactly address => ({ status := .success, address }, arena)
  | .anywhere => arena.carved pages.toNat placement.address
  | .atMost limit =>
      if arena.exceeds limit pages then ({ status := .outOfResources, address := limit }, arena)
      else arena.carved pages.toNat limit

/-- The next scripted answer to a request for pages, or the normal one. -/
def answerGrant (arena : Arena) (placement : Placement) (pages : UInt64) :
    GrantReply × Arena :=
  let rest := { arena with script.grants := arena.script.grants.tail }
  match arena.script.grants.head?.join with
  | none => rest.grantNormally placement pages
  | some scripted =>
      ({ status := scripted.status, address := scripted.address.getD placement.address }, rest)

/-- Whether a request is refused before its script is looked at. -/
def isOversized (placement : Placement) (pages : UInt64) : Bool :=
  match placement with
  | .exactly _ => false
  | .anywhere | .atMost _ => largestGrant < pages

/-- Answer a request for pages; a grant is live from now on. -/
def allocatePages (placement : Placement) (_type : MemoryType) (pages : UInt64) (arena : Arena) :
    GrantReply × Arena :=
  if isOversized placement pages then
    ({ status := .outOfResources, address := placement.address }, arena)
  else
    let (reply, arena) := arena.answerGrant placement pages
    if reply.status.isSuccess then
      (reply, { arena with live := arena.live ++ [{ base := reply.address, pages }] })
    else (reply, arena)

/-- Take pages back.  Only the base has to be that of a live range. -/
def freePages (range : PageRange) (arena : Arena) : Status × Arena :=
  let isLive := arena.live.any fun live => live.base == range.base
  let normal : Status := if isLive then .success else .notFound
  let status := arena.script.releases.head?.join.getD normal
  let rest := { arena with script.releases := arena.script.releases.tail }
  if status.isSuccess then
    (status, { rest with live := rest.live.eraseP fun live => live.base == range.base })
  else (status, rest)

/-! ## Pool buffers -/

/-- Pages that a pool buffer takes from the arena. -/
def poolPages (size : UInt64) : Nat := max 1 (bytesToPages size).toNat

/-- Answer a request for a pool buffer; a grant is live from now on. -/
def allocatePool (_type : MemoryType) (size : UInt64) (arena : Arena) : GrantReply × Arena :=
  let rest := { arena with script.poolGrants := arena.script.poolGrants.tail }
  let (reply, arena) : GrantReply × Arena :=
    match arena.script.poolGrants.head?.join with
    | none => rest.carved (poolPages size) 0
    | some scripted => ({ status := scripted.status, address := scripted.address.getD 0 }, rest)
  if reply.status.isSuccess then
    (reply, { arena with pools := arena.pools ++ [reply.address] })
  else (reply, arena)

/-- Take a pool buffer back. -/
def freePool (buffer : UInt64) (arena : Arena) : Status × Arena :=
  let normal : Status := if arena.pools.contains buffer then .success else .invalidParameter
  let status := arena.script.poolReleases.head?.join.getD normal
  let rest := { arena with script.poolReleases := arena.script.poolReleases.tail }
  if status.isSuccess then (status, { rest with pools := rest.pools.erase buffer })
  else (status, rest)

/-! ## The memory map -/

/-- The normal answer to a request for the map. -/
def mapNormally (arena : Arena) (capacity : Nat) : MapReply :=
  let layout : MapLayout :=
    { mapSize := UInt64.ofNat arena.map.length
      mapKey := arena.mapKey
      stride := arena.stride
      descriptorVersion := 1 }
  if capacity < arena.map.length then { status := .bufferTooSmall, layout, written := [] }
  else { status := .success, layout, written := arena.map }

/-- A scripted answer to a request for the map.  The size starts as that of the
buffer and the rest of the layout as zero. -/
def mapAsScripted (scripted : ScriptedMap) (capacity : Nat) : MapReply :=
  { status := scripted.status
    layout :=
      { mapSize := scripted.mapSize.getD (UInt64.ofNat capacity)
        mapKey := scripted.mapKey.getD 0
        stride := scripted.stride.getD 0
        descriptorVersion := scripted.descriptorVersion.getD 0 }
    written := scripted.written.getD [] }

/-- Answer a request for the map. -/
def getMemoryMap (buffer : List UInt8) (arena : Arena) : MapReply × Arena :=
  let rest := { arena with script.maps := arena.script.maps.tail }
  match arena.script.maps.head?.join with
  | none => (arena.mapNormally buffer.length, rest)
  | some scripted => (mapAsScripted scripted buffer.length, rest)

/-! ## The arena as a firmware -/

/-- What every byte of memory holds. -/
def fillByte : UInt8 := 0xa5

/-- Look at memory, which fails once if the arena says so. -/
def reach (_address : UInt64) (arena : Arena) : Bool × Arena :=
  (!arena.hidesMemory, { arena with hidesMemory := false })

/-- The arena as a firmware. -/
def services : Services Arena where
  allocatePages := allocatePages
  freePages := freePages
  allocatePool := allocatePool
  freePool := freePool
  getMemoryMap := getMemoryMap
  reach := reach
  contents := fun _ _ count => List.replicate count fillByte
  length_contents := fun _ _ _ => List.length_replicate

/-- The arena refuses exactly an empty request and one that does not fit. -/
theorem carve_eq_none_iff (arena : Arena) (pages : Nat) :
    arena.carve pages = none ↔ pages = 0 ∨ arena.pages < arena.nextPage + pages := by
  unfold carve hasRoom
  split
  next h =>
    simp only [Bool.and_eq_true, decide_eq_true_eq] at h
    simp only [reduceCtorEq, false_iff]
    omega
  next h =>
    simp only [Bool.and_eq_true, decide_eq_true_eq] at h
    simp only [true_iff]
    omega

end Arena

end BootMemory
