import BootMemory.Boot

/-!
# Requests to the firmware

Each request is an action that lists itself with its answer.  A grant counts only
when the status is success, and a pool buffer at address zero is no buffer.

Main results:

- Theorems {lit}`Services.requestPages_run`, {lit}`Services.releasePages_run`,
  {lit}`Services.requestPool_run`, {lit}`Services.releasePool_run` and
  {lit}`Services.queryMap_run`: each action sends exactly one request.
- Theorems {lit}`Services.reachable_run` and {lit}`Services.window_run`: looking at
  memory sends none.
- Theorem {lit}`Services.poolBuffer_eq_ok_iff`: a pool buffer is a successful grant
  at an address other than zero.
-/

namespace BootMemory

/-- A memory map query that ended. -/
structure MapAnswer where
  status : Status
  layout : MapLayout
  /-- The buffer after the query, as long as before. -/
  buffer : List UInt8

namespace Services

variable {σ : Type} (services : Services σ)

/-- Ask for pages; the granted address on success. -/
def requestPages (placement : Placement) (type : MemoryType) (pages : UInt64) :
    Boot σ (Except Status UInt64) :=
  fun firmware =>
    let (reply, firmware) := services.allocatePages placement type pages firmware
    { value := reply.status.guard reply.address
      firmware
      events := [.call (.allocatePages placement type pages reply)] }

/-- Give pages back. -/
def releasePages (range : PageRange) : Boot σ (Except Status Unit) :=
  fun firmware =>
    let (status, firmware) := services.freePages range firmware
    { value := status.guard ()
      firmware
      events := [.call (.freePages range status)] }

/-- The buffer of a granted pool request: an address of zero is no memory. -/
def poolBuffer (reply : GrantReply) : Except Status UInt64 :=
  if reply.status.isSuccess && reply.address == 0 then .error .outOfResources
  else reply.status.guard reply.address

/-- Ask for a pool buffer; its address on success. -/
def requestPool (type : MemoryType) (size : UInt64) : Boot σ (Except Status UInt64) :=
  fun firmware =>
    let (reply, firmware) := services.allocatePool type size firmware
    { value := poolBuffer reply
      firmware
      events := [.call (.allocatePool type size reply)] }

/-- Give a pool buffer back. -/
def releasePool (buffer : UInt64) : Boot σ (Except Status Unit) :=
  fun firmware =>
    let (status, firmware) := services.freePool buffer firmware
    { value := status.guard ()
      firmware
      events := [.call (.freePool buffer status)] }

/-- Have the memory map written into a buffer. -/
def queryMap (buffer : List UInt8) : Boot σ MapAnswer :=
  fun firmware =>
    let (reply, firmware) := services.getMemoryMap buffer firmware
    { value := {
        status := reply.status
        layout := reply.layout
        buffer := overwrite buffer reply.written }
      firmware
      events := [.call (.getMemoryMap buffer reply)] }

/-- Whether memory at an address can be reached. -/
def reachable (address : UInt64) : Boot σ Bool :=
  fun firmware =>
    let (reached, firmware) := services.reach address firmware
    { value := reached, firmware, events := [] }

/-- The bytes that memory holds from an address on. -/
def window (address : UInt64) (count : Nat) : Boot σ (List UInt8) :=
  fun firmware =>
    { value := services.contents firmware address count, firmware, events := [] }

/-- The pointer through which memory at a physical address is used.  At boot time
memory is mapped to itself. -/
def pointer (address : UInt64) : UInt64 := address

/-- A pool buffer is a successful grant at an address other than zero. -/
theorem poolBuffer_eq_ok_iff (reply : GrantReply) (address : UInt64) :
    poolBuffer reply = .ok address ↔
      reply.status = .success ∧ reply.address = address ∧ address ≠ 0 := by
  unfold poolBuffer
  split
  next h =>
    simp only [Bool.and_eq_true, beq_iff_eq] at h
    simp only [reduceCtorEq, false_iff]
    intro hgrant
    exact hgrant.2.2 (hgrant.2.1.symm.trans h.2)
  next h =>
    rw [Status.guard_eq_ok_iff]
    constructor
    · intro hgrant
      refine ⟨hgrant.1, hgrant.2, ?_⟩
      intro hzero
      apply h
      simp [hgrant.1, hgrant.2, hzero, Status.isSuccess_iff]
    · intro hgrant
      exact ⟨hgrant.1, hgrant.2.1⟩

/-! ## Running requests -/

/-- A request for pages sends one request and yields the address on success. -/
@[simp] theorem requestPages_run (placement : Placement) (type : MemoryType) (pages : UInt64)
    (firmware : σ) :
    (services.requestPages placement type pages).run firmware =
      let answer := services.allocatePages placement type pages firmware
      { value := answer.1.status.guard answer.1.address
        firmware := answer.2
        events := [.call (.allocatePages placement type pages answer.1)] } := rfl

/-- Giving pages back sends one request. -/
@[simp] theorem releasePages_run (range : PageRange) (firmware : σ) :
    (services.releasePages range).run firmware =
      let answer := services.freePages range firmware
      { value := answer.1.guard ()
        firmware := answer.2
        events := [.call (.freePages range answer.1)] } := rfl

/-- A request for a pool buffer sends one request. -/
@[simp] theorem requestPool_run (type : MemoryType) (size : UInt64) (firmware : σ) :
    (services.requestPool type size).run firmware =
      let answer := services.allocatePool type size firmware
      { value := poolBuffer answer.1
        firmware := answer.2
        events := [.call (.allocatePool type size answer.1)] } := rfl

/-- Giving a pool buffer back sends one request. -/
@[simp] theorem releasePool_run (buffer : UInt64) (firmware : σ) :
    (services.releasePool buffer).run firmware =
      let answer := services.freePool buffer firmware
      { value := answer.1.guard ()
        firmware := answer.2
        events := [.call (.freePool buffer answer.1)] } := rfl

/-- A query of the map sends one request and writes over the buffer. -/
@[simp] theorem queryMap_run (buffer : List UInt8) (firmware : σ) :
    (services.queryMap buffer).run firmware =
      let answer := services.getMemoryMap buffer firmware
      { value := {
          status := answer.1.status
          layout := answer.1.layout
          buffer := overwrite buffer answer.1.written }
        firmware := answer.2
        events := [.call (.getMemoryMap buffer answer.1)] } := rfl

/-- Asking whether memory can be reached sends no request. -/
@[simp] theorem reachable_run (address : UInt64) (firmware : σ) :
    (services.reachable address).run firmware =
      let answer := services.reach address firmware
      { value := answer.1, firmware := answer.2, events := [] } := rfl

/-- Looking at memory sends no request and changes nothing. -/
@[simp] theorem window_run (address : UInt64) (count : Nat) (firmware : σ) :
    (services.window address count).run firmware =
      { value := services.contents firmware address count, firmware, events := [] } := rfl

end Services

end BootMemory
