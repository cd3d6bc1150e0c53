import Mathlib.Data.List.Forall2
import BootMemory.Page.Ledger
import BootMemory.Proofs.Firmware.Dialogue

/-!
# What the operations of a ledger ask

Each relation here lists the ways in which one operation can go on any firmware: the
requests it sends, in order and with their answers, the ledger afterwards and the answer
to the caller.

Main results:

- Definition {lit}`PageLedger.Obtains`: the requests of a placed grant, with the detour
  past page zero.
- Definition {lit}`PageLedger.Takes`: the requests of an operation of any kind.
- Theorem {lit}`PageLedger.conducts_step`: an operation goes in one of these ways.
-/

namespace BootMemory.PageLedger

/-! ## The ways in which an operation can go -/

/-- After a grant at address zero: a second request, and then the return of the first
grant.  A second grant at address zero is returned as well. -/
inductive RetriesPastPageZero (ledger : PageLedger) (pages : UInt64) :
    List Exchange → Except MemoryError UInt64 → Prop
  | refused {reply : GrantReply} {status : Status} (hreply : reply.status ≠ .success) :
      RetriesPastPageZero ledger pages
        [.allocatePages (.atMost ledger.ceiling) ledger.memoryType pages reply,
          .freePages { base := 0, pages } status]
        (.error (.firmware reply.status))
  | granted {reply : GrantReply} {status : Status} (hreply : reply.status = .success)
      (hbase : reply.address ≠ 0) :
      RetriesPastPageZero ledger pages
        [.allocatePages (.atMost ledger.ceiling) ledger.memoryType pages reply,
          .freePages { base := 0, pages } status]
        (.ok reply.address)
  | zeroAgain {reply : GrantReply} {first second : Status} (hreply : reply.status = .success)
      (hbase : reply.address = 0) :
      RetriesPastPageZero ledger pages
        [.allocatePages (.atMost ledger.ceiling) ledger.memoryType pages reply,
          .freePages { base := 0, pages } first, .freePages { base := 0, pages } second]
        (.error (.firmware .outOfResources))

/-- A placed grant, which needs an address below the ceiling. -/
inductive Obtains (ledger : PageLedger) (address pages : UInt64) :
    List Exchange → Except MemoryError UInt64 → Prop
  | tooHigh (habove : ledger.ceiling < address) :
      Obtains ledger address pages [] (.error (.addressAboveCeiling address))
  | refused {reply : GrantReply} (hreply : reply.status ≠ .success) :
      Obtains ledger address pages
        [.allocatePages (ledger.placementOf address) ledger.memoryType pages reply]
        (.error (.firmware reply.status))
  | granted {reply : GrantReply} (hreply : reply.status = .success)
      (hbase : reply.address ≠ 0) :
      Obtains ledger address pages
        [.allocatePages (ledger.placementOf address) ledger.memoryType pages reply]
        (.ok reply.address)
  | pageZero {reply : GrantReply} {calls : List Exchange} {result : Except MemoryError UInt64}
      (hreply : reply.status = .success) (hbase : reply.address = 0)
      (h : ledger.RetriesPastPageZero pages calls result) :
      Obtains ledger address pages
        (.allocatePages (ledger.placementOf address) ledger.memoryType pages reply :: calls)
        result

/-- The record of a granted range, which is returned when no slot is empty. -/
inductive Records (ledger : PageLedger) (range : PageRange) :
    List Exchange → PageLedger × Except MemoryError UInt64 → Prop
  | unrecorded (hnone : ledger.registry = none) :
      Records ledger range [] (ledger, .ok range.base)
  | stored {registry stored : Registry} (hregistry : ledger.registry = some registry)
      (hstored : registry.store? range = some stored) :
      Records ledger range [] ({ ledger with registry := some stored }, .ok range.base)
  | full {registry : Registry} {status : Status} (hregistry : ledger.registry = some registry)
      (hfull : registry.store? range = none) :
      Records ledger range [.freePages range status] (ledger, .error .tooManyAllocations)

/-- A placed allocation. -/
inductive Allocates (ledger : PageLedger) (address pages : UInt64) :
    List Exchange → PageLedger × Except MemoryError UInt64 → Prop
  | failed {calls : List Exchange} {cause : MemoryError}
      (h : ledger.Obtains address pages calls (.error cause)) :
      Allocates ledger address pages calls (ledger, .error cause)
  | obtained {calls rest : List Exchange} {base : UInt64}
      {outcome : PageLedger × Except MemoryError UInt64}
      (h : ledger.Obtains address pages calls (.ok base))
      (hrecords : ledger.Records { base, pages } rest outcome) :
      Allocates ledger address pages (calls ++ rest) outcome

/-- An allocation anywhere in memory. -/
inductive AllocatesAnywhere (ledger : PageLedger) (pages : UInt64) :
    List Exchange → PageLedger × Except MemoryError UInt64 → Prop
  | refused {reply : GrantReply} (hreply : reply.status ≠ .success) :
      AllocatesAnywhere ledger pages
        [.allocatePages .anywhere ledger.memoryType pages reply]
        (ledger, .error (.firmware reply.status))
  | granted {reply : GrantReply} {rest : List Exchange}
      {outcome : PageLedger × Except MemoryError UInt64} (hreply : reply.status = .success)
      (hrecords : ledger.Records { base := reply.address, pages } rest outcome) :
      AllocatesAnywhere ledger pages
        (.allocatePages .anywhere ledger.memoryType pages reply :: rest) outcome

/-- A free. -/
inductive Frees (ledger : PageLedger) (range : PageRange) :
    List Exchange → PageLedger × Except MemoryError Unit → Prop
  | refused {status : Status} (hstatus : status ≠ .success) :
      Frees ledger range [.freePages range status] (ledger, .error (.firmware status))
  | released :
      Frees ledger range [.freePages range .success] (ledger.forget range.base, .ok ())

/-- The opening of a registry. -/
inductive Opens (ledger : PageLedger) :
    List Exchange → PageLedger × Except MemoryError Unit → Prop
  | already {registry : Registry} (hregistry : ledger.registry = some registry) :
      Opens ledger [] (ledger, .ok ())
  | failed {calls : List Exchange} {cause : MemoryError} (hnone : ledger.registry = none)
      (h : ledger.Obtains 0 (storagePages ledger.registryBytes) calls (.error cause)) :
      Opens ledger calls (ledger, .error cause)
  | unreachable {calls : List Exchange} {base : UInt64} {status : Status}
      (hnone : ledger.registry = none)
      (h : ledger.Obtains 0 (storagePages ledger.registryBytes) calls (.ok base)) :
      Opens ledger
        (calls ++ [.freePages { base, pages := storagePages ledger.registryBytes } status])
        (ledger, .error .notInitialized)
  | ready {calls : List Exchange} {base : UInt64} (hnone : ledger.registry = none)
      (h : ledger.Obtains 0 (storagePages ledger.registryBytes) calls (.ok base)) :
      Opens ledger calls
        ({ ledger with
            registry := some (.ofStorage { base, pages := storagePages ledger.registryBytes }
              ledger.registryBytes) }, .ok ())

/-- Returns of ranges, one request for each and in order. -/
def Returns (ranges : List PageRange) (calls : List Exchange) : Prop :=
  List.Forall₂ (fun range call => ∃ status, call = .freePages range status) ranges calls

/-- The end of a registry, which returns the records first. -/
inductive Closes (ledger : PageLedger) : List Exchange → PageLedger → Prop
  | idle (hnone : ledger.registry = none) : Closes ledger [] ledger
  | closed {registry : Registry} {calls : List Exchange}
      (hregistry : ledger.registry = some registry)
      (h : Returns (registry.recorded ++ [registry.range]) calls) :
      Closes ledger calls { ledger with registry := none }

/-- An operation of any kind. -/
inductive Takes (ledger : PageLedger) :
    Operation → List Exchange → PageLedger × Answer → Prop
  | init {calls : List Exchange} {after : PageLedger} {result : Except MemoryError Unit}
      (h : ledger.Opens calls (after, result)) :
      Takes ledger .init calls (after, .outcome result)
  | allocate {address pages : UInt64} {calls : List Exchange} {after : PageLedger}
      {result : Except MemoryError UInt64}
      (h : ledger.Allocates address pages calls (after, result)) :
      Takes ledger (.allocate address pages) calls (after, .address result)
  | allocateAnywhere {pages : UInt64} {calls : List Exchange} {after : PageLedger}
      {result : Except MemoryError UInt64}
      (h : ledger.AllocatesAnywhere pages calls (after, result)) :
      Takes ledger (.allocateAnywhere pages) calls (after, .address result)
  | free {range : PageRange} {calls : List Exchange} {after : PageLedger}
      {result : Except MemoryError Unit} (h : ledger.Frees range calls (after, result)) :
      Takes ledger (.free range) calls (after, .outcome result)
  | teardown {calls : List Exchange} {after : PageLedger} (h : ledger.Closes calls after) :
      Takes ledger .teardown calls (after, .nothing)

/-! ## Every run goes in one of these ways -/

section Operations

open Services (Conducts)

variable {σ : Type} {services : Services σ} {firmware : σ} {ledger : PageLedger}

theorem conducts_giveBack (range : PageRange) (complaint : Status → Message) :
    services.Conducts (giveBack services range complaint) firmware
      fun calls _ => ∃ status, calls = [.freePages range status] := by
  unfold giveBack
  refine Conducts.releasePages_bind ?_ ?_
  · intro status after _
    exact .note ⟨status, rfl⟩
  · intro after
    exact .pure ⟨.success, rfl⟩

theorem conducts_askPastPageZero (pages : UInt64) :
    services.Conducts (askPastPageZero services ledger pages) firmware
      (ledger.RetriesPastPageZero pages) := by
  unfold askPastPageZero
  refine Conducts.note_bind (Conducts.requestPages_bind ?_ ?_)
  · intro reply after hreply
    refine (conducts_giveBack _ _).bind ?_
    rintro _ _ last ⟨status, rfl⟩
    exact .pure (.refused hreply)
  · intro reply after hreply
    refine (conducts_giveBack _ _).bind ?_
    rintro _ _ last ⟨status, rfl⟩
    dsimp only
    by_cases hbase : reply.address = 0
    · rw [if_pos hbase]
      refine (conducts_giveBack _ _).bind ?_
      rintro _ _ final ⟨second, rfl⟩
      exact .pure (.zeroAgain hreply hbase)
    · rw [if_neg hbase]
      exact .pure (.granted hreply hbase)

theorem conducts_obtain (address pages : UInt64) :
    services.Conducts (obtain services ledger address pages) firmware
      (ledger.Obtains address pages) := by
  unfold obtain
  by_cases habove : ledger.ceiling < address
  · rw [if_pos habove]
    exact .pure (.tooHigh habove)
  · rw [if_neg habove]
    refine Conducts.requestPages_bind ?_ ?_
    · intro reply after hreply
      exact .pure (.refused hreply)
    · intro reply after hreply
      dsimp only
      by_cases hbase : reply.address = 0
      · rw [if_pos hbase]
        refine (conducts_askPastPageZero pages).mono ?_
        intro calls result h
        exact .pageZero hreply hbase h
      · rw [if_neg hbase]
        exact .pure (.granted hreply hbase)

theorem conducts_record (range : PageRange) :
    services.Conducts (record services ledger range) firmware (ledger.Records range) := by
  unfold record
  cases hregistry : ledger.registry with
  | none => exact .pure (.unrecorded hregistry)
  | some registry =>
      dsimp only
      cases hstore : registry.store? range with
      | none =>
          refine Conducts.note_bind ((conducts_giveBack _ _).bind ?_)
          rintro _ _ after ⟨status, rfl⟩
          exact .pure (.full hregistry hstore)
      | some stored => exact .pure (.stored hregistry hstore)

theorem conducts_allocate (address pages : UInt64) :
    services.Conducts (allocate services ledger address pages) firmware
      (ledger.Allocates address pages) := by
  refine (conducts_obtain address pages).bind ?_
  intro calls result after hobtains
  cases result with
  | error cause =>
      refine .pure ?_
      rw [List.append_nil]
      exact .failed hobtains
  | ok base =>
      refine (conducts_record _).mono ?_
      intro rest outcome hrecords
      exact .obtained hobtains hrecords

theorem conducts_allocateAnywhere (pages : UInt64) :
    services.Conducts (allocateAnywhere services ledger pages) firmware
      (ledger.AllocatesAnywhere pages) := by
  refine Conducts.requestPages_bind ?_ ?_
  · intro reply after hreply
    exact .pure (.refused hreply)
  · intro reply after hreply
    refine (conducts_record _).mono ?_
    intro rest outcome hrecords
    exact .granted hreply hrecords

theorem conducts_free (range : PageRange) :
    services.Conducts (free services ledger range) firmware (ledger.Frees range) := by
  refine Conducts.releasePages_bind ?_ ?_
  · intro status after hstatus
    exact .pure (.refused hstatus)
  · intro after
    exact .pure .released

theorem conducts_init :
    services.Conducts (init services ledger) firmware ledger.Opens := by
  unfold init
  cases hregistry : ledger.registry with
  | some registry => exact .pure (.already hregistry)
  | none =>
      refine (conducts_obtain _ _).bind ?_
      intro calls result after hobtains
      cases result with
      | error cause =>
          refine Conducts.note_bind (.pure ?_)
          rw [List.append_nil]
          exact .failed hregistry hobtains
      | ok base =>
          refine Conducts.reachable_bind ?_
          intro reached last
          cases reached with
          | true =>
              refine Conducts.note_bind (.pure ?_)
              rw [List.append_nil]
              exact .ready hregistry hobtains
          | false =>
              refine (conducts_giveBack _ _).bind ?_
              rintro _ _ final ⟨status, rfl⟩
              exact .pure (.unreachable hregistry hobtains)

theorem conducts_giveBackAll (ranges : List PageRange) :
    services.Conducts (giveBackAll services ranges) firmware
      fun calls _ => Returns ranges calls := by
  induction ranges generalizing firmware with
  | nil => exact .pure .nil
  | cons range rest ih =>
      refine (conducts_giveBack _ _).bind ?_
      rintro _ _ after ⟨status, rfl⟩
      refine ih.mono ?_
      intro calls _ hcalls
      exact .cons ⟨status, rfl⟩ hcalls

theorem conducts_teardown :
    services.Conducts (teardown services ledger) firmware ledger.Closes := by
  unfold teardown
  cases hregistry : ledger.registry with
  | none => exact .pure (.idle hregistry)
  | some registry =>
      refine (conducts_giveBackAll _).bind ?_
      intro calls _ after hcalls
      refine (conducts_giveBack _ _).bind ?_
      rintro _ _ last ⟨status, rfl⟩
      refine Conducts.note_bind (.pure (.closed hregistry ?_))
      exact List.rel_append hcalls (.cons ⟨status, rfl⟩ .nil)

/-- An operation goes in one of the ways of its kind. -/
theorem conducts_step (operation : Operation) :
    services.Conducts (step services ledger operation) firmware (ledger.Takes operation) := by
  cases operation with
  | init => exact conducts_init.bind_pure fun _ _ h => ⟨_, rfl, .init h⟩
  | allocate address pages =>
      exact (conducts_allocate address pages).bind_pure fun _ _ h => ⟨_, rfl, .allocate h⟩
  | allocateAnywhere pages =>
      exact (conducts_allocateAnywhere pages).bind_pure fun _ _ h =>
        ⟨_, rfl, .allocateAnywhere h⟩
  | free range => exact (conducts_free range).bind_pure fun _ _ h => ⟨_, rfl, .free h⟩
  | teardown => exact conducts_teardown.bind_pure fun _ _ h => ⟨_, rfl, .teardown h⟩

end Operations

end BootMemory.PageLedger
