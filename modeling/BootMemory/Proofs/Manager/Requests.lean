import BootMemory.Proofs.Manager.Attempts

/-!
# What the operations of a manager ask

A manager passes most operations on to its ledger, so the ways in which they can go are
those of the ledger.  A refresh goes like the attempts that it makes.

Main results:

- Definitions {lit}`Manager.Creates` and {lit}`Manager.Takes`: the requests of a creation and
  of an operation of any kind.
- Theorems {lit}`Manager.conducts_create` and {lit}`Manager.conducts_step`: creations and
  operations go in one of these ways.
-/

namespace BootMemory.Manager

/-! ## The ways in which an operation can go -/

/-- The creation of a manager, which fails only when it gets no registry. -/
inductive Creates (limits : Limits) : List Exchange → Except MemoryError Manager → Prop
  | failed {calls : List Exchange} {ledger : PageLedger} {cause : MemoryError}
      (h : (PageLedger.ofLimits limits).Opens calls (ledger, .error cause)) :
      Creates limits calls (.error cause)
  | made {calls : List Exchange} {ledger : PageLedger} {attempts : List Attempt}
      {after : PageLedger × Except MemoryError E820.LegacyMap}
      (h : (PageLedger.ofLimits limits).Opens calls (ledger, .ok ()))
      (htrials : Trials (max 1 limits.attempts) ledger limits.memoryMapBytes attempts after) :
      Creates limits (calls ++ attempts.flatMap Attempt.calls)
        (.ok (({ limits, ledger, map := .empty, published := false } : Manager).afterTrials
          after).1)

/-- An operation of any kind. -/
inductive Takes (manager : Manager) (slot : Handoff) :
    Operation → List Exchange → Manager × Handoff × Answer → Prop
  | refresh {attempts : List Attempt} {after : PageLedger × Except MemoryError E820.LegacyMap}
      (h : Trials (max 1 manager.limits.attempts) manager.ledger
        manager.limits.memoryMapBytes attempts after) :
      Takes manager slot .refresh (attempts.flatMap Attempt.calls)
        ((manager.afterTrials after).1, slot,
          .entries ((manager.afterTrials after).2.map fun _ =>
            (manager.afterTrials after).1.map.entries))
  | allocate {address pages : UInt64} {calls : List Exchange} {ledger : PageLedger}
      {result : Except MemoryError UInt64}
      (h : manager.ledger.Allocates address pages calls (ledger, result)) :
      Takes manager slot (.allocate address pages) calls
        ({ manager with ledger }, slot, .address result)
  | allocateAnywhere {pages : UInt64} {calls : List Exchange} {ledger : PageLedger}
      {result : Except MemoryError UInt64}
      (h : manager.ledger.AllocatesAnywhere pages calls (ledger, result)) :
      Takes manager slot (.allocateAnywhere pages) calls
        ({ manager with ledger }, slot, .address result)
  | free {range : PageRange} {calls : List Exchange} {ledger : PageLedger}
      {result : Except MemoryError Unit}
      (h : manager.ledger.Frees range calls (ledger, result)) :
      Takes manager slot (.free range) calls ({ manager with ledger }, slot, .outcome result)
  | allocatePool {size : UInt64} {reply : GrantReply} :
      Takes manager slot (.allocatePool size)
        [.allocatePool manager.limits.memoryType size reply]
        (manager, slot, .address ((Services.poolBuffer reply).mapError .firmware))
  | freePool {buffer : UInt64} {status : Status} :
      Takes manager slot (.freePool buffer) [.freePool buffer status]
        (manager, slot, .outcome ((status.guard ()).mapError .firmware))
  | publish :
      Takes manager slot .publish []
        ({ manager with published := true }, slot.publish manager.map, .nothing)
  | teardown {calls : List Exchange} {ledger : PageLedger}
      (hready : manager.ledger.isReady = true) (h : manager.ledger.Closes calls ledger) :
      Takes manager slot .teardown calls
        ({ manager with ledger, map := .empty, published := false },
          if manager.published then slot.clear else slot, .nothing)
  | idle (hidle : manager.ledger.isReady = false) :
      Takes manager slot .teardown [] (manager, slot, .nothing)

/-! ## Every run goes in one of these ways -/

section Operations

open Services (Conducts)

variable {σ : Type} {services : Services σ} {firmware : σ} {manager : Manager}

theorem conducts_create (limits : Limits) :
    services.Conducts (create services limits) firmware (Creates limits) := by
  refine PageLedger.conducts_init.bind ?_
  rintro calls ⟨ledger, result⟩ after hopens
  cases result with
  | error cause =>
      refine .pure ?_
      rw [List.append_nil]
      exact .failed hopens
  | ok value =>
      refine conducts_refresh.bind ?_
      rintro _ ⟨refreshed, outcome⟩ last ⟨attempts, after, rfl, htrials, hvalue⟩
      have hmade := Creates.made hopens htrials
      rw [← hvalue] at hmade
      cases outcome with
      | error cause =>
          refine Conducts.note_bind (.pure ?_)
          rw [List.append_nil]
          exact hmade
      | ok value =>
          refine .pure ?_
          rw [List.append_nil]
          exact hmade

theorem conducts_teardown (slot : Handoff) :
    services.Conducts (teardown services manager slot) firmware fun calls outcome =>
      manager.Takes slot .teardown calls (outcome.1, outcome.2, .nothing) := by
  unfold teardown
  cases hready : manager.ledger.isReady with
  | false => exact .pure (.idle hready)
  | true =>
      exact PageLedger.conducts_teardown.bind_pure fun _ _ h => ⟨_, rfl, .teardown hready h⟩

theorem conducts_allocate (address pages : UInt64) :
    services.Conducts (allocate services manager address pages) firmware fun calls outcome =>
      ∃ ledger, manager.ledger.Allocates address pages calls (ledger, outcome.2) ∧
        outcome.1 = { manager with ledger } :=
  (PageLedger.conducts_allocate address pages).bind_pure fun _ _ h => ⟨_, rfl, _, h, rfl⟩

theorem conducts_allocateAnywhere (pages : UInt64) :
    services.Conducts (allocateAnywhere services manager pages) firmware fun calls outcome =>
      ∃ ledger, manager.ledger.AllocatesAnywhere pages calls (ledger, outcome.2) ∧
        outcome.1 = { manager with ledger } :=
  (PageLedger.conducts_allocateAnywhere pages).bind_pure fun _ _ h => ⟨_, rfl, _, h, rfl⟩

theorem conducts_free (range : PageRange) :
    services.Conducts (free services manager range) firmware fun calls outcome =>
      ∃ ledger, manager.ledger.Frees range calls (ledger, outcome.2) ∧
        outcome.1 = { manager with ledger } :=
  (PageLedger.conducts_free range).bind_pure fun _ _ h => ⟨_, rfl, _, h, rfl⟩

theorem conducts_allocatePool (size : UInt64) :
    services.Conducts (allocatePool services manager size) firmware fun calls result =>
      ∃ reply, calls = [.allocatePool manager.limits.memoryType size reply] ∧
        result = (Services.poolBuffer reply).mapError .firmware := by
  refine Conducts.requestPool_bind ?_
  intro reply after
  cases hbuffer : Services.poolBuffer reply with
  | error status => exact .pure ⟨reply, rfl, (congrArg (Except.mapError _) hbuffer).symm⟩
  | ok buffer => exact .pure ⟨reply, rfl, (congrArg (Except.mapError _) hbuffer).symm⟩

theorem conducts_freePool (buffer : UInt64) :
    services.Conducts (freePool services buffer) firmware fun calls result =>
      ∃ status, calls = [.freePool buffer status] ∧
        result = (status.guard ()).mapError .firmware := by
  refine Conducts.releasePool_bind ?_
  intro status after
  cases hguard : status.guard () with
  | error cause => exact .pure ⟨status, rfl, (congrArg (Except.mapError _) hguard).symm⟩
  | ok value => exact .pure ⟨status, rfl, (congrArg (Except.mapError _) hguard).symm⟩

theorem conducts_publish (slot : Handoff) :
    services.Conducts (publish manager slot) firmware fun calls outcome => calls = [] ∧
      outcome = ({ manager with published := true }, slot.publish manager.map) :=
  Conducts.note_bind (.pure ⟨rfl, rfl⟩)

/-- An operation goes in one of the ways of its kind. -/
theorem conducts_step (slot : Handoff) (operation : Operation) :
    services.Conducts (step services manager slot operation) firmware
      (manager.Takes slot operation) := by
  cases operation with
  | refresh =>
      refine conducts_refresh.bind_pure ?_
      rintro _ _ ⟨attempts, after, rfl, htrials, rfl⟩
      exact ⟨_, rfl, .refresh htrials⟩
  | allocate address pages =>
      refine (conducts_allocate address pages).bind_pure ?_
      rintro calls ⟨_, result⟩ ⟨ledger, h, rfl⟩
      exact ⟨_, rfl, .allocate h⟩
  | allocateAnywhere pages =>
      refine (conducts_allocateAnywhere pages).bind_pure ?_
      rintro calls ⟨_, result⟩ ⟨ledger, h, rfl⟩
      exact ⟨_, rfl, .allocateAnywhere h⟩
  | free range =>
      refine (conducts_free range).bind_pure ?_
      rintro calls ⟨_, result⟩ ⟨ledger, h, rfl⟩
      exact ⟨_, rfl, .free h⟩
  | allocatePool size =>
      refine (conducts_allocatePool size).bind_pure ?_
      rintro _ _ ⟨reply, rfl, rfl⟩
      exact ⟨_, rfl, .allocatePool⟩
  | freePool buffer =>
      refine (conducts_freePool buffer).bind_pure ?_
      rintro _ _ ⟨status, rfl, rfl⟩
      exact ⟨_, rfl, .freePool⟩
  | publish =>
      refine (conducts_publish slot).bind_pure ?_
      rintro _ _ ⟨rfl, rfl⟩
      exact ⟨_, rfl, .publish⟩
  | teardown => exact (conducts_teardown slot).bind_pure fun _ _ h => ⟨_, rfl, h⟩

end Operations

end BootMemory.Manager
