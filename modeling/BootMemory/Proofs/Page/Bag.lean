import Mathlib.Data.Multiset.AddSub
import BootMemory.Firmware.Arena
import BootMemory.Proofs.Page.Records
import BootMemory.Proofs.Page.Requests

/-!
# The records as a bag

Where a record stands among the slots does not matter to anyone who uses a ledger.  What
matters is the bag of recorded ranges, in which several ranges may have one base.  The
bag has rules of its own, in terms of the requests that an operation sent and of the
answers it got; no slot occurs in them.

Main results:

- Definitions {lit}`Operation.Gains` and {lit}`Operation.Misses`: what an allocation gets
  from its requests, all of which are for its number of pages.
- Definition {lit}`Bag.Step`: what each operation does to the bag, and what it answers.
- Theorem {lit}`PageLedger.Takes.bag_step`: an operation of a ledger follows the rules.
- Theorem {lit}`PageLedger.bag_runAll`: so does a sequence of operations from a ledger
  without a registry, on any firmware.
-/

open scoped List

namespace BootMemory

/-! ## What can be read off the requests -/

namespace Exchange

/-- Whether a request returns a range. -/
def isReturnOf (range : PageRange) : Exchange → Bool
  | freePages returned _ => returned == range
  | _ => false

/-- Whether an exchange asks for so many pages, or returns a range of so many. -/
def IsFor (pages : UInt64) : Exchange → Prop
  | allocatePages _ _ asked _ => asked = pages
  | freePages range _ => range.pages = pages
  | _ => False

/-- What the last request for pages was granted after one more exchange. -/
def lastGrant (last : Option PageRange) : Exchange → Option PageRange
  | allocatePages _ _ pages reply =>
      if reply.status = .success then some { base := reply.address, pages } else none
  | _ => last

end Exchange

/-- The range that the last request for pages was granted, if it was granted. -/
def lastGrant? (calls : List Exchange) : Option PageRange :=
  calls.foldl Exchange.lastGrant none

theorem lastGrant?_singleton (placement : Placement) (type : MemoryType) (pages : UInt64)
    {reply : GrantReply} (h : reply.status = .success) :
    lastGrant? [.allocatePages placement type pages reply] =
      some { base := reply.address, pages } :=
  if_pos h

theorem lastGrant?_append_freePages (calls : List Exchange) (range : PageRange)
    (status : Status) : lastGrant? (calls ++ [.freePages range status]) = lastGrant? calls := by
  rw [lastGrant?, List.foldl_append]
  rfl

/-- A range that was not returned before and is returned now is returned once. -/
theorem countP_isReturnOf_append {calls : List Exchange} {range : PageRange}
    (hkept : calls.countP (·.isReturnOf range) = 0) (status : Status) :
    (calls ++ [Exchange.freePages range status]).countP (·.isReturnOf range) = 1 := by
  rw [List.countP_append, hkept]
  simp [Exchange.isReturnOf]

namespace PageLedger.Operation

/-- An allocation gains the range that its last request was granted.  At address zero a
placed allocation gains nothing. -/
inductive Gains : Operation → List Exchange → PageRange → Prop
  | allocate {address pages base : UInt64} {calls : List Exchange}
      (hcalls : ∀ call ∈ calls, call.IsFor pages)
      (hgrant : lastGrant? calls = some { base, pages }) (hbase : base ≠ 0) :
      Gains (.allocate address pages) calls { base, pages }
  | allocateAnywhere {pages base : UInt64} {calls : List Exchange}
      (hcalls : ∀ call ∈ calls, call.IsFor pages)
      (hgrant : lastGrant? calls = some { base, pages }) :
      Gains (.allocateAnywhere pages) calls { base, pages }

/-- An allocation misses its pages when its last request was refused, or when a placed one
was granted pages at address zero, or when it sent no request. -/
inductive Misses : Operation → List Exchange → Prop
  | allocate {address pages : UInt64} {calls : List Exchange}
      (hcalls : ∀ call ∈ calls, call.IsFor pages)
      (hgrant : ∀ range, lastGrant? calls = some range → range.base = 0) :
      Misses (.allocate address pages) calls
  | allocateAnywhere {pages : UInt64} {calls : List Exchange}
      (hcalls : ∀ call ∈ calls, call.IsFor pages) (hgrant : lastGrant? calls = none) :
      Misses (.allocateAnywhere pages) calls

/-- An allocation does not both miss its pages and gain them. -/
theorem Misses.not_gains {operation : Operation} {calls : List Exchange} {range : PageRange}
    (h : operation.Misses calls) : ¬ operation.Gains calls range := by
  intro hgains
  cases hgains with
  | allocate _ hgrant hbase =>
      cases h with
      | allocate _ hmissed => exact hbase (hmissed _ hgrant)
  | allocateAnywhere _ hgrant =>
      cases h with
      | allocateAnywhere _ hmissed => cases hmissed.symm.trans hgrant

/-- What is returned after the last request does not matter to what an allocation gains. -/
theorem Gains.append_freePages {operation : Operation} {calls : List Exchange}
    {gained : PageRange} (h : operation.Gains calls gained) (status : Status) :
    operation.Gains (calls ++ [.freePages gained status]) gained := by
  cases h with
  | allocate hcalls hgrant hbase =>
      refine .allocate ?_ ((lastGrant?_append_freePages _ _ _).trans hgrant) hbase
      exact List.forall_mem_append.2 ⟨hcalls, List.forall_mem_singleton.2 rfl⟩
  | allocateAnywhere hcalls hgrant =>
      refine .allocateAnywhere ?_ ((lastGrant?_append_freePages _ _ _).trans hgrant)
      exact List.forall_mem_append.2 ⟨hcalls, List.forall_mem_singleton.2 rfl⟩

end PageLedger.Operation

/-! ## The rules of the bag -/

/-- The recorded ranges without their order, and the pages that hold the records. -/
structure Bag where
  home : PageRange
  ranges : Multiset PageRange

namespace Bag

open PageLedger (Operation Answer Returns)

/-- How many ranges fit into a bag that is kept in some bytes of storage. -/
def limit (bytes : UInt64) : Nat := bytes.toNat / 24

/-- What an operation does to the bag, and what it answers, given its requests.  There is
no bag before it is opened and after it is closed.  The opening asks for its pages like a
placed allocation without an address, and the closing returns every range in some order,
and the pages of the bag last. -/
inductive Step (bytes : UInt64) :
    Option Bag → Operation → List Exchange → Answer → Option Bag → Prop
  | opened {calls : List Exchange} {home : PageRange}
      (hgains : (Operation.allocate 0 (storagePages bytes)).Gains calls home)
      (hkept : calls.countP (·.isReturnOf home) = 0) :
      Step bytes none .init calls (.outcome (.ok ())) (some { home, ranges := 0 })
  | notOpened {calls : List Exchange} {status : Status}
      (hmisses : (Operation.allocate 0 (storagePages bytes)).Misses calls) :
      Step bytes none .init calls (.outcome (.error (.firmware status))) none
  | unreachable {calls : List Exchange} {home : PageRange}
      (hgains : (Operation.allocate 0 (storagePages bytes)).Gains calls home)
      (hreturned : calls.countP (·.isReturnOf home) = 1) :
      Step bytes none .init calls (.outcome (.error .notInitialized)) none
  | alreadyOpen {bag : Bag} :
      Step bytes (some bag) .init [] (.outcome (.ok ())) (some bag)
  | notGained {bag : Option Bag} {operation : Operation} {calls : List Exchange}
      {cause : MemoryError} (hmisses : operation.Misses calls)
      (hcause : cause ≠ .tooManyAllocations) :
      Step bytes bag operation calls (.address (.error cause)) bag
  | unrecorded {operation : Operation} {calls : List Exchange} {range : PageRange}
      (hgains : operation.Gains calls range) (hkept : calls.countP (·.isReturnOf range) = 0) :
      Step bytes none operation calls (.address (.ok range.base)) none
  | added {home : PageRange} {ranges : Multiset PageRange} {operation : Operation}
      {calls : List Exchange} {range : PageRange} (hgains : operation.Gains calls range)
      (hkept : calls.countP (·.isReturnOf range) = 0) (hroom : ranges.card < limit bytes) :
      Step bytes (some { home, ranges }) operation calls (.address (.ok range.base))
        (some { home, ranges := range ::ₘ ranges })
  | full {bag : Bag} {operation : Operation} {calls : List Exchange} {range : PageRange}
      (hgains : operation.Gains calls range)
      (hreturned : calls.countP (·.isReturnOf range) = 1)
      (hfull : limit bytes ≤ bag.ranges.card) :
      Step bytes (some bag) operation calls (.address (.error .tooManyAllocations)) (some bag)
  | notFreed {bag : Option Bag} {range : PageRange} {status : Status}
      (hstatus : status ≠ .success) :
      Step bytes bag (.free range) [.freePages range status]
        (.outcome (.error (.firmware status))) bag
  | freedUnrecorded {range : PageRange} :
      Step bytes none (.free range) [.freePages range .success] (.outcome (.ok ())) none
  | removed {home range removed : PageRange} {ranges : Multiset PageRange}
      (hhome : home.base ≠ range.base) (hbase : removed.base = range.base) :
      Step bytes (some { home, ranges := removed ::ₘ ranges }) (.free range)
        [.freePages range .success] (.outcome (.ok ())) (some { home, ranges })
  | freedOther {bag : Bag} {range : PageRange}
      (hother : bag.home.base = range.base ∨ ∀ held ∈ bag.ranges, held.base ≠ range.base) :
      Step bytes (some bag) (.free range) [.freePages range .success] (.outcome (.ok ()))
        (some bag)
  | closed {bag : Bag} {order : List PageRange} {calls : List Exchange}
      (horder : (order : Multiset PageRange) = bag.ranges)
      (hreturns : Returns (order ++ [bag.home]) calls) :
      Step bytes (some bag) .teardown calls .nothing none
  | alreadyClosed : Step bytes none .teardown [] .nothing none

/-- A sequence of steps, with all requests and answers in order. -/
inductive Run (bytes : UInt64) :
    Option Bag → List Operation → List Exchange → List Answer → Option Bag → Prop
  | nil {bag : Option Bag} : Run bytes bag [] [] [] bag
  | cons {bag middle last : Option Bag} {operation : Operation} {operations : List Operation}
      {calls rest : List Exchange} {answer : Answer} {answers : List Answer}
      (hstep : Step bytes bag operation calls answer middle)
      (hrest : Run bytes middle operations rest answers last) :
      Run bytes bag (operation :: operations) (calls ++ rest) (answer :: answers) last

/-- A full bag is the only reason for refusing an allocation that gained its pages. -/
theorem Step.tooManyAllocations_iff {bytes : UInt64} {before after : Option Bag}
    {operation : Operation} {calls : List Exchange} {answer : Answer}
    (h : Step bytes before operation calls answer after)
    (hcard : ∀ bag, before = some bag → bag.ranges.card ≤ limit bytes) :
    answer = .address (.error .tooManyAllocations) ↔
      ∃ bag range, before = some bag ∧ operation.Gains calls range ∧
        bag.ranges.card = limit bytes := by
  constructor
  · rintro rfl
    cases h with
    | notGained _ hcause => exact (hcause rfl).elim
    | full hgains _ hfull => exact ⟨_, _, rfl, hgains, Nat.le_antisymm (hcard _ rfl) hfull⟩
  · rintro ⟨bag, range, rfl, hgains, hfull⟩
    cases h with
    | notGained hmisses _ => exact (hmisses.not_gains hgains).elim
    | added _ _ hroom => exact (Nat.ne_of_lt hroom hfull).elim
    | full => rfl
    | alreadyOpen | notFreed | removed | freedOther | closed => cases hgains

end Bag

/-! ## A ledger follows the rules -/

namespace PageLedger

/-- The bag that the slots of a ledger stand for. -/
def bag? (ledger : PageLedger) : Option Bag :=
  ledger.registry.map fun registry => { home := registry.range, ranges := registry.recorded }

theorem bag?_of_none {ledger : PageLedger} (h : ledger.registry = none) :
    ledger.bag? = none := by
  rw [bag?, h, Option.map_none]

theorem bag?_of_some {ledger : PageLedger} {registry : Registry}
    (h : ledger.registry = some registry) :
    ledger.bag? = some { home := registry.range, ranges := registry.recorded } := by
  rw [bag?, h, Option.map_some]

/-- A ledger has the slots that fit into its storage. -/
structure Sized (bytes : UInt64) (ledger : PageLedger) : Prop where
  registryBytes_eq : ledger.registryBytes = bytes
  capacity_eq : ∀ registry, ledger.registry = some registry →
    registry.capacity = Bag.limit bytes

/-- A ledger without a registry has none of them. -/
theorem sized_ofLimits (limits : Limits) : (ofLimits limits).Sized limits.registryBytes :=
  ⟨rfl, nofun⟩

theorem Sized.card_le {bytes : UInt64} {ledger : PageLedger} (h : ledger.Sized bytes)
    {bag : Bag} (hbag : ledger.bag? = some bag) : bag.ranges.card ≤ Bag.limit bytes := by
  obtain ⟨registry, hregistry, rfl⟩ := Option.map_eq_some_iff.1 hbag
  rw [Multiset.coe_card, ← h.capacity_eq registry hregistry]
  exact registry.length_recorded_le

theorem Sized.ofStorage {bytes : UInt64} {ledger : PageLedger} (h : ledger.Sized bytes)
    (range : PageRange) :
    { ledger with registry := some (.ofStorage range ledger.registryBytes) }.Sized bytes := by
  refine ⟨h.registryBytes_eq, ?_⟩
  intro registry hregistry
  obtain rfl := Option.some.inj hregistry
  rw [Registry.capacity_ofStorage, UInt64.toNat_div, h.registryBytes_eq]
  rfl

section Ways

variable {ledger : PageLedger} {range : PageRange} {address pages base bytes : UInt64}
  {cause : MemoryError} {calls : List Exchange}

/-- All requests for a placed grant, and all returns in between, are for its pages. -/
theorem Obtains.isFor {result : Except MemoryError UInt64}
    (h : ledger.Obtains address pages calls result) : ∀ call ∈ calls, call.IsFor pages := by
  cases h with
  | tooHigh => simp
  | refused => simp [Exchange.IsFor]
  | granted => simp [Exchange.IsFor]
  | pageZero _ _ h =>
      cases h with
      | refused => simp [Exchange.IsFor]
      | granted => simp [Exchange.IsFor]
      | zeroAgain => simp [Exchange.IsFor]

/-- A placed grant is what the last request brought, never at address zero, and it is not
returned. -/
theorem Obtains.gains (h : ledger.Obtains address pages calls (.ok base)) :
    (Operation.allocate address pages).Gains calls { base, pages } ∧
      calls.countP (·.isReturnOf { base, pages }) = 0 := by
  have hcalls := h.isFor
  cases h with
  | granted hreply hbase =>
      exact ⟨.allocate hcalls (lastGrant?_singleton _ _ _ hreply) hbase, rfl⟩
  | pageZero _ _ h =>
      cases h with
      | @granted reply status hreply hbase =>
          refine ⟨.allocate hcalls (if_pos hreply) hbase, ?_⟩
          have hother : ({ base := 0, pages } == ({ base := reply.address, pages } : PageRange))
              = false := by
            rw [beq_eq_false_iff_ne]
            intro heq
            exact hbase (congrArg PageRange.base heq).symm
          simp [Exchange.isReturnOf, hother]

/-- A placed request that fails has brought nothing, or pages at address zero. -/
theorem Obtains.misses (h : ledger.Obtains address pages calls (.error cause)) :
    (Operation.allocate address pages).Misses calls ∧ cause ≠ .tooManyAllocations := by
  have hcalls := h.isFor
  cases h with
  | tooHigh => exact ⟨.allocate hcalls nofun, nofun⟩
  | refused hreply =>
      refine ⟨.allocate hcalls fun range hgrant => ?_, nofun⟩
      cases (if_neg hreply).symm.trans hgrant
  | pageZero _ _ h =>
      cases h with
      | refused hreply =>
          refine ⟨.allocate hcalls fun range hgrant => ?_, nofun⟩
          cases (if_neg hreply).symm.trans hgrant
      | zeroAgain hreply hbase =>
          refine ⟨.allocate hcalls fun range hgrant => ?_, nofun⟩
          cases (if_pos hreply).symm.trans hgrant
          exact hbase

/-- A request without an address is at or below every ceiling, so only the firmware can make
it fail. -/
theorem Obtains.eq_firmware (h : ledger.Obtains 0 pages calls (.error cause)) :
    ∃ status, cause = .firmware status := by
  cases h with
  | tooHigh habove => exact (UInt64.not_lt_zero habove).elim
  | refused => exact ⟨_, rfl⟩
  | pageZero _ _ h =>
      cases h with
      | refused => exact ⟨_, rfl⟩
      | zeroAgain => exact ⟨_, rfl⟩

/-- A range that an allocation has gained enters the bag, or it is returned once. -/
theorem Records.bag_step {operation : Operation} {rest : List Exchange}
    {outcome : PageLedger × Except MemoryError UInt64} (hsized : ledger.Sized bytes)
    (h : ledger.Records range rest outcome) (hgains : operation.Gains calls range)
    (hkept : calls.countP (·.isReturnOf range) = 0) :
    Bag.Step bytes ledger.bag? operation (calls ++ rest) (.address outcome.2)
        outcome.1.bag? ∧ outcome.1.Sized bytes := by
  cases h with
  | unrecorded hnone =>
      rw [List.append_nil, bag?_of_none hnone]
      exact ⟨.unrecorded hgains hkept, hsized⟩
  | @stored registry stored hregistry hstored =>
      have hroom := Registry.length_recorded_lt_of_store? hstored
      have hranges : (stored.recorded : Multiset PageRange) = range ::ₘ registry.recorded :=
        Multiset.coe_eq_coe.2 (Registry.recorded_store? hstored)
      have hcapacity := hsized.capacity_eq registry hregistry
      rw [List.append_nil, bag?_of_some hregistry, bag?_of_some rfl, hranges,
        Registry.range_store? hstored]
      refine ⟨.added hgains hkept (hcapacity ▸ hroom), hsized.registryBytes_eq, ?_⟩
      intro other hother
      obtain rfl := Option.some.inj hother
      rw [Registry.capacity_store? hstored, hcapacity]
  | @full registry status hregistry hfull =>
      have hlength := Registry.length_recorded_of_store?_eq_none hfull
      have hreturned := countP_isReturnOf_append hkept status
      rw [bag?_of_some hregistry]
      refine ⟨.full (hgains.append_freePages status) hreturned ?_, hsized⟩
      rw [Multiset.coe_card, hlength, hsized.capacity_eq registry hregistry]

/-- Dropping the record of a base takes one range with that base out of the bag. -/
theorem bag_step_forget (range : PageRange) :
    Bag.Step bytes ledger.bag? (.free range) [.freePages range .success] (.outcome (.ok ()))
      (ledger.forget range.base).bag? := by
  cases hregistry : ledger.registry with
  | none =>
      have hforgotten : (ledger.forget range.base).registry = none := by
        rw [forget, hregistry, Option.map_none]
      rw [bag?_of_none hregistry, bag?_of_none hforgotten]
      exact .freedUnrecorded
  | some registry =>
      have hforgotten :
          (ledger.forget range.base).registry = some (registry.forget range.base) := by
        rw [forget, hregistry, Option.map_some]
      rw [bag?_of_some hregistry, bag?_of_some hforgotten, Registry.range_forget]
      rcases registry.forget_cases range.base with ⟨hother, hsame⟩ | ⟨hhome, removed, hbase, hperm⟩
      · rw [hsame]
        refine .freedOther (hother.imp id ?_)
        intro hbase held hmem heq
        exact hbase (heq ▸ List.mem_map_of_mem (Multiset.mem_coe.1 hmem))
      · have hranges : (registry.recorded : Multiset PageRange) =
            removed ::ₘ (registry.forget range.base).recorded := Multiset.coe_eq_coe.2 hperm
        rw [hranges]
        exact .removed hhome hbase

/-- An operation of a ledger follows the rules of the bag. -/
theorem Takes.bag_step {operation : Operation} {outcome : PageLedger × Answer}
    (hsized : ledger.Sized bytes) (h : ledger.Takes operation calls outcome) :
    Bag.Step bytes ledger.bag? operation calls outcome.2 outcome.1.bag? ∧
      outcome.1.Sized bytes := by
  cases h with
  | init h =>
      cases h with
      | already hregistry =>
          rw [bag?_of_some hregistry]
          exact ⟨.alreadyOpen, hsized⟩
      | failed hnone hobtains =>
          obtain ⟨status, rfl⟩ := hobtains.eq_firmware
          rw [hsized.registryBytes_eq] at hobtains
          rw [bag?_of_none hnone]
          exact ⟨.notOpened hobtains.misses.1, hsized⟩
      | @unreachable calls base status hnone hobtains =>
          rw [hsized.registryBytes_eq] at hobtains ⊢
          obtain ⟨hgains, hkept⟩ := hobtains.gains
          have hreturned := countP_isReturnOf_append hkept status
          rw [bag?_of_none hnone]
          exact ⟨.unreachable (hgains.append_freePages status) hreturned, hsized⟩
      | ready hnone hobtains =>
          rw [hsized.registryBytes_eq] at hobtains
          obtain ⟨hgains, hkept⟩ := hobtains.gains
          rw [bag?_of_none hnone, bag?_of_some rfl, Registry.recorded_ofStorage]
          refine ⟨?_, hsized.ofStorage _⟩
          rw [hsized.registryBytes_eq]
          exact .opened hgains hkept
  | allocate h =>
      cases h with
      | failed hobtains =>
          obtain ⟨hmisses, hcause⟩ := hobtains.misses
          exact ⟨.notGained hmisses hcause, hsized⟩
      | obtained hobtains hrecords =>
          obtain ⟨hgains, hkept⟩ := hobtains.gains
          exact hrecords.bag_step hsized hgains hkept
  | @allocateAnywhere pages _ _ _ h =>
      cases h with
      | refused hreply =>
          refine ⟨.notGained (.allocateAnywhere ?_ (if_neg hreply)) nofun, hsized⟩
          exact List.forall_mem_singleton.2 rfl
      | granted hreply hrecords =>
          have hgrant := lastGrant?_singleton .anywhere ledger.memoryType pages hreply
          refine hrecords.bag_step hsized (.allocateAnywhere ?_ hgrant) rfl
          exact List.forall_mem_singleton.2 rfl
  | free h =>
      cases h with
      | refused hstatus => exact ⟨.notFreed hstatus, hsized⟩
      | released =>
          refine ⟨bag_step_forget _, hsized.registryBytes_eq, ?_⟩
          intro forgotten hforgotten
          obtain ⟨registry, hregistry, rfl⟩ := Option.map_eq_some_iff.1 hforgotten
          rw [Registry.capacity_forget, hsized.capacity_eq registry hregistry]
  | teardown h =>
      cases h with
      | idle hnone =>
          rw [bag?_of_none hnone]
          exact ⟨.alreadyClosed, hsized⟩
      | closed hregistry hreturns =>
          rw [bag?_of_some hregistry]
          exact ⟨.closed rfl hreturns, hsized.registryBytes_eq, nofun⟩

end Ways

/-! ## Sequences of operations -/

variable {σ : Type} {services : Services σ}

theorem conducts_bag_runAll {firmware : σ} {ledger : PageLedger} {bytes : UInt64}
    (hsized : ledger.Sized bytes) (operations : List Operation) :
    services.Conducts (runAll services ledger operations) firmware fun calls outcome =>
      Bag.Run bytes ledger.bag? operations calls outcome.2 outcome.1.bag? ∧
        outcome.1.Sized bytes := by
  induction operations generalizing ledger firmware with
  | nil => exact .pure ⟨.nil, hsized⟩
  | cons operation rest ih =>
      refine (conducts_step operation).bind ?_
      rintro calls ⟨stepped, answer⟩ after htakes
      obtain ⟨hstep, hstepped⟩ := htakes.bag_step hsized
      exact (ih hstepped).bind_pure fun _ _ h => ⟨_, rfl, .cons hstep h.1, h.2⟩

/-- On any firmware, the slots of a ledger stand for a bag that starts with no registry and
takes one step with each operation; all replies are the firmware's own.  The bag never outgrows
its storage, and an allocation is refused for too many ranges exactly when it gained its pages
while the bag was full. -/
theorem bag_runAll (services : Services σ) (limits : Limits) (operations : List Operation)
    (start : σ) :
    let run := (runAll services (ofLimits limits) operations).run start
    services.Dialogue start run.exchanges run.firmware ∧
      Bag.Run limits.registryBytes none operations run.exchanges run.value.2 run.value.1.bag? ∧
      (∀ bag, run.value.1.bag? = some bag →
        bag.ranges.card ≤ limits.registryBytes.toNat / 24) ∧
      ∀ operation, let next := (step services run.value.1 operation).run run.firmware
        services.Dialogue run.firmware next.exchanges next.firmware ∧
          (next.value.2 = .address (.error .tooManyAllocations) ↔
            ∃ bag range, run.value.1.bag? = some bag ∧
              operation.Gains next.exchanges range ∧
              bag.ranges.card = limits.registryBytes.toNat / 24) := by
  intro run
  have hconducts : services.Conducts (runAll services (ofLimits limits) operations) start _ :=
    conducts_bag_runAll (sized_ofLimits limits) operations
  obtain ⟨hrun, hsized⟩ := hconducts.ends
  refine ⟨hconducts.dialogue, hrun, fun bag => hsized.card_le, ?_⟩
  intro operation next
  have htakes : services.Conducts (step services run.value.1 operation) run.firmware _ :=
    conducts_step operation
  have hstep := (htakes.ends.bag_step hsized).1
  exact ⟨htakes.dialogue, hstep.tooManyAllocations_iff fun bag => hsized.card_le⟩

/-- In storage of 48 bytes, a bag is opened and filled with two ranges.  A third one is gained
and returned, and the allocation is refused. -/
theorem bag_runAll_full :
    let limits : Limits := { registryBytes := 48 }
    let operations : List Operation := [.init, .allocate 0 3, .allocateAnywhere 2]
    let run := (runAll Arena.services (ofLimits limits) operations).run {}
    let ranges : List PageRange :=
      [{ base := 0x101000, pages := 3 }, { base := 0x104000, pages := 2 }]
    let bag : Bag := { home := { base := 0x100000, pages := 1 }, ranges }
    let next := (step Arena.services run.value.1 (.allocate 0 1)).run run.firmware
    Bag.Run limits.registryBytes none operations run.exchanges run.value.2 (some bag) ∧
      bag.ranges.card = limits.registryBytes.toNat / 24 ∧
      next.exchanges =
        [.allocatePages (.atMost limits.ceiling) limits.memoryType 1
            { status := .success, address := 0x106000 },
          .freePages { base := 0x106000, pages := 1 } .success] ∧
      next.value.2 = .address (.error .tooManyAllocations) := by
  intro limits operations
  -- evaluated once: what the slots hold, and what a third allocation asks
  have hvalue :
      let run := (runAll Arena.services (ofLimits limits) operations).run {}
      let next := (step Arena.services run.value.1 (.allocate 0 1)).run run.firmware
      run.value.1.registry = some
          { range := { base := 0x100000, pages := 1 }
            slots := [.occupied { base := 0x101000, pages := 3 },
              .occupied { base := 0x104000, pages := 2 }] } ∧
        next.exchanges =
          [.allocatePages (.atMost limits.ceiling) limits.memoryType 1
              { status := .success, address := 0x106000 },
            .freePages { base := 0x106000, pages := 1 } .success] := by
    decide +kernel
  have hruns := bag_runAll Arena.services limits operations {}
  dsimp only at hvalue hruns ⊢
  -- from here on it does not matter how the run goes
  generalize (runAll Arena.services (ofLimits limits) operations).run {} = run at hvalue hruns ⊢
  obtain ⟨hregistry, hcalls⟩ := hvalue
  obtain ⟨_, hrun, _, hnext⟩ := hruns
  obtain ⟨_, hrefused⟩ := hnext (.allocate 0 1)
  have hbag := bag?_of_some hregistry
  rw [hbag] at hrun
  have hgains : (Operation.allocate 0 1).Gains
      ((step Arena.services run.value.1 (.allocate 0 1)).run run.firmware).exchanges
      { base := 0x106000, pages := 1 } := by
    rw [hcalls]
    exact .allocate (by simp [Exchange.IsFor]) rfl (by decide)
  exact ⟨hrun, by decide, hcalls, hrefused.2 ⟨_, _, hbag, hgains, by decide⟩⟩

end PageLedger

end BootMemory
