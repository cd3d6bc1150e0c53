import BootMemory.Proofs.Page.Bag
import BootMemory.Proofs.Page.Settlement

/-!
# Past page zero

Address zero stands for no memory, so a call that places its pages itself never ends with a
grant there.  It holds such a grant only while it asks once more, and returns what it was
granted at address zero before it ends, as often as it was granted.  All this holds on any
firmware, whether or not the second request and the returns are refused.

Main results:

- Definition {lit}`PageLedger.PassesPageZero`: what the requests of such a call look like.
- Theorem {lit}`PageLedger.Obtains.passesPageZero`: the requests of a placed grant are like that,
  and its address is not zero.
- Theorem {lit}`PageLedger.Takes.home_base_ne_zero`: no operation opens a registry at address
  zero.
- Theorem {lit}`PageLedger.never_pageZero`: neither allocations nor registries are at address
  zero.
-/

namespace BootMemory

/-- Whether a request was granted at address zero. -/
def GrantReply.IsPageZero (reply : GrantReply) : Prop :=
  reply.status = .success ∧ reply.address = 0

instance GrantReply.decidableIsPageZero (reply : GrantReply) : Decidable reply.IsPageZero :=
  inferInstanceAs (Decidable (_ ∧ _))

/-- Whether an exchange is a grant at address zero. -/
def Exchange.isPageZeroGrant : Exchange → Bool
  | allocatePages _ _ _ reply => decide reply.IsPageZero
  | _ => false

/-- Whether an exchange is a return of pages. -/
def Exchange.IsReturn : Exchange → Prop
  | freePages _ _ => True
  | _ => False

namespace PageLedger

/-- The requests for some pages in one call.  There is a second one exactly after a grant at
address zero; it is for as many pages, anywhere up to the ceiling. -/
inductive Asks (ledger : PageLedger) (pages : UInt64) : List Exchange → Prop
  | nothing : Asks ledger pages []
  | once {placement : Placement} {reply : GrantReply} (hreply : ¬ reply.IsPageZero) :
      Asks ledger pages [.allocatePages placement ledger.memoryType pages reply]
  | twice {placement : Placement} {first second : GrantReply} (hfirst : first.IsPageZero) :
      Asks ledger pages
        [.allocatePages placement ledger.memoryType pages first,
          .allocatePages (.atMost ledger.ceiling) ledger.memoryType pages second]

/-- A call that asks first and returns pages afterwards, and that returns pages at address zero
as often as it was granted some. -/
structure PassesPageZero (ledger : PageLedger) (pages : UInt64) (calls : List Exchange) :
    Prop where
  asks : ∃ asked returned, calls = asked ++ returned ∧ ledger.Asks pages asked ∧
    ∀ call ∈ returned, call.IsReturn
  balanced : calls.countP (·.isReturnOf { base := 0, pages }) =
    calls.countP Exchange.isPageZeroGrant

section Ways

variable {ledger : PageLedger} {address pages : UInt64} {calls : List Exchange}
  {range : PageRange}

theorem not_isPageZero_of_status {reply : GrantReply} (h : reply.status ≠ .success) :
    ¬ reply.IsPageZero := fun hzero => h hzero.1

theorem not_isPageZero_of_address {reply : GrantReply} (h : reply.address ≠ 0) :
    ¬ reply.IsPageZero := fun hzero => h hzero.2

/-- A call that asks once and returns nothing. -/
theorem PassesPageZero.once {placement : Placement} {reply : GrantReply}
    (h : ¬ reply.IsPageZero) :
    ledger.PassesPageZero pages
      [.allocatePages placement ledger.memoryType pages reply] := by
  refine ⟨⟨_, [], rfl, .once h, nofun⟩, ?_⟩
  simp [Exchange.isReturnOf, Exchange.isPageZeroGrant, h]

/-- After a grant at address zero, a second request and the returns of what both were granted
there. -/
theorem RetriesPastPageZero.passesPageZero {result : Except MemoryError UInt64}
    {placement : Placement} {first : GrantReply} (hfirst : first.IsPageZero)
    (h : ledger.RetriesPastPageZero pages calls result) :
    ledger.PassesPageZero pages
        (.allocatePages placement ledger.memoryType pages first :: calls) ∧
      result ≠ .ok 0 := by
  cases h with
  | @refused second status hreply =>
      refine ⟨⟨⟨_, [.freePages { base := 0, pages } status], rfl, .twice hfirst, ?_⟩, ?_⟩, by simp⟩
      · simp [Exchange.IsReturn]
      · simp [Exchange.isReturnOf, Exchange.isPageZeroGrant, hfirst,
          not_isPageZero_of_status hreply]
  | @granted second status hreply hbase =>
      refine ⟨⟨⟨_, [.freePages { base := 0, pages } status], rfl, .twice hfirst, ?_⟩, ?_⟩, ?_⟩
      · simp [Exchange.IsReturn]
      · simp [Exchange.isReturnOf, Exchange.isPageZeroGrant, hfirst,
          not_isPageZero_of_address hbase]
      · exact fun heq => hbase (Except.ok.inj heq)
  | @zeroAgain second status last hreply hbase =>
      have hsecond : second.IsPageZero := ⟨hreply, hbase⟩
      refine ⟨⟨⟨_, [.freePages { base := 0, pages } status, .freePages { base := 0, pages } last],
        rfl, .twice hfirst, ?_⟩, ?_⟩, by simp⟩
      · simp [Exchange.IsReturn]
      · simp [Exchange.isReturnOf, Exchange.isPageZeroGrant, hfirst, hsecond]

/-- A placed grant passes page zero, and it is elsewhere. -/
theorem Obtains.passesPageZero {result : Except MemoryError UInt64}
    (h : ledger.Obtains address pages calls result) :
    ledger.PassesPageZero pages calls ∧ result ≠ .ok 0 := by
  cases h with
  | tooHigh => exact ⟨⟨⟨[], [], rfl, .nothing, nofun⟩, rfl⟩, nofun⟩
  | refused hreply => exact ⟨.once (not_isPageZero_of_status hreply), nofun⟩
  | granted _ hbase =>
      exact ⟨.once (not_isPageZero_of_address hbase), fun heq => hbase (Except.ok.inj heq)⟩
  | pageZero hreply hbase h => exact h.passesPageZero ⟨hreply, hbase⟩

/-- What a call returns elsewhere in the end does not matter. -/
theorem PassesPageZero.append_freePages (h : ledger.PassesPageZero pages calls)
    (hbase : range.base ≠ 0) (status : Status) :
    ledger.PassesPageZero pages (calls ++ [.freePages range status]) := by
  refine ⟨?_, ?_⟩
  · obtain ⟨asked, returned, rfl, hasked, hreturned⟩ := h.asks
    refine ⟨asked, returned ++ [.freePages range status], List.append_assoc _ _ _, hasked, ?_⟩
    rw [List.forall_mem_append]
    exact ⟨hreturned, List.forall_mem_singleton.2 trivial⟩
  · have hother : (range == ({ base := 0, pages } : PageRange)) = false :=
      beq_eq_false_iff_ne.2 fun heq => hbase (congrArg PageRange.base heq)
    rw [List.countP_append, List.countP_append, h.balanced]
    simp [Exchange.isReturnOf, Exchange.isPageZeroGrant, hother]

/-- An allocation passes page zero, also when its range cannot be recorded. -/
theorem Allocates.passesPageZero {outcome : PageLedger × Except MemoryError UInt64}
    (h : ledger.Allocates address pages calls outcome) :
    ledger.PassesPageZero pages calls ∧ outcome.2 ≠ .ok 0 := by
  cases h with
  | failed h => exact ⟨h.passesPageZero.1, nofun⟩
  | @obtained calls rest base _ h hrecords =>
      obtain ⟨hpasses, hresult⟩ := h.passesPageZero
      cases hrecords with
      | unrecorded =>
          rw [List.append_nil]
          exact ⟨hpasses, hresult⟩
      | stored =>
          rw [List.append_nil]
          exact ⟨hpasses, hresult⟩
      | full => exact ⟨hpasses.append_freePages (fun hbase => hresult (congrArg _ hbase)) _, nofun⟩

/-- So does the opening of a registry, whose pages are elsewhere. -/
theorem Opens.passesPageZero {outcome : PageLedger × Except MemoryError Unit}
    (h : ledger.Opens calls outcome) :
    ledger.PassesPageZero (storagePages ledger.registryBytes) calls ∧
      (ledger.registry = none → outcome.2 = .ok () →
        ∃ home, outcome.1.registryRange? = some home ∧ home.base ≠ 0) := by
  cases h with
  | already hregistry =>
      refine ⟨⟨⟨[], [], rfl, .nothing, nofun⟩, rfl⟩, ?_⟩
      intro hnone
      cases hregistry.symm.trans hnone
  | failed _ h => exact ⟨h.passesPageZero.1, nofun⟩
  | unreachable _ h =>
      obtain ⟨hpasses, hresult⟩ := h.passesPageZero
      exact ⟨hpasses.append_freePages (fun hbase => hresult (congrArg _ hbase)) _, nofun⟩
  | ready _ h =>
      obtain ⟨hpasses, hresult⟩ := h.passesPageZero
      exact ⟨hpasses, fun _ _ => ⟨_, rfl, fun hbase => hresult (congrArg _ hbase)⟩⟩

/-! ## Registries -/

/-- No operation opens a registry at address zero. -/
theorem Takes.home_base_ne_zero {operation : Operation} {outcome : PageLedger × Answer}
    (h : ledger.Takes operation calls outcome)
    (hbefore : ∀ home, ledger.registryRange? = some home → home.base ≠ 0) :
    ∀ home, outcome.1.registryRange? = some home → home.base ≠ 0 := by
  intro home hready
  rcases h.registryRange?_cases hready with hsame | ⟨_, hobtains⟩
  · exact hbefore home hsame
  · exact fun hbase => hobtains.passesPageZero.2 (congrArg _ hbase)

end Ways

/-! ## Every call -/

section Operations

variable {σ : Type} {services : Services σ}

/-- Operations that start with no registry at address zero end with none there. -/
theorem home_base_ne_zero_runAll {ledger : PageLedger} {firmware : σ}
    (hbefore : ∀ home, ledger.registryRange? = some home → home.base ≠ 0)
    (operations : List Operation) :
    ∀ home, ((runAll services ledger operations).run firmware).value.1.registryRange? =
      some home → home.base ≠ 0 := by
  induction operations generalizing ledger firmware with
  | nil => exact hbefore
  | cons operation rest ih =>
      have hconducts : services.Conducts (step services ledger operation) firmware _ :=
        conducts_step operation
      exact ih (hconducts.ends.home_base_ne_zero hbefore)

/-- On any firmware, in any state of a ledger, an allocation does not answer address zero, a new
registry is not there either, and both calls return as many grants at address zero as they got.
All replies are the firmware's own.  No operations lead to a registry at address zero. -/
theorem never_pageZero (services : Services σ) (start : σ) :
    (∀ (ledger : PageLedger) (address pages : UInt64),
      let run := (allocate services ledger address pages).run start
      services.Dialogue start run.exchanges run.firmware ∧
        run.value.2 ≠ .ok 0 ∧ ledger.PassesPageZero pages run.exchanges) ∧
    (∀ ledger : PageLedger,
      let run := (init services ledger).run start
      services.Dialogue start run.exchanges run.firmware ∧
        ledger.PassesPageZero (storagePages ledger.registryBytes) run.exchanges ∧
        (ledger.registry = none → run.value.2 = .ok () →
          ∃ home, run.value.1.registryRange? = some home ∧ home.base ≠ 0)) ∧
    ∀ (limits : Limits) (operations : List Operation) (home : PageRange),
      ((runAll services (ofLimits limits) operations).run start).value.1.registryRange? =
        some home → home.base ≠ 0 := by
  refine ⟨?_, ?_, ?_⟩
  · intro ledger address pages run
    have hconducts : services.Conducts (allocate services ledger address pages) start _ :=
      conducts_allocate address pages
    exact ⟨hconducts.dialogue, hconducts.ends.passesPageZero.symm⟩
  · intro ledger run
    have hconducts : services.Conducts (init services ledger) start _ := conducts_init
    exact ⟨hconducts.dialogue, hconducts.ends.passesPageZero⟩
  · intro limits operations
    have hstart : ∀ home, (ofLimits limits).registryRange? = some home → home.base ≠ 0 := nofun
    exact home_base_ne_zero_runAll hstart operations

end Operations

end PageLedger

end BootMemory
