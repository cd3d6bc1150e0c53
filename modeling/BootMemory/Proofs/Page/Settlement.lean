import BootMemory.Proofs.Firmware.Books
import BootMemory.Proofs.Page.Custody
import BootMemory.Proofs.Page.Requests

/-!
# What operations leave behind

On the books of a firmware that keeps accounts, what a ledger asks for and does not hand on
is gone again when the operation is over.  Each return that the ledger makes on its own names
a range whose base no other live range has, so none is refused.

Main results:

- Definition {lit}`Settled`: requests that leave some new live ranges behind and nothing else.
- Theorems {lit}`PageLedger.Allocates.settled`, {lit}`PageLedger.AllocatesAnywhere.settled` and
  {lit}`PageLedger.Opens.settled`: allocations leave what they answer, and the opening of a
  registry leaves its pages.
- Theorem {lit}`PageLedger.Closes.returns`: what a teardown returns, and the ledger after it.
- Theorem {lit}`PageLedger.Returns.settled`: returns of held ranges leave the others.
-/

open scoped List

namespace BootMemory

/-- Requests of which no return is refused and which leave some ranges behind, with bases that
were not live before.  The books go on with all of them. -/
structure Settled (names : PageRange → PageRange → Prop) (live : List PageRange)
    (calls : List Exchange) (gained : List PageRange) (rest : List Exchange)
    (after : List PageRange) : Prop where
  unrefused : Unrefused calls
  fresh : ∀ range ∈ gained, range.base ∉ live.map PageRange.base
  books : Books names (gained ++ live) rest after

namespace PageLedger

variable {names : PageRange → PageRange → Prop} {live after : List PageRange}
  {calls rest : List Exchange} {ledger : PageLedger} {address pages : UInt64}
  {range home : PageRange}

/-! ## Grants -/

/-- After a grant at address zero, only the second grant is left. -/
theorem RetriesPastPageZero.settled (hnames : NamesByBase names)
    {result : Except MemoryError UInt64} (h : ledger.RetriesPastPageZero pages calls result)
    (hzero : 0 ∉ live.map PageRange.base)
    (hbooks : Books names ({ base := 0, pages } :: live) (calls ++ rest) after) :
    Settled names live calls (newRanges pages result) rest after := by
  cases h with
  | refused hreply =>
      have hrefused := (Books.allocatePages_of_ne_success hreply).1 hbooks
      obtain ⟨hstatus, hrest⟩ := Books.returned hnames hzero hrefused
      exact ⟨.cons_of_ne (unrefused_freePages_singleton hstatus) nofun, nofun, hrest⟩
  | @granted reply _ hreply hbase =>
      obtain ⟨hfresh, hgranted⟩ := (Books.allocatePages_of_success hreply).1 hbooks
      rw [List.map_cons, List.mem_cons, not_or] at hfresh
      -- the first grant is returned from under the second one
      have hsole : 0 ∉ ({ base := reply.address, pages } :: live).map PageRange.base := by
        rw [List.map_cons, List.mem_cons, not_or]
        exact ⟨Ne.symm hbase, hzero⟩
      obtain ⟨hstatus, hrest⟩ := Books.returned hnames hsole (hgranted.of_perm (.swap _ _ _))
      refine ⟨.cons_of_ne (unrefused_freePages_singleton hstatus) nofun, ?_, hrest⟩
      intro range hmem
      obtain rfl := List.mem_singleton.1 hmem
      exact hfresh.2
  | zeroAgain hreply hbase =>
      -- the first grant is still live, so a second one has another address
      obtain ⟨hfresh, _⟩ := (Books.allocatePages_of_success hreply).1 hbooks
      rw [hbase] at hfresh
      exact (hfresh List.mem_cons_self).elim

/-- A placed request leaves what it answers. -/
theorem Obtains.settled (hnames : NamesByBase names) {result : Except MemoryError UInt64}
    (h : ledger.Obtains address pages calls result)
    (hbooks : Books names live (calls ++ rest) after) :
    Settled names live calls (newRanges pages result) rest after := by
  cases h with
  | tooHigh => exact ⟨unrefused_nil, nofun, hbooks⟩
  | refused hreply =>
      exact ⟨unrefused_nil.cons_of_ne nofun, nofun,
        (Books.allocatePages_of_ne_success hreply).1 hbooks⟩
  | granted hreply _ =>
      obtain ⟨hfresh, hgranted⟩ := (Books.allocatePages_of_success hreply).1 hbooks
      refine ⟨unrefused_nil.cons_of_ne nofun, ?_, hgranted⟩
      intro range hmem
      obtain rfl := List.mem_singleton.1 hmem
      exact hfresh
  | pageZero hreply hbase h =>
      obtain ⟨hfresh, hgranted⟩ := (Books.allocatePages_of_success hreply).1 hbooks
      rw [hbase] at hfresh hgranted
      have hsettled := h.settled hnames hfresh hgranted
      exact ⟨hsettled.unrefused.cons_of_ne nofun, hsettled.fresh, hsettled.books⟩

/-- A new range is left when it is recorded, and returned otherwise. -/
theorem Records.settled (hnames : NamesByBase names)
    {outcome : PageLedger × Except MemoryError UInt64} (h : ledger.Records range calls outcome)
    (hfresh : range.base ∉ live.map PageRange.base)
    (hbooks : Books names (range :: live) (calls ++ rest) after) :
    Settled names live calls (newRanges range.pages outcome.2) rest after := by
  have hleft : ∀ held ∈ [range], held.base ∉ live.map PageRange.base := by
    intro held hmem
    obtain rfl := List.mem_singleton.1 hmem
    exact hfresh
  cases h with
  | unrecorded => exact ⟨unrefused_nil, hleft, hbooks⟩
  | stored => exact ⟨unrefused_nil, hleft, hbooks⟩
  | full =>
      obtain ⟨hstatus, hrest⟩ := Books.returned hnames hfresh hbooks
      exact ⟨unrefused_freePages_singleton hstatus, nofun, hrest⟩

/-- A placed allocation leaves what it answers. -/
theorem Allocates.settled (hnames : NamesByBase names)
    {outcome : PageLedger × Except MemoryError UInt64}
    (h : ledger.Allocates address pages calls outcome)
    (hbooks : Books names live (calls ++ rest) after) :
    Settled names live calls (newRanges pages outcome.2) rest after := by
  cases h with
  | failed h => exact h.settled hnames hbooks
  | obtained h hrecords =>
      rw [List.append_assoc] at hbooks
      have hgained := h.settled hnames hbooks
      have hsettled := hrecords.settled hnames (hgained.fresh _ List.mem_cons_self) hgained.books
      exact ⟨unrefused_append.2 ⟨hgained.unrefused, hsettled.unrefused⟩, hsettled.fresh,
        hsettled.books⟩

/-- So does an allocation anywhere in memory. -/
theorem AllocatesAnywhere.settled (hnames : NamesByBase names)
    {outcome : PageLedger × Except MemoryError UInt64}
    (h : ledger.AllocatesAnywhere pages calls outcome)
    (hbooks : Books names live (calls ++ rest) after) :
    Settled names live calls (newRanges pages outcome.2) rest after := by
  cases h with
  | refused hreply =>
      exact ⟨unrefused_nil.cons_of_ne nofun, nofun,
        (Books.allocatePages_of_ne_success hreply).1 hbooks⟩
  | granted hreply hrecords =>
      obtain ⟨hfresh, hgranted⟩ := (Books.allocatePages_of_success hreply).1 hbooks
      have hsettled := hrecords.settled hnames hfresh hgranted
      exact ⟨hsettled.unrefused.cons_of_ne nofun, hsettled.fresh, hsettled.books⟩

/-! ## The registry -/

theorem registryRange?_of_none (hnone : ledger.registry = none) : ledger.registryRange? = none := by
  rw [registryRange?, hnone, Option.map_none]

theorem forget_of_none (hnone : ledger.registry = none) (base : UInt64) :
    ledger.forget base = ledger := by
  rw [forget, hnone, Option.map_none, ← hnone]

/-- The opening of a registry leaves its pages, and nothing when it fails. -/
theorem Opens.settled (hnames : NamesByBase names)
    {outcome : PageLedger × Except MemoryError Unit} (hnone : ledger.registry = none)
    (h : ledger.Opens calls outcome) (hbooks : Books names live (calls ++ rest) after) :
    Settled names live calls outcome.1.registryRange?.toList rest after := by
  cases h with
  | already hregistry =>
      rw [hnone] at hregistry
      cases hregistry
  | failed _ h =>
      rw [registryRange?_of_none hnone]
      exact h.settled hnames hbooks
  | unreachable _ h =>
      rw [List.append_assoc] at hbooks
      have hgained := h.settled hnames hbooks
      obtain ⟨hstatus, hrest⟩ :=
        Books.returned hnames (hgained.fresh _ List.mem_cons_self) hgained.books
      rw [registryRange?_of_none hnone]
      exact ⟨unrefused_append.2 ⟨hgained.unrefused,
        unrefused_freePages_singleton hstatus⟩, nofun, hrest⟩
  | ready _ h => exact h.settled hnames hbooks

/-- The opening of a registry finds none, and nothing is recorded then. -/
theorem Opens.recorded_eq_nil {outcome : PageLedger × Except MemoryError Unit}
    (hnone : ledger.registry = none) (h : ledger.Opens calls outcome) :
    outcome.1.recorded = [] := by
  have hnothing : ledger.recorded = [] := by rw [recorded, hnone]
  cases h with
  | already => exact hnothing
  | failed => exact hnothing
  | unreachable => exact hnothing
  | ready => exact Registry.recorded_ofStorage _ _

theorem registryRange?_forget (ledger : PageLedger) (base : UInt64) :
    (ledger.forget base).registryRange? = ledger.registryRange? := by
  rw [registryRange?, registryRange?, forget, Option.map_map]
  exact congrArg (ledger.registry.map ·) (funext fun registry => registry.range_forget base)

theorem Records.registryRange?_eq {outcome : PageLedger × Except MemoryError UInt64}
    (h : ledger.Records range calls outcome) :
    outcome.1.registryRange? = ledger.registryRange? := by
  cases h with
  | unrecorded => rfl
  | stored hregistry hstored =>
      rw [registryRange?, registryRange?, hregistry]
      exact congrArg some (Registry.range_store? hstored)
  | full => rfl

theorem Allocates.registryRange?_eq {outcome : PageLedger × Except MemoryError UInt64}
    (h : ledger.Allocates address pages calls outcome) :
    outcome.1.registryRange? = ledger.registryRange? := by
  cases h with
  | failed => rfl
  | obtained _ hrecords => exact hrecords.registryRange?_eq

theorem AllocatesAnywhere.registryRange?_eq
    {outcome : PageLedger × Except MemoryError UInt64}
    (h : ledger.AllocatesAnywhere pages calls outcome) :
    outcome.1.registryRange? = ledger.registryRange? := by
  cases h with
  | refused => rfl
  | granted _ hrecords => exact hrecords.registryRange?_eq

theorem Frees.registryRange?_eq {outcome : PageLedger × Except MemoryError Unit}
    (h : ledger.Frees range calls outcome) :
    outcome.1.registryRange? = ledger.registryRange? := by
  cases h with
  | refused => rfl
  | released => exact registryRange?_forget ledger range.base

/-- After an operation, the registry is where it was before, or the operation has obtained the
pages for it. -/
theorem Takes.registryRange?_cases {operation : Operation} {outcome : PageLedger × Answer}
    (h : ledger.Takes operation calls outcome) (hready : outcome.1.registryRange? = some home) :
    ledger.registryRange? = some home ∨
      home.pages = storagePages ledger.registryBytes ∧
        ledger.Obtains 0 home.pages calls (.ok home.base) := by
  cases h with
  | init h =>
      cases h with
      | already => exact .inl hready
      | failed => exact .inl hready
      | unreachable => exact .inl hready
      | ready _ hobtains =>
          obtain rfl := Option.some.inj hready
          exact .inr ⟨rfl, hobtains⟩
  | allocate h => exact .inl (h.registryRange?_eq.symm.trans hready)
  | allocateAnywhere h => exact .inl (h.registryRange?_eq.symm.trans hready)
  | free h => exact .inl (h.registryRange?_eq.symm.trans hready)
  | teardown h =>
      cases h with
      | idle => exact .inl hready
      | closed => cases hready

/-! ## Failures -/

section Failures

variable {failed : PageLedger} {cause : MemoryError}

theorem Records.eq_of_error (h : ledger.Records range calls (failed, .error cause)) :
    failed = ledger := by
  cases h with
  | full => rfl

theorem Allocates.eq_of_error
    (h : ledger.Allocates address pages calls (failed, .error cause)) : failed = ledger := by
  cases h with
  | failed => rfl
  | obtained _ hrecords => exact hrecords.eq_of_error

theorem AllocatesAnywhere.eq_of_error
    (h : ledger.AllocatesAnywhere pages calls (failed, .error cause)) : failed = ledger := by
  cases h with
  | refused => rfl
  | granted _ hrecords => exact hrecords.eq_of_error

/-- The opening of a registry fails only where there is none. -/
theorem Opens.of_error (h : ledger.Opens calls (failed, .error cause)) :
    ledger.registry = none ∧ failed = ledger := by
  cases h with
  | failed hnone => exact ⟨hnone, rfl⟩
  | unreachable hnone => exact ⟨hnone, rfl⟩

end Failures

/-! ## The records -/

/-- With a registry, the answered range is recorded. -/
theorem Records.recorded_perm {outcome : PageLedger × Except MemoryError UInt64}
    (h : ledger.Records range calls outcome) (hready : ledger.registryRange? = some home) :
    outcome.1.recorded ~ newRanges range.pages outcome.2 ++ ledger.recorded := by
  cases h with
  | unrecorded hnone =>
      rw [registryRange?_of_none hnone] at hready
      cases hready
  | stored hregistry hstored =>
      rw [recorded, recorded, hregistry]
      exact Registry.recorded_store? hstored
  | full => exact .refl _

theorem Allocates.recorded_perm {outcome : PageLedger × Except MemoryError UInt64}
    (h : ledger.Allocates address pages calls outcome)
    (hready : ledger.registryRange? = some home) :
    outcome.1.recorded ~ newRanges pages outcome.2 ++ ledger.recorded := by
  cases h with
  | failed => exact .refl _
  | obtained _ hrecords => exact hrecords.recorded_perm hready

theorem AllocatesAnywhere.recorded_perm {outcome : PageLedger × Except MemoryError UInt64}
    (h : ledger.AllocatesAnywhere pages calls outcome)
    (hready : ledger.registryRange? = some home) :
    outcome.1.recorded ~ newRanges pages outcome.2 ++ ledger.recorded := by
  cases h with
  | refused => exact .refl _
  | granted _ hrecords => exact hrecords.recorded_perm hready

/-! ## Returns -/

/-- A teardown returns the records in the order of their slots, and then the registry, if there
is one.  It leaves none. -/
theorem Closes.returns {closed : PageLedger} (h : ledger.Closes calls closed) :
    Returns (ledger.recorded ++ ledger.registryRange?.toList) calls ∧
      closed = { ledger with registry := none } := by
  cases h with
  | idle hnone =>
      rw [registryRange?_of_none hnone, recorded, hnone]
      refine ⟨.nil, ?_⟩
      rw [← hnone]
  | closed hregistry hreturns =>
      rw [registryRange?, recorded, hregistry]
      exact ⟨hreturns, rfl⟩

/-- Live ranges with bases of their own can all be returned, and the others are left. -/
theorem Returns.settled (hnames : NamesByBase names) {ranges others : List PageRange}
    (h : Returns ranges calls) (hnodup : (ranges.map PageRange.base).Nodup)
    (hapart : ∀ range ∈ ranges, range.base ∉ others.map PageRange.base)
    (hbooks : Books names (ranges ++ others) (calls ++ rest) after) :
    calls = ranges.map (fun range => .freePages range .success) ∧
      Books names others rest after := by
  induction h with
  | nil => exact ⟨rfl, hbooks⟩
  | @cons range call ranges calls hcall _ ih =>
      obtain ⟨status, rfl⟩ := hcall
      rw [List.map_cons, List.nodup_cons] at hnodup
      rw [List.forall_mem_cons] at hapart
      have hsole : range.base ∉ (ranges ++ others).map PageRange.base := by
        rw [List.map_append, List.mem_append, not_or]
        exact ⟨hnodup.1, hapart.1⟩
      obtain ⟨rfl, hrest⟩ := Books.returned hnames hsole hbooks
      obtain ⟨rfl, hothers⟩ := ih hnodup.2 hapart.2 hrest
      exact ⟨rfl, hothers⟩

end PageLedger

end BootMemory
