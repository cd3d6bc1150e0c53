import BootMemory.Machine
import BootMemory.Proofs.Firmware.CheckedArena
import BootMemory.Proofs.Page.Custody

/-!
# Conservation of pages

On a well-behaved firmware no page range is lost.  Whatever a manager does between its
creation and its end, the live ranges are its registry, its records and those ranges of
others that nobody freed through it; after its end only the last part is left.

Main results:

- Theorem {lit}`PageLedger.ensures_obtainMap`: a rebuild of the map leaves no buffer
  behind, however many attempts it takes and however they end.
- Theorem {lit}`Manager.ensures_runAll`: a run of operations keeps the custody.
- Theorem {lit}`Manager.live_of_runAll`: the same for a whole life of a manager.
-/

namespace BootMemory

open Boot (Ensures)

/-! ## Rebuilding the map -/

namespace PageLedger

variable {σ : Type} {services : Services σ} {live : σ → List PageRange}
  {names : PageRange → PageRange → Prop} {kept : List PageRange} {firmware : σ}
  {ledger : PageLedger} {registryRange : PageRange}

/-- What a query amounts to does not involve the firmware. -/
theorem ensures_readMap (fetched : Except MemoryError MapOutcome) (buffer : List UInt8) :
    Ensures Event.IsUnrefused (readMap fetched buffer) firmware
      fun _ after => after = firmware := by
  unfold readMap
  cases fetched with
  | error cause => exact Ensures.pure rfl
  | ok outcome =>
      cases outcome with
      | insufficient layout => exact Ensures.pure rfl
      | complete layout =>
          dsimp only
          cases E820.LegacyMap.ofMemoryMap (buffer.take layout.mapSize.toNat) layout.stride with
          | error cause => exact Ensures.pure rfl
          | ok map => exact Ensures.notes_bind (fun _ => trivial) (Ensures.pure rfl)

/-- The buffer of an attempt does not outlive it. -/
theorem ensures_attemptMap (h : services.Accounts live names)
    (hledger : ledger.AnswersFor registryRange (live firmware) kept) (bytes : UInt64) :
    Ensures Event.IsUnrefused (attemptMap services ledger bytes) firmware
      fun outcome after => outcome.1.AnswersFor registryRange (live after) kept := by
  refine (ensures_allocate h hledger 0 (storagePages bytes)).bind ?_
  rintro ⟨grown, result⟩ after ⟨hgrown, hrecorded⟩
  cases result with
  | error cause => exact Ensures.pure hgrown
  | ok base =>
      have hbuffer := hrecorded (List.mem_singleton_self _)
      refine (hgrown.custody.ensures_of_perm (List.Perm.refl _) (by simp)).bind ?_
      intro window shown hshown
      refine (h.ensures_fetchMap hshown window).bind ?_
      rintro ⟨fetched, buffer⟩ queried hqueried
      refine (ensures_readMap fetched buffer).bind ?_
      rintro outcome _ rfl
      refine (ensures_free_recorded h ⟨hgrown.registryRange?_eq, hqueried⟩ hbuffer).bind ?_
      rintro ⟨freed, _⟩ last ⟨rfl, hlast⟩
      exact Ensures.pure hlast

/-- However many attempts it takes to obtain a map, no buffer outlives them. -/
theorem ensures_obtainMap (h : services.Accounts live names)
    (hledger : ledger.AnswersFor registryRange (live firmware) kept) (left number : Nat)
    (bytes : UInt64) :
    Ensures Event.IsUnrefused (obtainMap services ledger left number bytes) firmware
      fun outcome after => outcome.1.AnswersFor registryRange (live after) kept := by
  induction left generalizing ledger firmware number bytes with
  | zero => exact Ensures.pure hledger
  | succ left ih =>
      refine (ensures_attemptMap h hledger bytes).bind ?_
      rintro ⟨tried, result⟩ after htried
      cases result with
      | error cause => exact Ensures.pure htried
      | ok attempt =>
          cases attempt with
          | converted map => exact Ensures.note_bind trivial (Ensures.pure htried)
          | short required =>
              exact Ensures.note_bind trivial (ih htried (number + 1) required)

end PageLedger

namespace Manager

/-! ## Operations of a manager -/

/-- The base that an operation freed, if it was a free that succeeded. -/
def freedBase? : Operation → Answer → Option UInt64
  | .free range, .outcome (.ok ()) => some range.base
  | _, _ => none

/-- The bases that the successful frees of a run named. -/
def freedBases : List Operation → List Answer → List UInt64
  | operation :: operations, answer :: answers =>
      (freedBase? operation answer).toList ++ freedBases operations answers
  | _, _ => []

/-- The ranges whose base is not among some bases. -/
def unfreed (bases : List UInt64) (ranges : List PageRange) : List PageRange :=
  ranges.filter fun range => range.base ∉ bases

theorem unfreed_nil (ranges : List PageRange) : unfreed [] ranges = ranges := by
  simp [unfreed]

theorem unfreed_singleton (base : UInt64) (ranges : List PageRange) :
    unfreed [base] ranges = withoutBase base ranges := by
  simp [unfreed, withoutBase]

theorem unfreed_append (first second : List UInt64) (ranges : List PageRange) :
    unfreed (first ++ second) ranges = unfreed second (unfreed first ranges) := by
  simp only [unfreed, List.filter_filter, List.mem_append, not_or]
  apply List.filter_congr
  intro range _
  rw [Bool.decide_and, Bool.and_comm]

section Operations

variable {σ : Type} {services : Services σ} {live : σ → List PageRange}
  {names : PageRange → PageRange → Prop} {kept : List PageRange} {firmware : σ}
  {manager : Manager} {registryRange : PageRange}

theorem ensures_refresh (h : services.Accounts live names)
    (hledger : manager.ledger.AnswersFor registryRange (live firmware) kept) :
    Ensures Event.IsUnrefused (refresh services manager) firmware
      fun outcome after => outcome.1.ledger.AnswersFor registryRange (live after) kept := by
  refine (PageLedger.ensures_obtainMap h hledger _ _ _).bind ?_
  rintro ⟨ledger, result⟩ after hafter
  cases result with
  | error cause => exact Ensures.pure hafter
  | ok map => exact Ensures.pure hafter

theorem ensures_allocate (h : services.Accounts live names)
    (hledger : manager.ledger.AnswersFor registryRange (live firmware) kept)
    (address pages : UInt64) :
    Ensures Event.IsUnrefused (allocate services manager address pages) firmware
      fun outcome after => outcome.1.ledger.AnswersFor registryRange (live after) kept ∧
        newRanges pages outcome.2 ⊆ outcome.1.ledger.recorded := by
  refine (PageLedger.ensures_allocate h hledger address pages).bind ?_
  rintro ⟨ledger, result⟩ after hafter
  exact Ensures.pure hafter

theorem ensures_allocateAnywhere (h : services.Accounts live names)
    (hledger : manager.ledger.AnswersFor registryRange (live firmware) kept) (pages : UInt64) :
    Ensures Event.IsUnrefused (allocateAnywhere services manager pages) firmware
      fun outcome after => outcome.1.ledger.AnswersFor registryRange (live after) kept ∧
        newRanges pages outcome.2 ⊆ outcome.1.ledger.recorded := by
  refine (PageLedger.ensures_allocateAnywhere h hledger pages).bind ?_
  rintro ⟨ledger, result⟩ after hafter
  exact Ensures.pure hafter

theorem ensures_free_any (h : services.Accounts live names)
    (hledger : manager.ledger.AnswersFor registryRange (live firmware) kept) {range : PageRange}
    (hother : registryRange.base ≠ range.base) :
    Ensures (fun _ => True) (free services manager range) firmware fun outcome after =>
      (outcome.2 = .ok () → outcome.1.ledger.AnswersFor registryRange (live after)
        (withoutBase range.base kept)) ∧
      (outcome.2 ≠ .ok () → outcome.1.ledger.AnswersFor registryRange (live after) kept) := by
  refine (PageLedger.ensures_free_any h hledger hother).bind ?_
  rintro ⟨ledger, result⟩ after hafter
  exact Ensures.pure hafter

theorem ensures_allocatePool (h : services.Accounts live names)
    (hledger : manager.ledger.AnswersFor registryRange (live firmware) kept) (size : UInt64) :
    Ensures Event.IsUnrefused (allocatePool services manager size) firmware
      fun _ after => manager.ledger.AnswersFor registryRange (live after) kept := by
  refine (h.ensures_requestPool hledger.custody _ size).bind ?_
  intro result after hafter
  cases result with
  | error status => exact Ensures.pure ⟨hledger.registryRange?_eq, hafter⟩
  | ok buffer => exact Ensures.pure ⟨hledger.registryRange?_eq, hafter⟩

theorem ensures_freePool (h : services.Accounts live names)
    (hledger : manager.ledger.AnswersFor registryRange (live firmware) kept) (buffer : UInt64) :
    Ensures Event.IsUnrefused (freePool services buffer) firmware
      fun _ after => manager.ledger.AnswersFor registryRange (live after) kept := by
  refine (h.ensures_releasePool hledger.custody buffer).bind ?_
  intro result after hafter
  cases result with
  | error status => exact Ensures.pure ⟨hledger.registryRange?_eq, hafter⟩
  | ok value => exact Ensures.pure ⟨hledger.registryRange?_eq, hafter⟩

/-- A new manager has a registry and holds nothing else; all that was live before is
kept by others. -/
theorem ensures_create (h : services.Accounts live names)
    (hstart : ((live firmware).map PageRange.base).Nodup) (limits : Limits) :
    Ensures Event.IsUnrefused (create services limits) firmware fun result after =>
      ∀ manager, result = .ok manager →
        ∃ range, manager.ledger.AnswersFor range (live after) (live firmware) := by
  have hcustody : Custody (live firmware) [] (live firmware) := ⟨List.Perm.refl _, hstart⟩
  refine (PageLedger.ensures_init h rfl hcustody).bind ?_
  rintro ⟨ledger, result⟩ after ⟨hafter, hready⟩
  cases result with
  | error cause =>
      apply Ensures.pure
      intro manager hresult
      cases hresult
  | ok value =>
      obtain ⟨range, hrange⟩ := hready rfl
      refine (ensures_refresh h ⟨hrange, hafter⟩).bind ?_
      rintro ⟨refreshed, outcome⟩ last hlast
      cases outcome with
      | error cause =>
          refine Ensures.note_bind trivial (Ensures.pure ?_)
          intro manager hresult
          obtain rfl := Except.ok.inj hresult
          exact ⟨range, hlast⟩
      | ok value =>
          apply Ensures.pure
          intro manager hresult
          obtain rfl := Except.ok.inj hresult
          exact ⟨range, hlast⟩

/-- After the end of a manager only what others keep is live. -/
theorem ensures_teardown (h : services.Accounts live names)
    (hledger : manager.ledger.AnswersFor registryRange (live firmware) kept) (slot : Handoff) :
    Ensures Event.IsUnrefused (teardown services manager slot) firmware
      fun _ after => Custody (live after) [] kept := by
  obtain ⟨registry, hregistry, _⟩ := hledger.exists_registry
  have hready : manager.ledger.isReady = true := by
    rw [PageLedger.isReady, hregistry]
    rfl
  rw [teardown, if_pos hready]
  refine (PageLedger.ensures_teardown h hledger).bind ?_
  intro ledger after hafter
  exact Ensures.pure hafter

/-- One operation other than a teardown keeps the custody; a successful free takes what
has its base from what others keep. -/
theorem ensures_step (h : services.Accounts live names)
    (hledger : manager.ledger.AnswersFor registryRange (live firmware) kept) (slot : Handoff)
    {operation : Operation} (hopen : operation ≠ .teardown)
    (hother : ∀ range, operation = .free range → registryRange.base ≠ range.base) :
    Ensures (fun _ => True) (step services manager slot operation) firmware
      fun outcome after => outcome.1.ledger.AnswersFor registryRange (live after)
        (unfreed (freedBase? operation outcome.2.2).toList kept) := by
  cases operation with
  | refresh =>
      refine ((ensures_refresh h hledger).allow fun _ _ => trivial).bind ?_
      rintro ⟨refreshed, result⟩ after hafter
      exact Ensures.pure ((unfreed_nil kept).symm ▸ hafter)
  | allocate address pages =>
      refine ((ensures_allocate h hledger address pages).allow fun _ _ => trivial).bind ?_
      rintro ⟨grown, result⟩ after ⟨hafter, _⟩
      exact Ensures.pure ((unfreed_nil kept).symm ▸ hafter)
  | allocateAnywhere pages =>
      refine ((ensures_allocateAnywhere h hledger pages).allow fun _ _ => trivial).bind ?_
      rintro ⟨grown, result⟩ after ⟨hafter, _⟩
      exact Ensures.pure ((unfreed_nil kept).symm ▸ hafter)
  | free range =>
      refine (ensures_free_any h hledger (hother range rfl)).bind ?_
      rintro ⟨rest, result⟩ after ⟨hfreed, hrefused⟩
      cases result with
      | error cause => exact Ensures.pure ((unfreed_nil kept).symm ▸ hrefused (by simp))
      | ok value => exact Ensures.pure ((unfreed_singleton range.base kept).symm ▸ hfreed rfl)
  | allocatePool size =>
      refine ((ensures_allocatePool h hledger size).allow fun _ _ => trivial).bind ?_
      intro result after hafter
      exact Ensures.pure ((unfreed_nil kept).symm ▸ hafter)
  | freePool buffer =>
      refine ((ensures_freePool h hledger buffer).allow fun _ _ => trivial).bind ?_
      intro result after hafter
      exact Ensures.pure ((unfreed_nil kept).symm ▸ hafter)
  | publish =>
      refine Ensures.note_bind trivial (Ensures.pure ?_)
      exact (unfreed_nil kept).symm ▸ hledger
  | teardown => exact (hopen rfl).elim

/-- A run of operations without a teardown keeps the custody. -/
theorem ensures_runAll (h : services.Accounts live names)
    (hledger : manager.ledger.AnswersFor registryRange (live firmware) kept) (slot : Handoff)
    {operations : List Operation} (hopen : .teardown ∉ operations)
    (hother : ∀ range, .free range ∈ operations → registryRange.base ≠ range.base) :
    Ensures (fun _ => True) (runAll services manager slot operations) firmware
      fun outcome after => outcome.1.ledger.AnswersFor registryRange (live after)
        (unfreed (freedBases operations outcome.2.2) kept) := by
  induction operations generalizing manager slot firmware kept with
  | nil => exact Ensures.pure ((unfreed_nil kept).symm ▸ hledger)
  | cons operation rest ih =>
      rw [List.mem_cons, not_or] at hopen
      have hfirst := ensures_step h hledger slot (Ne.symm hopen.1) fun range heq =>
        hother range (heq ▸ List.mem_cons_self)
      refine hfirst.bind ?_
      rintro ⟨stepped, slot, answer⟩ after hafter
      have hrest := ih hafter slot hopen.2 fun range hmem =>
        hother range (List.mem_cons_of_mem _ hmem)
      refine hrest.bind ?_
      rintro ⟨last, slot, answers⟩ final hfinal
      apply Ensures.pure
      rw [freedBases, unfreed_append]
      exact hfinal

/-- What is live over a whole life of a manager.  Before the end it is the registry, the
records and what others keep; after a teardown, and after the manager has left its place
on a machine, it is what others keep.  Others keep what was live at the start, without
what successful frees have named.  Live ranges are told apart by their bases. -/
theorem live_of_runAll (h : services.WellBehaved live) {start : σ}
    (hstart : ((live start).map PageRange.base).Nodup) (limits : Limits)
    (hcreated : ((create services limits).run start).value = .ok manager) (slot : Handoff)
    {operations : List Operation} (hopen : .teardown ∉ operations)
    (hother : ∀ range, .free range ∈ operations →
      manager.ledger.registryRange?.map PageRange.base ≠ some range.base) :
    let created := ((create services limits).run start).firmware
    let run := (runAll services manager slot operations).run created
    let kept := unfreed (freedBases operations run.value.2.2) (live start)
    (∃ registryRange, manager.ledger.registryRange? = some registryRange ∧
      run.value.1.ledger.registryRange? = some registryRange ∧
      ((live run.firmware).map PageRange.base).Nodup ∧
      (live run.firmware).Perm (registryRange :: run.value.1.ledger.recorded ++ kept)) ∧
    (∀ slot, (live ((run.value.1.teardown services slot).run run.firmware).firmware).Perm kept) ∧
    ∀ (machine : Machine) (place : Nat), machine.manager? place = some run.value.1 →
      (live ((machine.vacate services place).run run.firmware).firmware).Perm kept := by
  intro created run kept
  obtain ⟨registryRange, hledger⟩ := (ensures_create h hstart limits).ends manager hcreated
  have hforeign : ∀ range, .free range ∈ operations → registryRange.base ≠ range.base := by
    intro range hmem heq
    apply hother range hmem
    rw [hledger.registryRange?_eq, Option.map_some, heq]
  have hrun := (ensures_runAll h hledger slot hopen hforeign).ends
  have hteardown : ∀ slot, (live ((run.value.1.teardown services slot).run
      run.firmware).firmware).Perm kept := fun slot =>
    (ensures_teardown h hrun slot).ends.perm
  refine ⟨⟨registryRange, hledger.registryRange?_eq, hrun.registryRange?_eq,
    hrun.custody.nodup, ?_⟩, hteardown, ?_⟩
  · have hperm := hrun.custody.perm
    rw [PageLedger.held, hrun.registryRange?_eq] at hperm
    exact hperm
  · intro machine place hplace
    rw [Machine.vacate, hplace]
    exact hteardown machine.handoff

end Operations

/-- Where only one range is live at first, a manager that allocates, refreshes, and frees
that range leaves nothing behind. -/
theorem live_of_runAll_checkedArena :
    let created := (create Arena.checkedServices {}).run
      { live := [{ base := 0x500000, pages := 2 }] }
    let operations : List Operation :=
      [.allocate 0 3, .refresh, .free { base := 0x500000, pages := 2 }, .allocatePool 16]
    ∃ manager, created.value = .ok manager ∧
      let run := (runAll Arena.checkedServices manager {} operations).run created.firmware
      ((run.value.1.teardown Arena.checkedServices {}).run run.firmware).firmware.live = [] := by
  intro created operations
  -- evaluated once: where the registry is, and what was freed
  have hvalue : (created.value.toOption.map fun manager =>
      (manager.ledger.registryRange?.map PageRange.base,
        freedBases operations ((runAll Arena.checkedServices manager {} operations).run
          created.firmware).value.2.2)) = some (some 0x100000, [0x500000]) := by
    decide +kernel
  cases hcreated : created.value with
  | error cause =>
      rw [hcreated] at hvalue
      cases hvalue
  | ok manager =>
      rw [hcreated] at hvalue
      obtain ⟨hregistry, hfreed⟩ := Prod.mk.inj (Option.some.inj hvalue)
      have hother : ∀ range, .free range ∈ operations →
          manager.ledger.registryRange?.map PageRange.base ≠ some range.base := by
        intro range hmem
        have hrange : range = { base := 0x500000, pages := 2 } := by
          simpa [operations] using hmem
        rw [hregistry, hrange]
        decide
      obtain ⟨_, hteardown, _⟩ := live_of_runAll Arena.wellBehaved_checkedServices
        (by decide) {} hcreated {} (by decide) hother
      have hlast := hteardown {}
      dsimp only [created] at hfreed
      rw [hfreed] at hlast
      have hkept : unfreed [0x500000] [{ base := 0x500000, pages := 2 }] = [] := by decide
      refine ⟨manager, rfl, ?_⟩
      dsimp only [created]
      exact (hlast.trans (List.Perm.of_eq hkept)).eq_nil

end Manager

end BootMemory
