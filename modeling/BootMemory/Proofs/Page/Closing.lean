import BootMemory.Firmware.Arena
import BootMemory.Proofs.Page.Settlement

/-!
# The end of a registry

A teardown returns every record and then the pages of the registry.  What the firmware answers
changes nothing about the requests: a refused return is only reported.  Afterwards the ledger
has no registry, and until the next opening all operations leave it that way.

Main results:

- Theorem {lit}`PageLedger.conducts_runAll_of_none`: without a registry only an opening changes
  the ledger.
- Theorem {lit}`PageLedger.returns_teardown`: all that a teardown does, on any firmware.
-/

namespace BootMemory.PageLedger

section Ways

variable {calls : List Exchange} {ledger : PageLedger} {operation : Operation}

/-- Without a registry there is nothing to end. -/
theorem Closes.of_none {closed : PageLedger} (h : ledger.Closes calls closed)
    (hnone : ledger.registry = none) : calls = [] ∧ closed = ledger := by
  cases h with
  | idle => exact ⟨rfl, rfl⟩
  | closed hregistry => cases hnone.symm.trans hregistry

/-- Each of some returned ranges has a request. -/
theorem Returns.exists_mem {ranges : List PageRange} (h : Returns ranges calls)
    {range : PageRange} (hmem : range ∈ ranges) : ∃ status, .freePages range status ∈ calls := by
  induction h with
  | nil => cases hmem
  | cons hfirst _ ih =>
      rcases List.mem_cons.1 hmem with rfl | hrest
      · obtain ⟨status, rfl⟩ := hfirst
        exact ⟨status, List.mem_cons_self⟩
      · obtain ⟨status, hcall⟩ := ih hrest
        exact ⟨status, List.mem_cons_of_mem _ hcall⟩

/-- Without a registry there is nowhere to record a range. -/
theorem Records.ledger_eq_of_none {range : PageRange}
    {outcome : PageLedger × Except MemoryError UInt64} (h : ledger.Records range calls outcome)
    (hnone : ledger.registry = none) : outcome.1 = ledger := by
  cases h with
  | unrecorded => rfl
  | stored hregistry => cases hnone.symm.trans hregistry
  | full => rfl

/-- Without a registry only an opening changes the ledger. -/
theorem Takes.ledger_eq_of_none {outcome : PageLedger × Answer}
    (h : ledger.Takes operation calls outcome) (hnone : ledger.registry = none)
    (hoperation : operation ≠ .init) : outcome.1 = ledger := by
  cases h with
  | init => exact (hoperation rfl).elim
  | allocate h =>
      cases h with
      | failed => rfl
      | obtained _ hrecords => exact hrecords.ledger_eq_of_none hnone
  | allocateAnywhere h =>
      cases h with
      | refused => rfl
      | granted _ hrecords => exact hrecords.ledger_eq_of_none hnone
  | free h =>
      cases h with
      | refused => rfl
      | released => exact forget_of_none hnone _
  | teardown h => exact (h.of_none hnone).2

/-- What is opened without a registry has one that is as good as new. -/
theorem Opens.registry_eq {outcome : PageLedger × Except MemoryError Unit}
    (h : ledger.Opens calls outcome) (hnone : ledger.registry = none)
    (hok : outcome.2 = .ok ()) :
    ∃ home, outcome.1.registry = some (.ofStorage home ledger.registryBytes) := by
  cases h with
  | already hregistry => cases hnone.symm.trans hregistry
  | failed => cases hok
  | unreachable => cases hok
  | ready => exact ⟨_, rfl⟩

end Ways

section Operations

variable {σ : Type} {services : Services σ} {firmware : σ} {ledger : PageLedger}

/-- So the ledger stays as it is through any operations among which there is no opening. -/
theorem conducts_runAll_of_none (hnone : ledger.registry = none) {operations : List Operation}
    (hoperations : .init ∉ operations) :
    services.Conducts (runAll services ledger operations) firmware
      fun _ outcome => outcome.1 = ledger := by
  induction operations generalizing firmware with
  | nil => exact .pure rfl
  | cons operation rest ih =>
      rw [List.mem_cons, not_or] at hoperations
      refine (conducts_step operation).bind ?_
      rintro calls ⟨stepped, answer⟩ after htakes
      obtain rfl : stepped = ledger := htakes.ledger_eq_of_none hnone (Ne.symm hoperations.1)
      exact (ih hoperations.2).bind_pure fun _ _ hledger => ⟨_, rfl, hledger⟩

/-- A teardown asks the firmware to take back the records, in the order of their slots, and then
the registry's pages, with one request for each and no other, whatever the firmware answers.
Afterwards there is no registry, no slot and no record.  Whatever is done before the next
opening, a further teardown asks nothing, and the opening starts without records. -/
theorem returns_teardown (services : Services σ) (ledger : PageLedger) (start : σ) :
    let run := (teardown services ledger).run start
    services.Dialogue start run.exchanges run.firmware ∧
      Returns (ledger.recorded ++ ledger.registryRange?.toList) run.exchanges ∧
      run.value.isReady = false ∧ run.value.capacity = 0 ∧ run.value.recorded = [] ∧
      ∀ operations, .init ∉ operations → ∀ later,
        let idle := (runAll services run.value operations).run later
        let again := (teardown services idle.value.1).run idle.firmware
        let opened := (init services idle.value.1).run idle.firmware
        again.exchanges = [] ∧ again.value = run.value ∧ opened.value.1.recorded = [] ∧
          (opened.value.2 = .ok () → opened.value.1.isReady = true ∧
            opened.value.1.capacity = ledger.registryBytes.toNat / 24) := by
  intro run
  have hconducts : services.Conducts (teardown services ledger) start _ := conducts_teardown
  obtain ⟨hreturns, hclosed⟩ := hconducts.ends.returns
  have hnone : run.value.registry = none := congrArg registry hclosed
  refine ⟨hconducts.dialogue, hreturns, ?_, ?_, ?_, ?_⟩
  · rw [isReady, hnone, Option.isSome_none]
  · rw [capacity, hnone]
  · rw [recorded, hnone]
  · intro operations hoperations later idle again opened
    have hidles : services.Conducts (runAll services run.value operations) later _ :=
      conducts_runAll_of_none hnone hoperations
    have hidle : idle.value.1 = run.value := hidles.ends
    have hagain : services.Conducts (teardown services idle.value.1) idle.firmware _ :=
      conducts_teardown
    have hopened : services.Conducts (init services idle.value.1) idle.firmware _ :=
      conducts_init
    have hempty : idle.value.1.registry = none := by rw [hidle, hnone]
    obtain ⟨hnothing, hunchanged⟩ := hagain.ends.of_none hempty
    refine ⟨hnothing, hunchanged.trans hidle, hopened.ends.recorded_eq_nil hempty, ?_⟩
    intro hok
    obtain ⟨home, hregistry⟩ := hopened.ends.registry_eq hempty hok
    have hbytes : idle.value.1.registryBytes = ledger.registryBytes := by rw [hidle, hclosed]
    constructor
    · rw [isReady, hregistry, Option.isSome_some]
    · rw [capacity, hregistry, hbytes]
      dsimp only
      rw [Registry.capacity_ofStorage, UInt64.toNat_div]
      rfl

/-- The last record is in the first slot and the next slot is empty again.  The firmware refuses
the first of the three returns. -/
theorem returns_teardown_despite_refusal :
    let used := (runAll Arena.services (ofLimits {}) [.init, .allocate 0 1, .allocate 0 2,
      .allocate 0 3, .free ⟨0x101000, 1⟩, .allocate 0 4, .free ⟨0x102000, 2⟩]).run
        { script := { releases := [none, none, some .notFound] } }
    let run := (teardown Arena.services used.value.1).run used.firmware
    run.exchanges = [.freePages ⟨0x107000, 4⟩ .notFound, .freePages ⟨0x104000, 3⟩ .success,
        .freePages ⟨0x100000, 1⟩ .success] ∧
      run.value.isReady = false ∧
      let opened := (init Arena.services run.value).run run.firmware
      opened.value.2 = .ok () ∧ opened.value.1.recorded = [] ∧
        opened.value.1.capacity = 170 := by
  intro used run
  have hcalls : run.exchanges = [.freePages ⟨0x107000, 4⟩ .notFound,
      .freePages ⟨0x104000, 3⟩ .success, .freePages ⟨0x100000, 1⟩ .success] := by
    decide +kernel
  have hok : ((init Arena.services run.value).run run.firmware).value.2 = .ok () := by
    decide +kernel
  have hbytes : used.value.1.registryBytes.toNat / 24 = 170 := by
    decide +kernel
  have hclosing := returns_teardown Arena.services used.value.1 used.firmware
  rw [hbytes] at hclosing
  clear_value used
  obtain ⟨_, _, hready, _, _, hlater⟩ := hclosing
  obtain ⟨_, _, hrecorded, hopened⟩ := hlater [] List.not_mem_nil run.firmware
  exact ⟨hcalls, hready, hok, hrecorded, (hopened hok).2⟩

end Operations

end BootMemory.PageLedger
