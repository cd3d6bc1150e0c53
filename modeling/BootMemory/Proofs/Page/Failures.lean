import BootMemory.Proofs.Firmware.CheckedArena
import BootMemory.Proofs.Page.Placement
import BootMemory.Proofs.Page.Settlement

/-!
# Failures without a trace

An operation that asks for pages can fail before any request, when the firmware refuses, and
also when pages were granted already: at address zero, for a record that finds no empty slot,
or as storage that cannot be reached.  However it fails, the ledger is the same ledger, and
what was granted on the way is granted no more.

Main results:

- Definition {lit}`PageLedger.Operation.AsksForPages`: allocations and the opening of a registry.
- Theorem {lit}`PageLedger.Takes.ledger_eq_of_error`: a failure keeps every slot.
- Theorem {lit}`PageLedger.Takes.live_of_error`: on the books of a firmware that keeps accounts,
  the live ranges are the same as well.
- Theorem {lit}`PageLedger.traceless_of_error`: both together for the runs of an operation.
-/

open scoped List

namespace BootMemory.PageLedger

/-- Whether an operation gets pages from the firmware, if it works. -/
def Operation.AsksForPages : Operation → Prop
  | .init | .allocate _ _ | .allocateAnywhere _ => True
  | .free _ | .teardown => False

namespace Answer

/-- The cause of a failure, if the answer is one. -/
def error? : Answer → Option MemoryError
  | outcome (.error cause) | address (.error cause) => some cause
  | _ => none

variable {cause : MemoryError}

theorem error?_outcome_eq_some_iff {result : Except MemoryError Unit} :
    (outcome result).error? = some cause ↔ result = .error cause := by
  cases result with
  | error other => simp [error?]
  | ok value => simp [error?]

theorem error?_address_eq_some_iff {result : Except MemoryError UInt64} :
    (address result).error? = some cause ↔ result = .error cause := by
  cases result with
  | error other => simp [error?]
  | ok base => simp [error?]

end Answer

section Ways

variable {names : PageRange → PageRange → Prop} {live left : List PageRange}
  {calls : List Exchange} {ledger after : PageLedger} {operation : Operation} {answer : Answer}
  {cause : MemoryError}

/-- A failure keeps the ledger. -/
theorem Takes.ledger_eq_of_error (h : ledger.Takes operation calls (after, answer))
    (hasks : operation.AsksForPages) (herror : answer.error? = some cause) : after = ledger := by
  cases h with
  | init h =>
      obtain rfl := Answer.error?_outcome_eq_some_iff.1 herror
      exact h.of_error.2
  | allocate h =>
      obtain rfl := Answer.error?_address_eq_some_iff.1 herror
      exact h.eq_of_error
  | allocateAnywhere h =>
      obtain rfl := Answer.error?_address_eq_some_iff.1 herror
      exact h.eq_of_error
  | free => exact hasks.elim
  | teardown => exact hasks.elim

/-- What was granted before a failure is not live afterwards, and no return of it is refused. -/
theorem Takes.live_of_error (hnames : NamesByBase names)
    (h : ledger.Takes operation calls (after, answer)) (hasks : operation.AsksForPages)
    (herror : answer.error? = some cause) (hbooks : Books names live calls left) :
    Unrefused calls ∧ left ~ live := by
  rw [← List.append_nil calls] at hbooks
  cases h with
  | init h =>
      obtain rfl := Answer.error?_outcome_eq_some_iff.1 herror
      obtain ⟨hnone, rfl⟩ := h.of_error
      have hsettled := h.settled hnames hnone hbooks
      rw [registryRange?_of_none hnone] at hsettled
      exact ⟨hsettled.unrefused, hsettled.books⟩
  | allocate h =>
      obtain rfl := Answer.error?_address_eq_some_iff.1 herror
      have hsettled := h.settled hnames hbooks
      exact ⟨hsettled.unrefused, hsettled.books⟩
  | allocateAnywhere h =>
      obtain rfl := Answer.error?_address_eq_some_iff.1 herror
      have hsettled := h.settled hnames hbooks
      exact ⟨hsettled.unrefused, hsettled.books⟩
  | free => exact hasks.elim
  | teardown => exact hasks.elim

end Ways

section Operations

variable {σ : Type}

/-- However an operation that asks for pages fails, the ledger is as before.  On a firmware that
keeps accounts so are the live ranges, after returns of which none was refused.  An address
above the ceiling fails without any request. -/
theorem traceless_of_error (services : Services σ) (ledger : PageLedger) (start : σ)
    {operation : Operation} {cause : MemoryError} (hasks : operation.AsksForPages)
    (herror : ((step services ledger operation).run start).value.2.error? = some cause) :
    let run := (step services ledger operation).run start
    run.value.1 = ledger ∧
      (∀ live names, services.Accounts live names →
        Unrefused run.exchanges ∧ live run.firmware ~ live start) ∧
      ∀ address pages, operation = .allocate address pages → ledger.ceiling < address →
        cause = .addressAboveCeiling address ∧ run.exchanges = [] ∧ run.firmware = start := by
  intro run
  have hconducts : services.Conducts (step services ledger operation) start _ :=
    conducts_step operation
  refine ⟨hconducts.ends.ledger_eq_of_error hasks herror, ?_, ?_⟩
  · intro live names h
    exact hconducts.ends.live_of_error h.namesByBase hasks herror (h.books hconducts.dialogue)
  · rintro address pages rfl habove
    have hrun : run = { value := (ledger, .address (.error (.addressAboveCeiling address))),
                        firmware := start, events := [] } := by
      change (step services ledger (.allocate address pages)).run start = _
      rw [step, Boot.bind_run, allocate_run_of_ceiling_lt services pages start habove]
      rfl
    change run.value.2.error? = some cause at herror
    rw [hrun] at herror ⊢
    exact ⟨(Option.some.inj herror).symm, rfl, rfl⟩

/-- Three failures after a grant: page zero was granted and then nothing else, the registry has
no slots at all, and its storage cannot be reached. -/
theorem traceless_of_error_after_grant :
    let zeroPage : Arena := { base := 0, pages := 1 }
    let slotless : Limits := { registryBytes := 0 }
    let opened := (init Arena.checkedServices (ofLimits slotless)).run {}
    let retried := (step Arena.checkedServices (ofLimits {}) (.allocate 0 1)).run zeroPage
    let full := (step Arena.checkedServices opened.value.1 (.allocate 0 3)).run opened.firmware
    let hidden := (step Arena.checkedServices (ofLimits {}) .init).run { hidesMemory := true }
    retried.value.2.error? = some (.firmware .outOfResources) ∧ retried.firmware.live ~ [] ∧
      full.value.2.error? = some .tooManyAllocations ∧ full.value.1 = opened.value.1 ∧
      full.firmware.live ~ [{ base := 0x100000, pages := 1 }] ∧
      hidden.value.2.error? = some .notInitialized ∧ hidden.firmware.live ~ [] := by
  intro zeroPage slotless opened retried full hidden
  have hretried : retried.value.2.error? = some (.firmware .outOfResources) := by
    decide +kernel
  have hfull : full.value.2.error? = some .tooManyAllocations := by
    decide +kernel
  have hhidden : hidden.value.2.error? = some .notInitialized := by
    decide +kernel
  have hopened : opened.firmware.live = [{ base := 0x100000, pages := 1 }] := by
    decide +kernel
  have hkeeps := Arena.wellBehaved_checkedServices
  obtain ⟨_, hzero, _⟩ := traceless_of_error Arena.checkedServices _ _ (by trivial) hretried
  obtain ⟨hsame, hslots, _⟩ := traceless_of_error Arena.checkedServices _ _ (by trivial) hfull
  obtain ⟨_, hstorage, _⟩ := traceless_of_error Arena.checkedServices _ _ (by trivial) hhidden
  have hlive := (hslots _ _ hkeeps).2
  rw [hopened] at hlive
  exact ⟨hretried, (hzero _ _ hkeeps).2, hfull, hsame, hlive, hhidden, (hstorage _ _ hkeeps).2⟩

end Operations

end BootMemory.PageLedger
