import BootMemory.E820.Operations
import BootMemory.Proofs.Manager.Requests

/-!
# How far a manager has come

A manager is silent until it publishes, and its end closes it for good.  The end takes the
slot back from a manager that was heard; afterwards the manager can publish again, but no
later end takes that back.  All this holds on any firmware, whatever it answers.

Main results:

- Definition {lit}`Manager.Stage.after`: how an operation moves a manager on.
- Theorems {lit}`Manager.Takes.stage_eq` and {lit}`Manager.Takes.handoff_eq`: the stage and the
  slot after an operation.
- Theorems {lit}`Manager.stage_runAll` and {lit}`Manager.handoff_runAll`: the same for a run.
- Theorems {lit}`Manager.handoff_runAll_teardown` and {lit}`Manager.handoff_runAll_publish`: the
  slot after the first end of a manager, and after a publication that comes later.
- Theorem {lit}`Manager.Takes.reachable`: the map of a manager is one that operations lead to.
-/

namespace BootMemory

/-! ## Stages -/

namespace Manager

/-- How far a manager has come. -/
inductive Stage
  /-- It has not published. -/
  | silent
  /-- It has published. -/
  | heard
  /-- It has ended. -/
  | closed
deriving DecidableEq, Repr

/-- How an operation moves a manager on. -/
def Stage.after : Stage → Operation → Stage
  | silent, .publish => heard
  | _, .teardown => closed
  | stage, _ => stage

/-- What the end of a manager makes of the slot. -/
def Stage.takeBack : Stage → Handoff → Handoff
  | heard, slot => slot.clear
  | _, slot => slot

/-- The stage that the state of a manager shows.  Without a registry it does not matter whether
the manager has published. -/
def stage (manager : Manager) : Stage :=
  if manager.ledger.isReady then if manager.published then .heard else .silent else .closed

/-- The slot after an operation of a manager with some map. -/
def Stage.handoffAfter (stage : Stage) (map : E820.LegacyMap) (slot : Handoff) :
    Operation → Handoff
  | .publish => slot.publish map
  | .teardown => stage.takeBack slot
  | _ => slot

namespace Stage

theorem after_teardown (stage : Stage) : stage.after .teardown = closed := by
  cases stage <;> rfl

theorem after_closed (operation : Operation) : closed.after operation = closed := by
  cases operation <;> rfl

/-- Only a publication and an end move a manager on. -/
theorem after_eq_self (stage : Stage) {operation : Operation} (hpublish : operation ≠ .publish)
    (hend : operation ≠ .teardown) : stage.after operation = stage := by
  cases operation with
  | publish => exact (hpublish rfl).elim
  | teardown => exact (hend rfl).elim
  | _ => cases stage <;> rfl

theorem after_publish {stage : Stage} (h : stage ≠ closed) : stage.after .publish = heard := by
  cases stage with
  | closed => exact (h rfl).elim
  | silent => rfl
  | heard => rfl

theorem handoffAfter_of_ne (stage : Stage) (map : E820.LegacyMap) (slot : Handoff)
    {operation : Operation} (hpublish : operation ≠ .publish) (hend : operation ≠ .teardown) :
    stage.handoffAfter map slot operation = slot := by
  cases operation with
  | publish => exact (hpublish rfl).elim
  | teardown => exact (hend rfl).elim
  | _ => rfl

theorem after_ne_heard {stage : Stage} {operation : Operation} (hstage : stage ≠ heard)
    (hpublish : operation ≠ .publish) : stage.after operation ≠ heard := by
  by_cases hend : operation = .teardown
  · rw [hend]
    cases stage <;> nofun
  · rw [after_eq_self stage hpublish hend]
    exact hstage

/-- A manager that was not heard has nothing to take back. -/
theorem handoffAfter_eq_self {stage : Stage} {map : E820.LegacyMap} {slot : Handoff}
    {operation : Operation} (hstage : stage ≠ heard) (hpublish : operation ≠ .publish) :
    stage.handoffAfter map slot operation = slot := by
  by_cases hend : operation = .teardown
  · rw [hend]
    cases stage with
    | heard => exact (hstage rfl).elim
    | silent => rfl
    | closed => rfl
  · exact stage.handoffAfter_of_ne map slot hpublish hend

theorem foldl_after_closed (operations : List Operation) :
    operations.foldl after closed = closed := by
  induction operations with
  | nil => rfl
  | cons operation rest ih => rw [List.foldl_cons, after_closed, ih]

/-- Operations with an end among them close a manager. -/
theorem foldl_after_of_mem (stage : Stage) {operations : List Operation}
    (hended : .teardown ∈ operations) : operations.foldl after stage = closed := by
  obtain ⟨first, last, rfl⟩ := List.append_of_mem hended
  rw [List.foldl_append, List.foldl_cons, after_teardown, foldl_after_closed]

end Stage

end Manager

/-! ## What attempts at a map leave alone -/

namespace Trials

variable {left : Nat} {ledger : PageLedger} {bytes : UInt64} {attempts : List Attempt}
  {outcome : PageLedger × Except MemoryError E820.LegacyMap}

theorem registryRange?_eq (h : Trials left ledger bytes attempts outcome) :
    outcome.1.registryRange? = ledger.registryRange? := by
  induction h with
  | exhausted => rfl
  | failed hruns => exact hruns.registryRange?_eq
  | converted hruns => exact hruns.registryRange?_eq
  | short hruns _ _ ih => exact ih.trans hruns.registryRange?_eq

/-- A map comes from a conversion. -/
theorem reachable (h : Trials left ledger bytes attempts outcome) {map : E820.LegacyMap}
    (hmap : outcome.2 = .ok map) : map.Reachable := by
  induction h with
  | exhausted => cases hmap
  | failed => cases hmap
  | converted _ hends =>
      obtain rfl := Except.ok.inj hmap
      cases hends with
      | converted _ _ hconverted => exact E820.LegacyMap.reachable_of_ofMemoryMap hconverted
  | short _ _ _ ih => exact ih hmap

end Trials

/-- A ledger that was closed has no registry. -/
theorem PageLedger.Closes.isReady {ledger closed : PageLedger} {calls : List Exchange}
    (h : ledger.Closes calls closed) : closed.isReady = false := by
  rw [h.returns.2]
  rfl

/-- A registry that was opened is there. -/
theorem PageLedger.Opens.isReady {ledger opened : PageLedger} {calls : List Exchange}
    (h : ledger.Opens calls (opened, .ok ())) : opened.isReady = true := by
  cases h with
  | already hregistry => rw [PageLedger.isReady, hregistry, Option.isSome_some]
  | ready => rfl

namespace Manager

/-! ## One operation -/

section Ways

variable {calls : List Exchange} {manager after : Manager} {slot : Handoff}
  {operation : Operation} {outcome : Manager × Handoff × Answer}

/-- The stage depends on nothing but the registry's pages and what was published. -/
theorem stage_congr (hhome : after.ledger.registryRange? = manager.ledger.registryRange?)
    (hpublished : after.published = manager.published) : after.stage = manager.stage := by
  rw [stage, stage, PageLedger.isReady_congr hhome, hpublished]

theorem stage_withLedger {ledger : PageLedger}
    (hhome : ledger.registryRange? = manager.ledger.registryRange?) :
    ({ manager with ledger } : Manager).stage = manager.stage :=
  stage_congr hhome rfl

theorem published_afterTrials (manager : Manager)
    (outcome : PageLedger × Except MemoryError E820.LegacyMap) :
    (manager.afterTrials outcome).1.published = manager.published := by
  obtain ⟨ledger, result⟩ := outcome
  cases result with
  | error cause => rfl
  | ok map => rfl

theorem stage_afterTrials {left : Nat} {bytes : UInt64} {attempts : List Attempt}
    {outcome : PageLedger × Except MemoryError E820.LegacyMap}
    (h : Trials left manager.ledger bytes attempts outcome) :
    (manager.afterTrials outcome).1.stage = manager.stage := by
  refine stage_congr ?_ (published_afterTrials manager outcome)
  obtain ⟨ledger, result⟩ := outcome
  cases result with
  | error cause => exact h.registryRange?_eq
  | ok map => exact h.registryRange?_eq

/-- A new manager is silent. -/
theorem Creates.stage_eq {limits : Limits} (h : Creates limits calls (.ok manager)) :
    manager.stage = .silent := by
  cases h with
  | made hopens htrials =>
      rw [stage_afterTrials htrials, stage, if_pos hopens.isReady]
      rfl

/-- A manager is closed exactly if it has no registry. -/
theorem stage_eq_closed_iff : manager.stage = .closed ↔ manager.ledger.isReady = false := by
  rw [stage]
  cases manager.ledger.isReady <;> cases manager.published <;> simp

/-- An operation moves a manager on. -/
theorem Takes.stage_eq (h : manager.Takes slot operation calls outcome) :
    outcome.1.stage = manager.stage.after operation := by
  cases h with
  | refresh htrials =>
      exact (stage_afterTrials htrials).trans (Stage.after_eq_self _ (by nofun) (by nofun)).symm
  | allocate hallocates =>
      exact (stage_withLedger hallocates.registryRange?_eq).trans
        (Stage.after_eq_self _ (by nofun) (by nofun)).symm
  | allocateAnywhere hallocates =>
      exact (stage_withLedger hallocates.registryRange?_eq).trans
        (Stage.after_eq_self _ (by nofun) (by nofun)).symm
  | free hfrees =>
      exact (stage_withLedger hfrees.registryRange?_eq).trans
        (Stage.after_eq_self _ (by nofun) (by nofun)).symm
  | allocatePool => exact (Stage.after_eq_self _ (by nofun) (by nofun)).symm
  | freePool => exact (Stage.after_eq_self _ (by nofun) (by nofun)).symm
  | publish =>
      rw [stage, stage]
      cases manager.ledger.isReady <;> cases manager.published <;> rfl
  | teardown _ hcloses => rw [stage_eq_closed_iff.2 hcloses.isReady, Stage.after_teardown]
  | idle hidle =>
      rw [stage_eq_closed_iff.2 hidle]
      rfl

/-- A publication puts the manager's map into the slot, and an end takes the slot back from a
manager that was heard. -/
theorem Takes.handoff_eq (h : manager.Takes slot operation calls outcome) :
    outcome.2.1 = manager.stage.handoffAfter manager.map slot operation := by
  cases h with
  | teardown hready =>
      rw [stage, hready]
      cases manager.published <;> rfl
  | idle hidle =>
      rw [stage_eq_closed_iff.2 hidle]
      rfl
  | _ => rfl

theorem reachable_afterTrials {left : Nat} {bytes : UInt64} {attempts : List Attempt}
    {outcome : PageLedger × Except MemoryError E820.LegacyMap}
    (h : Trials left manager.ledger bytes attempts outcome) :
    (manager.afterTrials outcome).1.map.Reachable := by
  obtain ⟨ledger, result⟩ := outcome
  cases result with
  | error cause => exact E820.LegacyMap.reachable_empty
  | ok map => exact h.reachable rfl

theorem Creates.reachable {limits : Limits} (h : Creates limits calls (.ok manager)) :
    manager.map.Reachable := by
  cases h with
  | made _ htrials => exact reachable_afterTrials htrials

/-- The map of a manager stays one that operations on maps lead to. -/
theorem Takes.reachable (h : manager.Takes slot operation calls outcome)
    (hmap : manager.map.Reachable) : outcome.1.map.Reachable := by
  cases h with
  | refresh htrials => exact reachable_afterTrials htrials
  | teardown => exact E820.LegacyMap.reachable_empty
  | _ => exact hmap

end Ways

/-! ## A run -/

section Operations

variable {σ : Type} (services : Services σ) {manager : Manager}

/-- A run moves a manager on operation by operation. -/
theorem stage_runAll (manager : Manager) (slot : Handoff) (operations : List Operation)
    (firmware : σ) :
    ((runAll services manager slot operations).run firmware).value.1.stage =
      operations.foldl Stage.after manager.stage := by
  induction operations generalizing manager slot firmware with
  | nil => rfl
  | cons operation rest ih =>
      have hconducts : services.Conducts (step services manager slot operation) firmware _ :=
        conducts_step slot operation
      rw [List.foldl_cons, ← hconducts.ends.stage_eq]
      exact ih _ _ _

/-- Without a publication, a manager that was not heard leaves the slot alone. -/
theorem handoff_runAll (slot : Handoff) {operations : List Operation} (firmware : σ)
    (hquiet : .publish ∉ operations) (hstage : manager.stage ≠ .heard) :
    ((runAll services manager slot operations).run firmware).value.2.1 = slot := by
  induction operations generalizing manager slot firmware with
  | nil => rfl
  | cons operation rest ih =>
      rw [List.mem_cons, not_or] at hquiet
      have hconducts : services.Conducts (step services manager slot operation) firmware _ :=
        conducts_step slot operation
      have hslot := hconducts.ends.handoff_eq
      have hnext := hconducts.ends.stage_eq
      rw [Stage.handoffAfter_eq_self hstage (Ne.symm hquiet.1)] at hslot
      have hrest := ih ((step services manager slot operation).run firmware).value.2.1
        ((step services manager slot operation).run firmware).firmware hquiet.2
        (hnext ▸ Stage.after_ne_heard hstage (Ne.symm hquiet.1))
      exact hrest.trans hslot

/-- What a manager publishes after its end stays in the slot, until it publishes again. -/
theorem handoff_runAll_publish (slot : Handoff) {before after : List Operation} (firmware : σ)
    (hended : manager.stage = .closed ∨ .teardown ∈ before) (hquiet : .publish ∉ after) :
    let told := (runAll services manager slot before).run firmware
    ((runAll services manager slot (before ++ .publish :: after)).run firmware).value.2.1 =
      told.value.2.1.publish told.value.1.map := by
  induction before generalizing manager slot firmware with
  | nil =>
      have hclosed : manager.stage = .closed := hended.resolve_right List.not_mem_nil
      let next := (step services manager slot .publish).run firmware
      have hconducts : services.Conducts (step services manager slot .publish) firmware _ :=
        conducts_step slot .publish
      have hnext : next.value.1.stage = .closed := by
        rw [hconducts.ends.stage_eq, hclosed, Stage.after_closed]
      have hsilent : next.value.1.stage ≠ .heard := by
        rw [hnext]
        decide
      exact handoff_runAll services next.value.2.1 next.firmware hquiet hsilent
  | cons operation rest ih =>
      let next := (step services manager slot operation).run firmware
      have hconducts : services.Conducts (step services manager slot operation) firmware _ :=
        conducts_step slot operation
      have hnext : next.value.1.stage = manager.stage.after operation := hconducts.ends.stage_eq
      have hafter : next.value.1.stage = .closed ∨ .teardown ∈ rest := by
        rw [hnext]
        rcases hended with hclosed | hended
        · exact .inl (by rw [hclosed, Stage.after_closed])
        · rcases List.mem_cons.1 hended with hend | hlater
          · exact .inl (hend ▸ manager.stage.after_teardown)
          · exact .inr hlater
      exact ih next.value.2.1 next.firmware hafter

/-- The first end of a manager that has published takes the slot back.  Afterwards the slot stays
as it is, until the manager publishes again. -/
theorem handoff_runAll_teardown (slot : Handoff) {before after : List Operation} (firmware : σ)
    (hopen : .teardown ∉ before) (hquiet : .publish ∉ after) (hstage : manager.stage ≠ .closed) :
    ((runAll services manager slot (before ++ .teardown :: after)).run firmware).value.2.1 =
      if manager.stage = .heard ∨ .publish ∈ before then slot.clear else slot := by
  induction before generalizing manager slot firmware with
  | nil =>
      let next := (step services manager slot .teardown).run firmware
      have hconducts : services.Conducts (step services manager slot .teardown) firmware _ :=
        conducts_step slot .teardown
      have hclosed : next.value.1.stage = .closed :=
        hconducts.ends.stage_eq.trans manager.stage.after_teardown
      have hslot : next.value.2.1 = manager.stage.takeBack slot := hconducts.ends.handoff_eq
      have hrest := handoff_runAll services next.value.2.1 next.firmware hquiet
        (hclosed ▸ (by nofun) : next.value.1.stage ≠ .heard)
      refine (hrest.trans hslot).trans ?_
      cases manager.stage <;> simp [Stage.takeBack]
  | cons operation rest ih =>
      rw [List.mem_cons, not_or] at hopen
      let next := (step services manager slot operation).run firmware
      have hconducts : services.Conducts (step services manager slot operation) firmware _ :=
        conducts_step slot operation
      have hslot : next.value.2.1 = manager.stage.handoffAfter manager.map slot operation :=
        hconducts.ends.handoff_eq
      have hnext : next.value.1.stage = manager.stage.after operation := hconducts.ends.stage_eq
      by_cases hpublish : operation = .publish
      · rw [hpublish, Stage.after_publish hstage] at hnext
        have hopened : next.value.1.stage ≠ .closed := by
          rw [hnext]
          nofun
        refine (ih next.value.2.1 next.firmware hopen.2 hopened).trans ?_
        rw [if_pos (.inl hnext), if_pos (.inr (hpublish ▸ List.mem_cons_self))]
        rfl
      · rw [Stage.after_eq_self _ hpublish (Ne.symm hopen.1)] at hnext
        rw [Stage.handoffAfter_of_ne _ _ _ hpublish (Ne.symm hopen.1)] at hslot
        have hopened : next.value.1.stage ≠ .closed := hnext ▸ hstage
        refine (ih next.value.2.1 next.firmware hopen.2 hopened).trans ?_
        rw [hnext, hslot]
        simp only [List.mem_cons, Ne.symm hpublish, false_or]

end Operations

end Manager

end BootMemory
