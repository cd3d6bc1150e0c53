import BootMemory.Proofs.Machine.Requests
import BootMemory.Proofs.Manager.Entrusted
import BootMemory.Proofs.Manager.Releases
import BootMemory.Proofs.Manager.Stages

/-!
# Managers that are used again after their end

The end of a manager gives back what it has recorded.  The manager can still be used, but
there is no registry any more: what it allocates from then on is recorded nowhere, and a later
end gives none of it back.  The caller alone can free it.

Main results:

- Definition {lit}`Manager.takenOver`: what a manager has taken since its end and its caller has
  not freed.
- Theorem {lit}`Manager.Takes.entrusted`: what an operation of any kind changes about it.
- Theorem {lit}`Manager.live_of_reuse`: what is live after the whole life of a manager that was
  used again, and what the slot holds then if the manager has not published again.
- Theorem {lit}`Manager.handoff_of_late_publish`: what the slot holds if it has.
-/

open scoped List

namespace BootMemory

/-- A manager that has ended already leaves the slot alone when it leaves its place. -/
theorem Machine.Vacates.handoff_eq {machine vacated : Machine} {place : Nat}
    {calls : List Exchange} (h : machine.Vacates place calls vacated) {manager : Manager}
    (hplace : machine.manager? place = some manager) (hclosed : manager.stage = .closed) :
    vacated.handoff = machine.handoff := by
  cases h with
  | vacant => rfl
  | ended hoccupant hends =>
      obtain rfl := Option.some.inj (hplace.symm.trans hoccupant)
      have hslot := hends.handoff_eq
      rw [hclosed] at hslot
      exact hslot

namespace Manager

/-! ## What a manager takes after its end -/

/-- What a manager that has come so far has taken without a record, after one more operation:
an allocation adds to it only after the end of the manager, and a free that is accepted takes
away what has its base. -/
def takenAfter (stage : Stage) (taken : List PageRange) : Operation → Answer → List PageRange
  | .allocate _ pages, .address result =>
      if stage = .closed then newRanges pages result ++ taken else taken
  | .allocateAnywhere pages, .address result =>
      if stage = .closed then newRanges pages result ++ taken else taken
  | .free range, .outcome (.ok ()) => withoutBase range.base taken
  | _, _ => taken

/-- What a manager has taken without a record and not freed, after operations with their
answers. -/
def takenOver (stage : Stage) (taken : List PageRange) :
    List Operation → List Answer → List PageRange
  | operation :: operations, answer :: answers =>
      takenOver (stage.after operation) (takenAfter stage taken operation answer) operations
        answers
  | _, _ => taken

section Ways

variable {live after taken kept : List PageRange} {calls : List Exchange} {manager : Manager}
  {slot : Handoff}

theorem ite_stage_eq_closed (manager : Manager) (first second : List PageRange) :
    (if manager.stage = .closed then first else second) =
      if manager.ledger.isReady then second else first := by
  by_cases hclosed : manager.stage = .closed
  · rw [if_pos hclosed, stage_eq_closed_iff.1 hclosed, if_neg Bool.false_ne_true]
  · rw [if_neg hclosed, if_pos]
    rwa [stage_eq_closed_iff, Bool.not_eq_false] at hclosed

/-- What an allocation grants is taken if the manager has ended, and held otherwise. -/
theorem entrusted_of_settled (h : Entrusted live manager.ledger taken kept) {grown : PageLedger}
    {pages : UInt64} {result : Except MemoryError UInt64}
    (hsettled : Settled (fun range held => held.base = range.base) live calls
      (newRanges pages result) [] after)
    (hhome : grown.registryRange? = manager.ledger.registryRange?)
    (hrecorded : ∀ home, manager.ledger.registryRange? = some home →
      grown.recorded ~ newRanges pages result ++ manager.ledger.recorded) :
    Entrusted after grown
      (if manager.stage = .closed then newRanges pages result ++ taken else taken) kept := by
  have hgained := h.gain (nodup_map_base_newRanges pages result) hsettled.fresh
    (PageLedger.held_perm hhome hrecorded)
  rw [← ite_stage_eq_closed] at hgained
  exact hgained.of_perm hsettled.books

/-- An operation that frees nothing leaves alone what others keep. -/
theorem entrusted_unfreed_nil {ledger : PageLedger} (h : Entrusted live ledger taken kept) :
    Entrusted live ledger taken (unfreed [] kept) := by
  rwa [unfreed_nil]

/-- What an operation of any kind changes about the live ranges. -/
theorem Takes.entrusted {operation : Operation} {outcome : Manager × Handoff × Answer}
    (htakes : manager.Takes slot operation calls outcome)
    (h : Entrusted live manager.ledger taken kept)
    (hbooks : Books (fun range held => held.base = range.base) live calls after) :
    Entrusted after outcome.1.ledger (takenAfter manager.stage taken operation outcome.2.2)
      (unfreed (freedBase? operation outcome.2.2).toList kept) := by
  have hnames : NamesByBase fun range held => held.base = range.base :=
    ⟨fun _ => rfl, fun _ _ hbase => hbase⟩
  cases htakes with
  | refresh htrials =>
      rw [← List.append_nil (List.flatMap _ _)] at hbooks
      obtain ⟨hperm, hrefreshed⟩ := htrials.entrusted hnames h hbooks
      rw [ledger_afterTrials]
      exact entrusted_unfreed_nil (hrefreshed.of_perm hperm)
  | allocate hallocates =>
      rw [← List.append_nil calls] at hbooks
      exact entrusted_unfreed_nil (entrusted_of_settled h (hallocates.settled hnames hbooks)
        hallocates.registryRange?_eq fun _ => hallocates.recorded_perm)
  | allocateAnywhere hallocates =>
      rw [← List.append_nil calls] at hbooks
      exact entrusted_unfreed_nil (entrusted_of_settled h (hallocates.settled hnames hbooks)
        hallocates.registryRange?_eq fun _ => hallocates.recorded_perm)
  | @free range _ _ result hfrees =>
      obtain ⟨haccepted, hrefused⟩ := hfrees.entrusted h hbooks
      cases result with
      | error cause => exact entrusted_unfreed_nil (hrefused nofun)
      | ok value =>
          rw [← unfreed_singleton range.base kept] at haccepted
          exact haccepted rfl
  | allocatePool => exact entrusted_unfreed_nil (h.of_perm hbooks)
  | freePool => exact entrusted_unfreed_nil (h.of_perm hbooks)
  | publish => exact entrusted_unfreed_nil (h.of_perm hbooks)
  | teardown _ hcloses => exact entrusted_unfreed_nil (hcloses.entrusted h hbooks)
  | idle => exact entrusted_unfreed_nil (h.of_perm hbooks)

end Ways

/-! ## The whole life of a manager -/

section Operations

variable {σ : Type} {services : Services σ} {live : σ → List PageRange} {manager : Manager}
  {taken kept : List PageRange}

/-- What a run changes about the live ranges. -/
theorem entrusted_runAll (h : services.WellBehaved live) {firmware : σ}
    (hentrusted : Entrusted (live firmware) manager.ledger taken kept) (slot : Handoff)
    (operations : List Operation) :
    let run := (runAll services manager slot operations).run firmware
    Entrusted (live run.firmware) run.value.1.ledger
      (takenOver manager.stage taken operations run.value.2.2)
      (unfreed (freedBases operations run.value.2.2) kept) := by
  induction operations generalizing manager slot firmware taken kept with
  | nil =>
      show Entrusted _ _ taken (unfreed [] kept)
      rw [unfreed_nil]
      exact hentrusted
  | cons operation rest ih =>
      have hconducts : services.Conducts (step services manager slot operation) firmware _ :=
        conducts_step slot operation
      have hnext := hconducts.ends.entrusted hentrusted (h.books hconducts.dialogue)
      have hrest : Entrusted _ _ _ _ :=
        ih hnext ((step services manager slot operation).run firmware).value.2.1
      rw [hconducts.ends.stage_eq, ← unfreed_append] at hrest
      exact hrest

/-- After the end of a manager, the live ranges are those that it has taken without a record and
those that others keep. -/
theorem live_of_teardown (h : services.WellBehaved live) {firmware : σ}
    (hentrusted : Entrusted (live firmware) manager.ledger taken kept) (slot : Handoff) :
    (live ((teardown services manager slot).run firmware).firmware).Perm (taken ++ kept) := by
  have hconducts : services.Conducts (teardown services manager slot) firmware _ :=
    conducts_teardown slot
  have hended := hconducts.ends.entrusted hentrusted (h.books hconducts.dialogue)
  have hclosed := hconducts.ends.stage_eq.trans manager.stage.after_teardown
  have hperm := hended.perm_of_not_isReady (stage_eq_closed_iff.1 hclosed)
  exact hperm.trans (.of_eq (congrArg (taken ++ ·) (unfreed_nil kept)))

/-- A manager is ended and used again.  When it has left its place on a machine after that, the
live ranges are those that it has taken since its end and that its caller has not freed, and
those that others keep; nothing that it had recorded is left.  Others keep what was live at the
start, without what successful frees have named.  If the manager has not published again after
its end, the slot is as if it had never been touched, or empty if the manager had published
before. -/
theorem live_of_reuse (h : services.WellBehaved live) {start : σ}
    (hstart : ((live start).map PageRange.base).Nodup) (limits : Limits)
    (hcreated : ((create services limits).run start).value = .ok manager) (slot : Handoff)
    {before : List Operation} (hopen : .teardown ∉ before) (after : List Operation) :
    let operations := before ++ .teardown :: after
    let created := ((create services limits).run start).firmware
    let run := (runAll services manager slot operations).run created
    let taken := takenOver .silent [] operations run.value.2.2
    let kept := unfreed (freedBases operations run.value.2.2) (live start)
    ∀ (machine : Machine) (place : Nat), machine.manager? place = some run.value.1 →
      machine.handoff = run.value.2.1 →
        let dropped := (machine.vacate services place).run run.firmware
        (live dropped.firmware).Perm (taken ++ kept) ∧
          (.publish ∉ after → dropped.value.handoff =
            if .publish ∈ before then slot.clear else slot) := by
  intro operations created run taken kept machine place hplace hslot
  have hcreation : services.Conducts (create services limits) start _ := conducts_create limits
  have hcreates := hcreation.ends
  rw [hcreated] at hcreates
  have hsilent : manager.stage = .silent := hcreates.stage_eq
  obtain ⟨home, hledger⟩ := (ensures_create h hstart limits).ends manager hcreated
  have hrun := entrusted_runAll h (.of_answersFor hledger) slot operations
  rw [hsilent] at hrun
  have hclosed : run.value.1.stage = .closed := by
    rw [stage_runAll, List.foldl_append, List.foldl_cons, Stage.after_teardown,
      Stage.foldl_after_closed]
  refine ⟨?_, ?_⟩
  · rw [Machine.vacate, hplace]
    exact live_of_teardown h hrun machine.handoff
  · intro hquiet
    have hconducts : services.Conducts (machine.vacate services place) run.firmware _ :=
      Machine.conducts_vacate place
    have hopened : manager.stage ≠ .closed := by
      rw [hsilent]
      decide
    have hheard : (manager.stage = .heard ∨ .publish ∈ before) ↔ .publish ∈ before := by
      rw [hsilent]
      exact or_iff_right (by decide)
    rw [hconducts.ends.handoff_eq hplace hclosed, hslot,
      handoff_runAll_teardown services slot created hopen hquiet hopened]
    exact if_congr hheard rfl rfl

end Operations

/-- Used again after its end, a manager leaves the one range behind that its caller does not
free, beside a range of others that was there before; the map that it has published is gone. -/
theorem live_of_reuse_checkedArena :
    let start : Arena := { live := [{ base := 0x500000, pages := 2 }] }
    let before : List Operation :=
      [.allocate 0 3, .publish, .free { base := 0x100000, pages := 1 }]
    let after : List Operation :=
      [.allocate 0 1, .refresh, .allocateAnywhere 2, .free { base := 0x106000, pages := 1 },
        .teardown]
    .teardown ∉ before ∧ ∃ manager,
      ((create Arena.checkedServices {}).run start).value = .ok manager ∧
        let run := (runAll Arena.checkedServices manager {} (before ++ .teardown :: after)).run
          ((create Arena.checkedServices {}).run start).firmware
        let machine : Machine := { handoff := run.value.2.1, managers := [some run.value.1] }
        let dropped := (machine.vacate Arena.checkedServices 0).run run.firmware
        dropped.firmware.live ~
            [{ base := 0x109000, pages := 2 }, { base := 0x500000, pages := 2 }] ∧
          dropped.value.handoff = {} := by
  intro start before after
  have hopen : .teardown ∉ before := by decide
  -- evaluated once: what the manager has taken since its end, and what others keep
  have hvalue : ((create Arena.checkedServices {}).run start).value.toOption.map
      (fun manager =>
        let run := (runAll Arena.checkedServices manager {} (before ++ .teardown :: after)).run
          ((create Arena.checkedServices {}).run start).firmware
        takenOver .silent [] (before ++ .teardown :: after) run.value.2.2 ++
          unfreed (freedBases (before ++ .teardown :: after) run.value.2.2) start.live) =
        some [{ base := 0x109000, pages := 2 }, { base := 0x500000, pages := 2 }] := by
    decide +kernel
  cases hcreated : ((create Arena.checkedServices {}).run start).value with
  | error cause =>
      rw [hcreated] at hvalue
      cases hvalue
  | ok manager =>
      rw [hcreated] at hvalue
      have hlife := live_of_reuse Arena.wellBehaved_checkedServices (by decide) {} hcreated {}
        hopen after
      have hleft := Option.some.inj hvalue
      dsimp only at hlife hleft
      refine ⟨hopen, manager, rfl, ?_⟩
      dsimp only
      -- from here on it does not matter how the run goes
      generalize (runAll Arena.checkedServices manager {} (before ++ .teardown :: after)).run
        ((create Arena.checkedServices {}).run start).firmware = run at hlife hleft ⊢
      obtain ⟨hlive, hslot⟩ := hlife { handoff := run.value.2.1, managers := [some run.value.1] }
        0 rfl rfl
      rw [hleft] at hlive
      exact ⟨hlive, (hslot (by decide)).trans (if_pos (by decide))⟩

/-- A map that a manager has published after its end stays in the slot, whatever the firmware
answers: nothing that the manager does afterwards takes it back, not even a further end, nor does
the manager when it leaves its place. -/
theorem handoff_of_late_publish {σ : Type} (services : Services σ) (manager : Manager)
    (slot : Handoff) {before after : List Operation} (hended : .teardown ∈ before)
    (hquiet : .publish ∉ after) (start : σ) :
    let told := (runAll services manager slot before).run start
    let run := (runAll services manager slot (before ++ .publish :: after)).run start
    ∀ (machine : Machine) (place : Nat), machine.manager? place = some run.value.1 →
      machine.handoff = run.value.2.1 →
        ((machine.vacate services place).run run.firmware).value.handoff =
          told.value.2.1.publish told.value.1.map := by
  intro told run machine place hplace hslot
  have hclosed : run.value.1.stage = .closed := by
    rw [stage_runAll]
    exact Stage.foldl_after_of_mem _ (List.mem_append_left _ hended)
  have hconducts : services.Conducts (machine.vacate services place) run.firmware _ :=
    Machine.conducts_vacate place
  rw [hconducts.ends.handoff_eq hplace hclosed, hslot]
  exact handoff_runAll_publish services slot start (.inr hended) hquiet

/-- So it is not true that a manager leaves nothing behind when it is used again after its end:
the pages that it allocates then are not given back.  The pages are counted here as if the
manager had never recorded any. -/
theorem not_forall_clean_of_reuse :
    ¬ ∀ (start : Arena) (manager : Manager) (operations : List Operation),
      ((create Arena.checkedServices {}).run start).value = .ok manager →
        .teardown ∈ operations →
          let run := (runAll Arena.checkedServices manager {} operations).run
            ((create Arena.checkedServices {}).run start).firmware
          let machine : Machine := { handoff := run.value.2.1, managers := [some run.value.1] }
          let dropped := (machine.vacate Arena.checkedServices 0).run run.firmware
          (∀ range ∈ takenOver .closed [] operations run.value.2.2,
            range ∉ dropped.firmware.live) ∧ dropped.value.handoff = {} := by
  intro h
  let operations : List Operation := [.teardown, .allocate 0 1]
  -- evaluated once: an allocated range is live in the end
  have hvalue : ((create Arena.checkedServices {}).run {}).value.toOption.map
      (fun manager =>
        let run := (runAll Arena.checkedServices manager {} operations).run
          ((create Arena.checkedServices {}).run {}).firmware
        let machine : Machine := { handoff := run.value.2.1, managers := [some run.value.1] }
        let dropped := (machine.vacate Arena.checkedServices 0).run run.firmware
        decide (∃ range ∈ takenOver .closed [] operations run.value.2.2,
          range ∈ dropped.firmware.live)) = some true := by
    decide +kernel
  cases hcreated : ((create Arena.checkedServices {}).run {}).value with
  | error cause =>
      rw [hcreated] at hvalue
      cases hvalue
  | ok manager =>
      rw [hcreated] at hvalue
      obtain ⟨range, htaken, hlive⟩ := of_decide_eq_true (Option.some.inj hvalue)
      have hclean := h {} manager operations hcreated (by decide)
      exact hclean.1 range htaken hlive

end Manager

end BootMemory
