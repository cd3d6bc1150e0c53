import BootMemory.Proofs.Firmware.CheckedArena
import BootMemory.Proofs.Page.Bag
import BootMemory.Proofs.Page.Settlement

/-!
# Who may free the registry

The slots of a ledger lie in pages that the firmware granted.  No operation gives them back
before a teardown, except a free that names their base: it drops no record, but the request
goes to the firmware like any other, and the ledger goes on with slots in pages that are not
live any more.

Main results:

- Definition {lit}`PageLedger.SparesRegistry`: operations that do not free the registry.
- Theorem {lit}`PageLedger.registryRange_mem_live`: after such operations the registry's
  pages are live, and one free of their base takes them away under the ledger.
-/

open scoped List

namespace BootMemory.PageLedger

/-! ## Operations that spare the registry -/

/-- Whether an operation does not free the registry's pages by their base. -/
def Operation.Spares (home? : Option PageRange) : Operation → Prop
  | .free range => home?.map PageRange.base ≠ some range.base
  | _ => True

instance Operation.decidableSpares (home? : Option PageRange) (operation : Operation) :
    Decidable (operation.Spares home?) :=
  match operation with
  | .free range => inferInstanceAs (Decidable (home?.map PageRange.base ≠ some range.base))
  | .init | .allocate _ _ | .allocateAnywhere _ | .teardown => isTrue trivial

section Operations

variable {σ : Type} (services : Services σ)

/-- Whether operations in order do not free the pages of the registry that there is when their
turn comes. -/
def SparesRegistry (ledger : PageLedger) : List Operation → σ → Prop
  | [], _ => True
  | operation :: rest, firmware =>
      operation.Spares ledger.registryRange? ∧
        SparesRegistry ((step services ledger operation).run firmware).value.1 rest
          ((step services ledger operation).run firmware).firmware

instance decidableSparesRegistry (ledger : PageLedger) (operations : List Operation)
    (firmware : σ) : Decidable (SparesRegistry services ledger operations firmware) :=
  match operations with
  | [] => isTrue trivial
  | operation :: rest =>
      have := decidableSparesRegistry ((step services ledger operation).run firmware).value.1 rest
        ((step services ledger operation).run firmware).firmware
      inferInstanceAs (Decidable (_ ∧ _))

end Operations

/-! ## The registry is a live range -/

section Ways

variable {names : PageRange → PageRange → Prop} {live after : List PageRange}
  {calls : List Exchange} {ledger : PageLedger} {operation : Operation}
  {outcome : PageLedger × Answer} {home : PageRange} {pages : UInt64}

/-- An operation that spares the registry leaves its pages live. -/
theorem Takes.home_mem_live (hnames : NamesByBase names)
    (h : ledger.Takes operation calls outcome) (hspares : operation.Spares ledger.registryRange?)
    (hlive : ∀ home, ledger.registryRange? = some home → home ∈ live)
    (hbooks : Books names live calls after) (hready : outcome.1.registryRange? = some home) :
    home ∈ after := by
  rw [← List.append_nil calls] at hbooks
  cases h with
  | init h =>
      cases hregistry : ledger.registry with
      | none =>
          have hperm : after ~ _ := (h.settled hnames hregistry hbooks).books
          rw [hready] at hperm
          exact hperm.mem_iff.2 List.mem_cons_self
      | some registry =>
          cases h with
          | already =>
              have hperm : after ~ live := hbooks
              exact hperm.mem_iff.2 (hlive home hready)
          | failed hnone => cases hnone.symm.trans hregistry
          | unreachable hnone => cases hnone.symm.trans hregistry
          | ready hnone => cases hnone.symm.trans hregistry
  | allocate h =>
      have hperm : after ~ _ := (h.settled hnames hbooks).books
      exact hperm.mem_iff.2
        (List.mem_append_right _ (hlive home (h.registryRange?_eq.symm.trans hready)))
  | allocateAnywhere h =>
      have hperm : after ~ _ := (h.settled hnames hbooks).books
      exact hperm.mem_iff.2
        (List.mem_append_right _ (hlive home (h.registryRange?_eq.symm.trans hready)))
  | @free range _ _ _ h =>
      have hbefore := h.registryRange?_eq.symm.trans hready
      cases h with
      | refused hstatus =>
          have hperm : after ~ live := ((Books.freePages_of_ne_success hstatus).1 hbooks).2
          exact hperm.mem_iff.2 (hlive home hbefore)
      | released =>
          obtain ⟨held, remaining, hheld, hbooked, hrest⟩ :=
            (Books.freePages_of_success rfl).1 hbooks
          have hperm : after ~ remaining := hrest
          rcases List.mem_cons.1 (hbooked.mem_iff.1 (hlive home hbefore)) with rfl | hmem
          · rw [hbefore] at hspares
            exact (hspares (congrArg some (hnames.base_eq range home hheld))).elim
          · exact hperm.mem_iff.2 hmem
  | teardown h =>
      cases h with
      | idle hnone => cases (registryRange?_of_none hnone).symm.trans hready
      | closed => cases hready

/-- A free that names the base of the registry succeeds on a firmware that looks at the base
alone.  It takes the registry's pages, and the ledger stays as it was. -/
theorem Takes.free_home (h : ledger.Takes (.free { base := home.base, pages }) calls outcome)
    (hready : ledger.registryRange? = some home) (hlive : home ∈ live)
    (hbooks : Books (fun range held => held.base = range.base) live calls after) :
    outcome = (ledger, .outcome (.ok ())) ∧
      ((live.map PageRange.base).Nodup → home ∉ after) := by
  obtain ⟨registry, hregistry, rfl⟩ := Option.map_eq_some_iff.1 hready
  cases h with
  | free h =>
      cases h with
      | refused hstatus =>
          have hnone := ((Books.freePages_of_ne_success hstatus).1 hbooks).1
          exact (hnone registry.range hlive rfl).elim
      | released =>
          obtain ⟨held, remaining, hbase, hbooked, hrest⟩ :=
            (Books.freePages_of_success rfl).1 hbooks
          have hperm : after ~ remaining := hrest
          refine ⟨?_, ?_⟩
          · rw [forget, hregistry, Option.map_some, Registry.forget, if_pos rfl, ← hregistry]
          · intro hnodup hmem
            have hall := (hbooked.map PageRange.base).nodup_iff.1 hnodup
            rw [List.map_cons, List.nodup_cons, hbase] at hall
            exact hall.1 (List.mem_map.2 ⟨registry.range, hperm.mem_iff.1 hmem, rfl⟩)

end Ways

section Operations

variable {σ : Type} {services : Services σ} {live : σ → List PageRange}

/-- Operations that spare the registry leave its pages live. -/
theorem home_mem_live_runAll {names : PageRange → PageRange → Prop}
    (h : services.Accounts live names) {ledger : PageLedger} {operations : List Operation}
    {firmware : σ} (hspares : SparesRegistry services ledger operations firmware)
    (hlive : ∀ home, ledger.registryRange? = some home → home ∈ live firmware) :
    let run := (runAll services ledger operations).run firmware
    ∀ home, run.value.1.registryRange? = some home → home ∈ live run.firmware := by
  induction operations generalizing ledger firmware with
  | nil => exact hlive
  | cons operation rest ih =>
      obtain ⟨hfirst, hrest⟩ := hspares
      have hconducts : services.Conducts (step services ledger operation) firmware _ :=
        conducts_step operation
      have hbooks := h.books hconducts.dialogue
      apply ih hrest
      intro home hready
      exact hconducts.ends.home_mem_live h.namesByBase hfirst hlive hbooks hready

/-- On a well-behaved firmware the pages of a registry are live after any operations that
spare them.  Then a free of their base, whatever page count it names, succeeds and leaves the
ledger as it is: the registry stays in use while its pages are not live, if no two ranges
that were live at first have one base. -/
theorem registryRange_mem_live (h : services.WellBehaved live) (limits : Limits) (start : σ)
    {operations : List Operation}
    (hspares : SparesRegistry services (ofLimits limits) operations start) :
    let run := (runAll services (ofLimits limits) operations).run start
    ∀ home, run.value.1.registryRange? = some home → home ∈ live run.firmware ∧
      ∀ pages, let freed :=
          (step services run.value.1 (.free { base := home.base, pages })).run run.firmware
        freed.value = (run.value.1, .outcome (.ok ())) ∧
          (((live start).map PageRange.base).Nodup → home ∉ live freed.firmware) := by
  intro run home hready
  have hstart : ∀ home, (ofLimits limits).registryRange? = some home → home ∈ live start := by
    intro home hhome
    cases (registryRange?_of_none rfl).symm.trans hhome
  have hhome : home ∈ live run.firmware := home_mem_live_runAll h hspares hstart home hready
  refine ⟨hhome, ?_⟩
  intro pages freed
  have hrun : services.Conducts (runAll services (ofLimits limits) operations) start _ :=
    conducts_bag_runAll (sized_ofLimits limits) operations
  have hstep : services.Conducts
      (step services run.value.1 (.free { base := home.base, pages })) run.firmware _ :=
    conducts_step _
  obtain ⟨hvalue, hgone⟩ := hstep.ends.free_home hready hhome (h.books hstep.dialogue)
  refine ⟨hvalue, ?_⟩
  intro hnodup
  exact hgone ((h.books hrun.dialogue).nodup hnodup)

/-- A registry at one megabyte is live after an allocation and its free, and the next free
takes it away. -/
theorem registryRange_mem_live_checkedServices :
    let operations : List Operation :=
      [.init, .allocate 0 2, .free { base := 0x101000, pages := 2 }, .allocateAnywhere 1]
    let home : PageRange := { base := 0x100000, pages := 1 }
    let run := (runAll Arena.checkedServices (ofLimits {}) operations).run {}
    SparesRegistry Arena.checkedServices (ofLimits {}) operations {} ∧
      run.value.1.registryRange? = some home ∧ home ∈ run.firmware.live ∧
      home ∉ ((step Arena.checkedServices run.value.1 (.free home)).run
        run.firmware).firmware.live := by
  intro operations home run
  have hspares : SparesRegistry Arena.checkedServices (ofLimits {}) operations {} := by
    decide +kernel
  have hready : run.value.1.registryRange? = some home := by
    decide +kernel
  obtain ⟨hlive, hfree⟩ :=
    registryRange_mem_live Arena.wellBehaved_checkedServices {} {} hspares home hready
  exact ⟨hspares, hready, hlive, (hfree home.pages).2 List.nodup_nil⟩

/-- So it is not true of all operations that they leave the pages of the registry live. -/
theorem not_forall_registryRange_mem_live :
    ¬ ∀ (services : Services Arena) (live : Arena → List PageRange),
      services.WellBehaved live → ∀ (start : Arena) (operations : List Operation),
        let run := (runAll services (ofLimits {}) operations).run start
        ∀ home, run.value.1.registryRange? = some home → home ∈ live run.firmware := by
  intro h
  have hready : ((runAll Arena.checkedServices (ofLimits {})
      [.init, .free { base := 0x100000, pages := 1 }]).run {}).value.1.registryRange? =
        some { base := 0x100000, pages := 1 } := by
    decide +kernel
  have hgone : ((runAll Arena.checkedServices (ofLimits {})
      [.init, .free { base := 0x100000, pages := 1 }]).run {}).firmware.live = [] := by
    decide +kernel
  have hlive := h Arena.checkedServices Arena.live Arena.wellBehaved_checkedServices {} _ _ hready
  rw [hgone] at hlive
  cases hlive

end Operations

end BootMemory.PageLedger
