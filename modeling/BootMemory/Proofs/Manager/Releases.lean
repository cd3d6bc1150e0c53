import BootMemory.Machine
import BootMemory.Proofs.Firmware.CheckedArena
import BootMemory.Proofs.Manager.Requests

/-!
# No return is refused

A refused return is only reported, so a range that is returned twice, or with a wrong page
count, would go unnoticed.  On a firmware that keeps accounts this does not happen.  A
manager returns only ranges that it owns, and it owns each of them under a base that no other
live range has: the pages of its registry, and what its caller has allocated and not freed.
A caller who frees nothing else is not refused either.

Main results:

- Definition {lit}`Standing`: what a manager and its caller own.
- Definition {lit}`Manager.FreesOutstanding`: a caller who frees what is outstanding.
- Theorem {lit}`Manager.Takes.standing`: an operation is not refused a return and keeps the
  standing.
- Theorem {lit}`Manager.unrefused_life`: over the whole life of a manager no return is refused.
-/

open scoped List

namespace BootMemory

/-! ## Ranges of one's own -/

/-- Some live ranges are one's own: each has a base that no other live range has.  The others
may share bases among themselves. -/
structure Owns (live own others : List PageRange) : Prop where
  perm : live ~ own ++ others
  nodup : (own.map PageRange.base).Nodup
  apart : ∀ range ∈ own, range.base ∉ others.map PageRange.base

namespace Owns

variable {live own more others after : List PageRange} {range : PageRange}

theorem of_perm (h : Owns live own others) (hperm : after ~ live) : Owns after own others :=
  ⟨hperm.trans h.perm, h.nodup, h.apart⟩

theorem of_perm_own (h : Owns live own others) (hperm : own ~ more) : Owns live more others :=
  ⟨h.perm.trans (hperm.append_right others), (hperm.map PageRange.base).nodup_iff.1 h.nodup,
    fun range hmem => h.apart range (hperm.mem_iff.2 hmem)⟩

theorem base_mem_live (h : Owns live own others) (hmem : range ∈ own) :
    range.base ∈ live.map PageRange.base :=
  List.mem_map_of_mem (h.perm.mem_iff.2 (List.mem_append_left others hmem))

/-- What is granted can be owned. -/
theorem gain (h : Owns live own others) {gained : List PageRange}
    (hnodup : (gained.map PageRange.base).Nodup)
    (hfresh : ∀ range ∈ gained, range.base ∉ live.map PageRange.base)
    (hperm : after ~ gained ++ live) : Owns after (gained ++ own) others := by
  refine ⟨?_, ?_, ?_⟩
  · rw [List.append_assoc]
    exact hperm.trans (h.perm.append_left gained)
  · rw [List.map_append, List.nodup_append]
    refine ⟨hnodup, h.nodup, ?_⟩
    intro base hbase _ hown rfl
    obtain ⟨range, hmem, rfl⟩ := List.mem_map.1 hbase
    obtain ⟨held, hheld, heq⟩ := List.mem_map.1 hown
    exact hfresh range hmem (heq ▸ h.base_mem_live hheld)
  · intro range hmem
    rcases List.mem_append.1 hmem with hnew | hown
    · intro hothers
      apply hfresh range hnew
      rw [(h.perm.map PageRange.base).mem_iff, List.map_append]
      exact List.mem_append_right _ hothers
    · exact h.apart range hown

/-- No other live range has the base of an owned one. -/
theorem sole (h : Owns live (range :: own) others) :
    range.base ∉ (own ++ others).map PageRange.base := by
  rw [List.map_append, List.mem_append, not_or]
  exact ⟨(List.nodup_cons.1 h.nodup).1, h.apart range List.mem_cons_self⟩

/-- What is returned is owned no longer. -/
theorem lose (h : Owns live (range :: own) others) (hperm : after ~ own ++ others) :
    Owns after own others :=
  ⟨hperm, (List.nodup_cons.1 h.nodup).2,
    fun held hmem => h.apart held (List.mem_cons_of_mem range hmem)⟩

end Owns

theorem nodup_map_base_newRanges {ε : Type} (pages : UInt64) (result : Except ε UInt64) :
    ((newRanges pages result).map PageRange.base).Nodup := by
  cases result with
  | error cause => exact List.nodup_nil
  | ok base => exact List.nodup_singleton base

/-! ## The standing of a manager -/

/-- A ledger owns the pages of its registry, and its caller owns the outstanding ranges.  As
long as there is a registry, the outstanding ranges are the recorded ones. -/
structure Standing (live : List PageRange) (ledger : PageLedger)
    (outstanding others : List PageRange) : Prop where
  owns : Owns live (ledger.registryRange?.toList ++ outstanding) others
  recorded : ∀ home, ledger.registryRange? = some home → ledger.recorded ~ outstanding

section Standing

variable {names : PageRange → PageRange → Prop} {live after outstanding others : List PageRange}
  {ledger : PageLedger} {calls rest : List Exchange} {range : PageRange}

namespace Standing

theorem of_perm (h : Standing live ledger outstanding others) (hperm : after ~ live) :
    Standing after ledger outstanding others :=
  ⟨h.owns.of_perm hperm, h.recorded⟩

/-- What a ledger holds is live. -/
theorem held_subset (h : Standing live ledger outstanding others) :
    ledger.held.map PageRange.base ⊆ live.map PageRange.base := by
  intro base hbase
  obtain ⟨range, hmem, rfl⟩ := List.mem_map.1 hbase
  apply h.owns.base_mem_live
  cases hregistry : ledger.registry with
  | none =>
      rw [PageLedger.held_of_none hregistry] at hmem
      cases hmem
  | some registry =>
      have hhome : ledger.registryRange? = some registry.range := by
        rw [PageLedger.registryRange?, hregistry, Option.map_some]
      rcases List.mem_append.1 hmem with hfirst | hrecorded
      · exact List.mem_append_left _ hfirst
      · exact List.mem_append_right _ ((h.recorded _ hhome).mem_iff.1 hrecorded)

/-- An allocation adds to what is outstanding. -/
theorem gain (h : Standing live ledger outstanding others) {grown : PageLedger}
    {pages : UInt64} {result : Except MemoryError UInt64}
    (hhome : grown.registryRange? = ledger.registryRange?)
    (hrecorded : ∀ home, ledger.registryRange? = some home →
      grown.recorded ~ newRanges pages result ++ ledger.recorded)
    (hsettled : Settled names live calls (newRanges pages result) [] after) :
    Standing after grown (newRanges pages result ++ outstanding) others := by
  refine ⟨?_, ?_⟩
  · rw [hhome]
    exact (h.owns.gain (nodup_map_base_newRanges pages result) hsettled.fresh
      hsettled.books).of_perm_own (List.perm_append_comm_assoc _ _ _)
  · intro home hready
    rw [hhome] at hready
    exact (hrecorded home hready).trans ((h.recorded home hready).append_left _)

end Standing

/-- Freeing an outstanding range is not refused, and then the range is outstanding no
longer. -/
theorem PageLedger.Frees.standing (hnames : NamesByBase names)
    (h : Standing live ledger outstanding others)
    {outcome : PageLedger × Except MemoryError Unit} (hfrees : ledger.Frees range calls outcome)
    (hmem : range ∈ outstanding) (hbooks : Books names live calls after) :
    Unrefused calls ∧ outcome.2 = .ok () ∧
      Standing after outcome.1 (outstanding.erase range) others := by
  have hfirst : outstanding ~ range :: outstanding.erase range := List.perm_cons_erase hmem
  have howns : Owns live (range :: (ledger.registryRange?.toList ++ outstanding.erase range))
      others :=
    h.owns.of_perm_own ((hfirst.append_left _).trans List.perm_middle)
  have hreturned := hbooks.of_perm howns.perm
  cases hfrees with
  | refused hstatus => exact (hstatus (Books.returned hnames howns.sole hreturned).1).elim
  | released =>
      have hperm : after ~ _ := (Books.returned hnames howns.sole hreturned).2
      refine ⟨unrefused_freePages_singleton rfl, rfl, ?_, ?_⟩
      · rw [registryRange?_forget]
        exact howns.lose hperm
      -- the records have no other range with this base, so the right one is dropped
      · intro home hready
        rw [registryRange?_forget] at hready
        have hnodup := h.owns.nodup
        rw [hready, Option.toList_some, List.singleton_append, List.map_cons,
          List.nodup_cons] at hnodup
        obtain ⟨hhome, hbases⟩ := hnodup
        have hrecorded := (h.recorded home hready).trans hfirst
        obtain ⟨registry, hregistry, rfl⟩ := Option.map_eq_some_iff.1 hready
        have hother : registry.range.base ≠ range.base := fun heq =>
          hhome (heq ▸ List.mem_map_of_mem hmem)
        rw [recorded, hregistry] at hrecorded
        rw [recorded, forget, hregistry]
        exact Registry.recorded_forget_of_perm hrecorded
          ((hfirst.map PageRange.base).nodup_iff.1 hbases) hother

theorem unrefused_map_freePages (ranges : List PageRange) :
    Unrefused (ranges.map fun range => .freePages range .success) := by
  intro range status hmem
  obtain ⟨_, _, heq⟩ := List.mem_map.1 hmem
  exact (Exchange.freePages.inj heq).2.symm

/-- The end of a registry is not refused a return, and what it returned is outstanding no
longer. -/
theorem PageLedger.Closes.standing (hnames : NamesByBase names)
    (h : Standing live ledger outstanding others) {closed : PageLedger}
    (hcloses : ledger.Closes calls closed) (hbooks : Books names live calls after) :
    Unrefused calls ∧ Standing after closed
      (outstanding.filter fun range => .freePages range .success ∉ calls) others := by
  cases hcloses with
  | idle =>
      have hkept : (outstanding.filter fun range =>
          Exchange.freePages range .success ∉ ([] : List Exchange)) = outstanding :=
        List.filter_eq_self.2 fun _ _ => decide_eq_true List.not_mem_nil
      rw [hkept]
      exact ⟨unrefused_nil, h.of_perm hbooks⟩
  | @closed registry _ hregistry hreturns =>
      have hhome : ledger.registryRange? = some registry.range := by
        rw [registryRange?, hregistry, Option.map_some]
      have hrecorded := h.recorded _ hhome
      rw [recorded, hregistry] at hrecorded
      have howns := h.owns
      rw [hhome, Option.toList_some] at howns
      -- the order of the returns: the records first, the registry's own pages last
      have hall := howns.of_perm_own
        ((hrecorded.symm.append_left [registry.range]).trans List.perm_append_comm)
      have hreturned := hbooks.of_perm hall.perm
      rw [← List.append_nil calls] at hreturned
      obtain ⟨rfl, hperm⟩ := hreturns.settled hnames hall.nodup hall.apart hreturned
      have hgone : (outstanding.filter fun range => Exchange.freePages range .success ∉
          (registry.recorded ++ [registry.range]).map fun range =>
            Exchange.freePages range .success) = [] := by
        apply List.filter_eq_nil_iff.2
        intro range hmem
        rw [decide_eq_true_iff, not_not]
        exact List.mem_map_of_mem (List.mem_append_left _ (hrecorded.mem_iff.2 hmem))
      rw [hgone]
      refine ⟨unrefused_map_freePages _, ⟨hperm, List.nodup_nil, ?_⟩, ?_⟩
      · intro range hmem
        cases hmem
      · intro home hready
        cases hready

/-! ## Attempts at a map -/

/-- An attempt at a map is not refused a return, and it leaves neither a live range nor a
record behind. -/
theorem Attempt.Runs.settled (hnames : NamesByBase names) {attempt : Attempt}
    {tried : PageLedger} (h : attempt.Runs ledger tried)
    (hheld : ledger.held.map PageRange.base ⊆ live.map PageRange.base)
    (hbooks : Books names live (attempt.calls ++ rest) after) :
    Unrefused attempt.calls ∧ Books names live rest after ∧ tried = ledger := by
  cases h with
  | unallocated h =>
      have hsettled := h.settled hnames hbooks
      exact ⟨hsettled.unrefused, hsettled.books, rfl⟩
  | returned h =>
      rw [Attempt.calls, List.append_assoc] at hbooks
      have hsettled := h.settled hnames hbooks
      have hfresh := hsettled.fresh _ List.mem_cons_self
      obtain ⟨_, hrest⟩ := Books.returned hnames hfresh hsettled.books
      refine ⟨unrefused_append.2 ⟨hsettled.unrefused, ?_⟩, hrest, ?_⟩
      · exact .cons_of_ne (unrefused_freePages_singleton rfl) nofun
      · exact h.forget_eq fun hmem => hfresh (hheld hmem)
  | kept h _ hkept =>
      rw [Attempt.calls, List.append_assoc] at hbooks
      have hsettled := h.settled hnames hbooks
      have hfresh := hsettled.fresh _ List.mem_cons_self
      exact (hkept (Books.returned hnames hfresh hsettled.books).1).elim

/-- So do attempts in order. -/
theorem Trials.settled (hnames : NamesByBase names) {left : Nat} {bytes : UInt64}
    {attempts : List Attempt} {outcome : PageLedger × Except MemoryError E820.LegacyMap}
    (h : Trials left ledger bytes attempts outcome)
    (hheld : ledger.held.map PageRange.base ⊆ live.map PageRange.base)
    (hbooks : Books names live (attempts.flatMap Attempt.calls ++ rest) after) :
    Unrefused (attempts.flatMap Attempt.calls) ∧ Books names live rest after ∧
      outcome.1 = ledger := by
  induction h with
  | exhausted => exact ⟨unrefused_nil, hbooks, rfl⟩
  | failed hruns =>
      rw [List.flatMap_singleton] at hbooks ⊢
      exact hruns.settled hnames hheld hbooks
  | converted hruns =>
      rw [List.flatMap_singleton] at hbooks ⊢
      exact hruns.settled hnames hheld hbooks
  | short hruns _ _ ih =>
      rw [List.flatMap_cons, List.append_assoc] at hbooks
      obtain ⟨hfirst, hrest, rfl⟩ := hruns.settled hnames hheld hbooks
      obtain ⟨hunrefused, hlast, hledger⟩ := ih hheld hrest
      rw [List.flatMap_cons]
      exact ⟨unrefused_append.2 ⟨hfirst, hunrefused⟩, hlast, hledger⟩

end Standing

namespace Manager

/-! ## What a caller may free -/

/-- Whether an operation frees nothing but an outstanding range. -/
def Operation.FreesOnly (outstanding : List PageRange) : Operation → Prop
  | .free range => range ∈ outstanding
  | _ => True

instance Operation.decidableFreesOnly (outstanding : List PageRange) (operation : Operation) :
    Decidable (operation.FreesOnly outstanding) :=
  match operation with
  | .free range => inferInstanceAs (Decidable (range ∈ outstanding))
  | .refresh | .allocate _ _ | .allocateAnywhere _ | .allocatePool _ | .freePool _ | .publish
  | .teardown => isTrue trivial

/-- What is outstanding after an operation: ranges that the caller has allocated, and that
neither a free nor a teardown has returned since. -/
def outstandingAfter (outstanding : List PageRange) :
    Operation → Answer → List Exchange → List PageRange
  | .allocate _ pages, .address result, _ => newRanges pages result ++ outstanding
  | .allocateAnywhere pages, .address result, _ => newRanges pages result ++ outstanding
  | .free range, .outcome (.ok ()), _ => outstanding.erase range
  | .teardown, _, calls =>
      outstanding.filter fun range => .freePages range .success ∉ calls
  | _, _, _ => outstanding

section Callers

variable {σ : Type} (services : Services σ)

/-- A caller who frees only what is outstanding when the turn of the free comes. -/
def FreesOutstanding (manager : Manager) (slot : Handoff) (outstanding : List PageRange) :
    List Operation → σ → Prop
  | [], _ => True
  | operation :: rest, firmware =>
      let next := (step services manager slot operation).run firmware
      operation.FreesOnly outstanding ∧
        FreesOutstanding next.value.1 next.value.2.1
          (outstandingAfter outstanding operation next.value.2.2 next.exchanges) rest
          next.firmware

instance decidableFreesOutstanding (manager : Manager) (slot : Handoff)
    (outstanding : List PageRange) (operations : List Operation) (firmware : σ) :
    Decidable (FreesOutstanding services manager slot outstanding operations firmware) :=
  match operations with
  | [] => isTrue trivial
  | operation :: rest =>
      let next := (step services manager slot operation).run firmware
      have := decidableFreesOutstanding next.value.1 next.value.2.1
        (outstandingAfter outstanding operation next.value.2.2 next.exchanges) rest next.firmware
      inferInstanceAs (Decidable (_ ∧ _))

end Callers

/-! ## Operations -/

section Ways

variable {names : PageRange → PageRange → Prop} {live after outstanding others : List PageRange}
  {calls : List Exchange} {manager : Manager} {slot : Handoff}

theorem ledger_afterTrials (manager : Manager)
    (outcome : PageLedger × Except MemoryError E820.LegacyMap) :
    (manager.afterTrials outcome).1.ledger = outcome.1 := by
  obtain ⟨ledger, result⟩ := outcome
  cases result with
  | error cause => rfl
  | ok map => rfl

/-- A new manager was not refused a return, and owns nothing but its registry. -/
theorem Creates.standing (hnames : NamesByBase names) {limits : Limits}
    {result : Except MemoryError Manager} (h : Creates limits calls result)
    (hbooks : Books names live calls after) :
    Unrefused calls ∧ ∀ manager, result = .ok manager → Standing after manager.ledger [] live := by
  cases h with
  | failed h =>
      rw [← List.append_nil calls] at hbooks
      refine ⟨(h.settled hnames rfl hbooks).unrefused, ?_⟩
      intro manager hmanager
      cases hmanager
  | @made _ ledger attempts outcome h htrials =>
      have hopened := h.settled hnames rfl hbooks
      have hempty : Owns live [] live := ⟨.refl _, List.nodup_nil, nofun⟩
      have hnodup : (ledger.registryRange?.toList.map PageRange.base).Nodup := by
        cases ledger.registryRange? with
        | none => exact List.nodup_nil
        | some home => exact List.nodup_singleton home.base
      have hstanding : Standing (ledger.registryRange?.toList ++ live) ledger [] live :=
        ⟨hempty.gain hnodup hopened.fresh (.refl _), fun _ _ => .of_eq (h.recorded_eq_nil rfl)⟩
      have hbooked := hopened.books
      rw [← List.append_nil (attempts.flatMap Attempt.calls)] at hbooked
      obtain ⟨hunrefused, hperm, hledger⟩ :=
        htrials.settled hnames hstanding.held_subset hbooked
      refine ⟨unrefused_append.2 ⟨hopened.unrefused, hunrefused⟩, ?_⟩
      intro manager hmanager
      obtain rfl := Except.ok.inj hmanager
      rw [ledger_afterTrials, hledger]
      exact hstanding.of_perm hperm

/-- An operation is not refused a return, and keeps the standing of the manager, if the caller
frees only what is outstanding. -/
theorem Takes.standing (hnames : NamesByBase names)
    (h : Standing live manager.ledger outstanding others) {operation : Operation}
    {outcome : Manager × Handoff × Answer} (htakes : manager.Takes slot operation calls outcome)
    (hfrees : operation.FreesOnly outstanding) (hbooks : Books names live calls after) :
    Unrefused calls ∧ Standing after outcome.1.ledger
      (outstandingAfter outstanding operation outcome.2.2 calls) others := by
  cases htakes with
  | @refresh attempts _ htrials =>
      rw [← List.append_nil (attempts.flatMap Attempt.calls)] at hbooks
      obtain ⟨hunrefused, hperm, hledger⟩ := htrials.settled hnames h.held_subset hbooks
      rw [ledger_afterTrials, hledger]
      exact ⟨hunrefused, h.of_perm hperm⟩
  | allocate hallocates =>
      rw [← List.append_nil calls] at hbooks
      have hsettled := hallocates.settled hnames hbooks
      exact ⟨hsettled.unrefused, h.gain hallocates.registryRange?_eq
        (fun _ hready => hallocates.recorded_perm hready) hsettled⟩
  | allocateAnywhere hallocates =>
      rw [← List.append_nil calls] at hbooks
      have hsettled := hallocates.settled hnames hbooks
      exact ⟨hsettled.unrefused, h.gain hallocates.registryRange?_eq
        (fun _ hready => hallocates.recorded_perm hready) hsettled⟩
  | free hfreed =>
      obtain ⟨hunrefused, rfl, hstanding⟩ := hfreed.standing hnames h hfrees hbooks
      exact ⟨hunrefused, hstanding⟩
  | allocatePool => exact ⟨unrefused_nil.cons_of_ne nofun, h.of_perm hbooks⟩
  | freePool => exact ⟨unrefused_nil.cons_of_ne nofun, h.of_perm hbooks⟩
  | publish => exact ⟨unrefused_nil, h.of_perm hbooks⟩
  | teardown _ hcloses => exact hcloses.standing hnames h hbooks
  | idle hidle =>
      have hnone : manager.ledger.registry = none := Option.not_isSome_iff_eq_none.1 (by
        rw [← PageLedger.isReady, hidle]
        exact Bool.false_ne_true)
      exact (PageLedger.Closes.idle hnone).standing hnames h hbooks

end Ways

/-! ## The life of a manager -/

section Operations

variable {σ : Type} {services : Services σ} {live : σ → List PageRange}
  {names : PageRange → PageRange → Prop} {manager : Manager}

theorem exchanges_runAll_cons (services : Services σ) (manager : Manager) (slot : Handoff)
    (operation : Operation) (rest : List Operation) (firmware : σ) :
    let next := (step services manager slot operation).run firmware
    ((runAll services manager slot (operation :: rest)).run firmware).exchanges =
      next.exchanges ++
        ((runAll services next.value.1 next.value.2.1 rest).run next.firmware).exchanges := by
  intro next
  rw [runAll, Boot.exchanges_bind, Boot.exchanges_bind]
  exact congrArg (next.exchanges ++ ·) (List.append_nil _)

/-- A run in which the caller frees only what is outstanding is not refused a return. -/
theorem standing_runAll (h : services.Accounts live names) {slot : Handoff}
    {outstanding others : List PageRange} {operations : List Operation} {firmware : σ}
    (hstanding : Standing (live firmware) manager.ledger outstanding others)
    (hfrees : FreesOutstanding services manager slot outstanding operations firmware) :
    let run := (runAll services manager slot operations).run firmware
    Unrefused run.exchanges ∧
      ∃ left, Standing (live run.firmware) run.value.1.ledger left others := by
  induction operations generalizing manager slot outstanding firmware with
  | nil => exact ⟨unrefused_nil, outstanding, hstanding⟩
  | cons operation rest ih =>
      obtain ⟨hfirst, hrest⟩ := hfrees
      have hstep : services.Conducts (step services manager slot operation) firmware _ :=
        conducts_step slot operation
      obtain ⟨hunrefused, hnext⟩ :=
        hstep.ends.standing h.namesByBase hstanding hfirst (h.books hstep.dialogue)
      obtain ⟨hothers, hlast⟩ := ih hnext hrest
      refine ⟨?_, hlast⟩
      rw [exchanges_runAll_cons]
      exact unrefused_append.2 ⟨hunrefused, hothers⟩

/-- The end of a manager is not refused a return. -/
theorem unrefused_teardown (h : services.Accounts live names) {slot : Handoff}
    {outstanding others : List PageRange} {firmware : σ}
    (hstanding : Standing (live firmware) manager.ledger outstanding others) :
    Unrefused ((teardown services manager slot).run firmware).exchanges := by
  have hconducts : services.Conducts (teardown services manager slot) firmware _ :=
    conducts_teardown slot
  exact (hconducts.ends.standing h.namesByBase hstanding trivial
    (h.books hconducts.dialogue)).1

/-- On a strict firmware, no return of pages is refused in the whole life of a manager, from
its creation until it leaves its place on a machine, if its caller frees only ranges that an
allocation has answered and that were not returned since. -/
theorem unrefused_life (h : services.Strict live) (limits : Limits) (start : σ)
    (slot : Handoff) {operations : List Operation}
    (hfrees : ∀ manager, ((create services limits).run start).value = .ok manager →
      FreesOutstanding services manager slot [] operations
        ((create services limits).run start).firmware) :
    let created := (create services limits).run start
    Unrefused created.exchanges ∧ ∀ manager, created.value = .ok manager →
      let run := (runAll services manager slot operations).run created.firmware
      Unrefused run.exchanges ∧
        ∀ (machine : Machine) (place : Nat), machine.manager? place = some run.value.1 →
          Unrefused ((machine.vacate services place).run run.firmware).exchanges := by
  intro created
  have hcreation : services.Conducts (create services limits) start _ := conducts_create limits
  obtain ⟨hunrefused, hstanding⟩ :=
    hcreation.ends.standing h.namesByBase (h.books hcreation.dialogue)
  refine ⟨hunrefused, ?_⟩
  intro manager hcreated run
  obtain ⟨hrun, left, hlast⟩ :=
    standing_runAll h (hstanding manager hcreated) (hfrees manager hcreated)
  refine ⟨hrun, ?_⟩
  intro machine place hplace
  rw [Machine.vacate, hplace]
  dsimp only
  rw [Boot.exchanges_bind]
  exact unrefused_append.2 ⟨unrefused_teardown h hlast, unrefused_nil⟩

/-- With two slots, the third allocation is returned; the caller frees one range before the
teardown, and one that was allocated after it. -/
theorem unrefused_life_strictServices :
    let created := (create Arena.strictServices { registryBytes := 48, memoryMapBytes := 1 }).run {}
    let operations : List Operation :=
      [.allocate 0 3, .allocateAnywhere 1, .allocate 0 1, .refresh,
        .free { base := 0x102000, pages := 3 }, .teardown, .allocate 0 2,
        .free { base := 0x108000, pages := 2 }]
    ∃ manager, created.value = .ok manager ∧
      FreesOutstanding Arena.strictServices manager {} [] operations created.firmware ∧
      Unrefused ((runAll Arena.strictServices manager {} operations).run
        created.firmware).exchanges := by
  intro created operations
  -- evaluated once: that there is a manager, and what its caller frees
  have hvalue : (created.value.toOption.map fun manager =>
      decide (FreesOutstanding Arena.strictServices manager {} [] operations
        created.firmware)) = some true := by
    decide +kernel
  cases hcreated : created.value with
  | error cause =>
      rw [hcreated] at hvalue
      cases hvalue
  | ok manager =>
      rw [hcreated] at hvalue
      have hfrees := of_decide_eq_true (Option.some.inj hvalue)
      have hall : ∀ other, created.value = .ok other →
          FreesOutstanding Arena.strictServices other {} [] operations created.firmware := by
        intro other hother
        obtain rfl := Except.ok.inj (hcreated.symm.trans hother)
        exact hfrees
      obtain ⟨_, hlife⟩ := unrefused_life Arena.strict_strictServices
        { registryBytes := 48, memoryMapBytes := 1 } {} {} hall
      exact ⟨manager, rfl, hfrees, (hlife manager hcreated).1⟩

end Operations

end Manager

end BootMemory
