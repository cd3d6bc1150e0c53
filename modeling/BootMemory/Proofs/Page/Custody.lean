import BootMemory.Page.Ledger
import BootMemory.Proofs.Page.Records

/-!
# The custody of a ledger

A ledger holds the pages of its registry and the ranges that are recorded there.  On a
firmware that keeps accounts, every operation of a ledger with a registry leaves it
that way, on success and on every kind of failure, and what others keep stays live
unless it is freed by its base.  None of the ledger's own releases is refused.

Main results:

- Theorem {lit}`PageLedger.ensures_obtain`: a placed grant is the only range that
  remains from a placed request, also when the firmware first grants page zero.
- Theorems {lit}`PageLedger.ensures_allocate`, {lit}`PageLedger.ensures_allocateAnywhere`
  and {lit}`PageLedger.ensures_free_any`: operations keep the custody.
- Theorem {lit}`PageLedger.ensures_teardown`: after a teardown nothing is held.
-/

namespace BootMemory.PageLedger

open Boot (Ensures)

theorem isReady_eq (ledger : PageLedger) : ledger.isReady = ledger.registryRange?.isSome := by
  rw [isReady, registryRange?, Option.isSome_map]

theorem isReady_congr {ledger other : PageLedger}
    (h : ledger.registryRange? = other.registryRange?) : ledger.isReady = other.isReady := by
  rw [isReady_eq, isReady_eq, h]

/-- All ranges that a ledger answers for. -/
def held (ledger : PageLedger) : List PageRange :=
  ledger.registryRange?.toList ++ ledger.recorded

theorem held_of_registry {ledger : PageLedger} {registry : Registry}
    (h : ledger.registry = some registry) :
    ledger.held = registry.range :: registry.recorded := by
  simp [held, registryRange?, recorded, h]

theorem held_of_none {ledger : PageLedger} (h : ledger.registry = none) : ledger.held = [] := by
  simp [held, registryRange?, recorded, h]

/-- A ledger has its registry in a range and holds what is live, apart from what others
keep. -/
structure AnswersFor (ledger : PageLedger) (range : PageRange) (live kept : List PageRange) :
    Prop where
  registryRange?_eq : ledger.registryRange? = some range
  custody : Custody live ledger.held kept

namespace AnswersFor

variable {ledger : PageLedger} {range : PageRange} {live after kept : List PageRange}

theorem exists_registry (h : ledger.AnswersFor range live kept) :
    ∃ registry, ledger.registry = some registry ∧ registry.range = range :=
  Option.map_eq_some_iff.1 h.registryRange?_eq

/-- Forgetting the records with a base keeps up with the return of what has that base. -/
theorem forget (h : ledger.AnswersFor range live kept) {base : UInt64} (hother : range.base ≠ base)
    {rest : List PageRange} (hafter : Custody after (withoutBase base ledger.held) rest) :
    (ledger.forget base).AnswersFor range after rest := by
  obtain ⟨registry, hregistry, rfl⟩ := h.exists_registry
  have hforgotten : (ledger.forget base).registry = some (registry.forget base) := by
    rw [PageLedger.forget, hregistry]
    rfl
  have hnodup : (registry.recorded.map PageRange.base).Nodup := by
    have hall := h.custody.nodup_append
    rw [held_of_registry hregistry, List.cons_append, List.map_cons, List.map_append] at hall
    exact (List.nodup_append.1 (List.nodup_cons.1 hall).2).1
  rw [held_of_registry hregistry, withoutBase_cons_of_ne hother] at hafter
  refine ⟨?_, ?_⟩
  · rw [registryRange?, hforgotten, Option.map_some, Registry.range_forget]
  · rw [held_of_registry hforgotten, Registry.range_forget,
      Registry.recorded_forget hnodup hother]
    exact hafter

/-- The registry has another base than each record. -/
theorem base_ne_of_mem_recorded (h : ledger.AnswersFor range live kept) {other : PageRange}
    (hmem : other ∈ ledger.recorded) : range.base ≠ other.base := by
  have hall := h.custody.nodup_append
  rw [held, h.registryRange?_eq, Option.toList_some, List.singleton_append, List.cons_append,
    List.map_cons, List.nodup_cons] at hall
  intro heq
  exact hall.1 (heq ▸ List.mem_map_of_mem (List.mem_append_left kept hmem))

end AnswersFor

section Operations

variable {σ : Type} {services : Services σ} {live : σ → List PageRange}
  {names : PageRange → PageRange → Prop} {held kept : List PageRange} {firmware : σ}
  {ledger : PageLedger} {registryRange : PageRange}

/-! ## Grants -/

/-- A held range that is given back is held no longer. -/
theorem ensures_giveBack (h : services.Accounts live names) {range : PageRange}
    (hcustody : Custody (live firmware) (range :: held) kept) (complaint : Status → Message) :
    Ensures Event.IsUnrefused (giveBack services range complaint) firmware
      fun _ after => Custody (live after) held kept := by
  refine (h.ensures_releasePages hcustody List.mem_cons_self).bind ?_
  rintro _ after ⟨rfl, hafter⟩
  rw [hcustody.withoutBase_held] at hafter
  exact Ensures.pure hafter

/-- After a grant at address zero, either the second grant is held or nothing new is. -/
theorem ensures_askPastPageZero (h : services.Accounts live names) {pages : UInt64}
    (hcustody : Custody (live firmware) ({ base := 0, pages } :: held) kept) :
    Ensures Event.IsUnrefused (askPastPageZero services ledger pages) firmware
      fun result after => Custody (live after) (newRanges pages result ++ held) kept := by
  refine Ensures.note_bind trivial ?_
  refine (h.ensures_requestPages hcustody _ _ _).bind ?_
  intro second after hsecond
  refine (ensures_giveBack h (hsecond.of_perm_held List.perm_middle) _).bind ?_
  intro _ last hlast
  cases second with
  | error status => exact Ensures.pure hlast
  | ok base =>
      dsimp only
      by_cases hzero : base = 0
      · subst hzero
        rw [if_pos rfl]
        refine (ensures_giveBack h hlast _).bind ?_
        intro _ final hfinal
        exact Ensures.pure hfinal
      · rw [if_neg hzero]
        exact Ensures.pure hlast

/-- A placed request leaves its grant behind, and nothing when it fails. -/
theorem ensures_obtain (h : services.Accounts live names)
    (hcustody : Custody (live firmware) held kept) (address pages : UInt64) :
    Ensures Event.IsUnrefused (obtain services ledger address pages) firmware
      fun result after => Custody (live after) (newRanges pages result ++ held) kept := by
  unfold obtain
  by_cases habove : ledger.ceiling < address
  · rw [if_pos habove]
    exact Ensures.pure hcustody
  · rw [if_neg habove]
    refine (h.ensures_requestPages hcustody _ _ _).bind ?_
    intro first after hfirst
    cases first with
    | error status => exact Ensures.pure hfirst
    | ok base =>
        dsimp only
        by_cases hzero : base = 0
        · subst hzero
          rw [if_pos rfl]
          exact ensures_askPastPageZero h hfirst
        · rw [if_neg hzero]
          exact Ensures.pure hfirst

/-- A granted range is recorded, or it is given back. -/
theorem ensures_record (h : services.Accounts live names) {range : PageRange}
    (hready : ledger.registryRange? = some registryRange)
    (hcustody : Custody (live firmware) (range :: ledger.held) kept) :
    Ensures Event.IsUnrefused (record services ledger range) firmware fun outcome after =>
      outcome.1.AnswersFor registryRange (live after) kept ∧
        newRanges range.pages outcome.2 ⊆ outcome.1.recorded := by
  obtain ⟨registry, hregistry, rfl⟩ := Option.map_eq_some_iff.1 hready
  simp only [record, hregistry]
  cases hstore : registry.store? range with
  | none =>
      refine Ensures.note_bind trivial ?_
      refine (ensures_giveBack h hcustody _).bind ?_
      intro _ after hafter
      exact Ensures.pure ⟨⟨hready, hafter⟩, List.nil_subset _⟩
  | some stored =>
      have hperm := Registry.recorded_store? hstore
      have hheld : (range :: ledger.held).Perm (stored.range :: stored.recorded) := by
        rw [held_of_registry hregistry, Registry.range_store? hstore]
        exact (List.Perm.swap _ _ _).trans (hperm.symm.cons registry.range)
      refine Ensures.pure ⟨⟨?_, ?_⟩, ?_⟩
      · exact congrArg some (Registry.range_store? hstore)
      · rw [held_of_registry rfl]
        exact hcustody.of_perm_held hheld
      · exact List.cons_subset.2 ⟨hperm.mem_iff.2 List.mem_cons_self, List.nil_subset _⟩

/-! ## Operations -/

/-- A new registry is the first thing that a ledger holds. -/
theorem ensures_init (h : services.Accounts live names) (hnone : ledger.registry = none)
    (hcustody : Custody (live firmware) [] kept) :
    Ensures Event.IsUnrefused (init services ledger) firmware fun outcome after =>
      Custody (live after) outcome.1.held kept ∧
        (outcome.2 = .ok () → ∃ range, outcome.1.registryRange? = some range) := by
  simp only [init, hnone]
  refine (ensures_obtain h hcustody _ _).bind ?_
  intro result after hafter
  cases result with
  | error cause =>
      refine Ensures.note_bind trivial (Ensures.pure ⟨?_, ?_⟩)
      · rw [held_of_none hnone]
        exact hafter
      · intro hresult
        cases hresult
  | ok base =>
      refine (h.ensures_reachable hafter base).bind ?_
      intro reached last hlast
      cases reached with
      | true =>
          refine Ensures.note_bind trivial (Ensures.pure ⟨?_, ?_⟩)
          · rw [held_of_registry rfl, Registry.recorded_ofStorage]
            exact hlast
          · intro _
            exact ⟨_, rfl⟩
      | false =>
          refine (ensures_giveBack h hlast _).bind ?_
          intro _ final hfinal
          refine Ensures.pure ⟨?_, ?_⟩
          · rw [held_of_none hnone]
            exact hfinal
          · intro hresult
            cases hresult

/-- A placed allocation keeps the custody and records what it returns. -/
theorem ensures_allocate (h : services.Accounts live names)
    (hledger : ledger.AnswersFor registryRange (live firmware) kept) (address pages : UInt64) :
    Ensures Event.IsUnrefused (allocate services ledger address pages) firmware
      fun outcome after => outcome.1.AnswersFor registryRange (live after) kept ∧
        newRanges pages outcome.2 ⊆ outcome.1.recorded := by
  refine (ensures_obtain h hledger.custody address pages).bind ?_
  intro result after hafter
  cases result with
  | error cause =>
      exact Ensures.pure ⟨⟨hledger.registryRange?_eq, hafter⟩, List.nil_subset _⟩
  | ok base => exact ensures_record h hledger.registryRange?_eq hafter

/-- So does an allocation anywhere in memory. -/
theorem ensures_allocateAnywhere (h : services.Accounts live names)
    (hledger : ledger.AnswersFor registryRange (live firmware) kept) (pages : UInt64) :
    Ensures Event.IsUnrefused (allocateAnywhere services ledger pages) firmware
      fun outcome after => outcome.1.AnswersFor registryRange (live after) kept ∧
        newRanges pages outcome.2 ⊆ outcome.1.recorded := by
  refine (h.ensures_requestPages hledger.custody _ _ _).bind ?_
  intro result after hafter
  cases result with
  | error status =>
      exact Ensures.pure ⟨⟨hledger.registryRange?_eq, hafter⟩, List.nil_subset _⟩
  | ok base => exact ensures_record h hledger.registryRange?_eq hafter

/-- Freeing any range but the registry keeps the custody of all that has another base. -/
theorem ensures_free_any (h : services.Accounts live names)
    (hledger : ledger.AnswersFor registryRange (live firmware) kept) {range : PageRange}
    (hother : registryRange.base ≠ range.base) :
    Ensures (fun _ => True) (free services ledger range) firmware fun outcome after =>
      (outcome.2 = .ok () →
        outcome.1.AnswersFor registryRange (live after) (withoutBase range.base kept)) ∧
      (outcome.2 ≠ .ok () → outcome.1.AnswersFor registryRange (live after) kept) := by
  refine (h.ensures_releasePages_any hledger.custody range).bind ?_
  rintro result after ⟨hreleased, hrefused⟩
  cases result with
  | error status =>
      refine Ensures.pure ⟨?_, ?_⟩
      · intro hresult
        cases hresult
      · intro _
        exact ⟨hledger.registryRange?_eq, hrefused (by simp)⟩
  | ok value =>
      refine Ensures.pure ⟨?_, ?_⟩
      · intro _
        exact hledger.forget hother (hreleased rfl)
      · intro hresult
        exact (hresult rfl).elim

/-- Freeing a recorded range succeeds and changes nothing for others. -/
theorem ensures_free_recorded (h : services.Accounts live names)
    (hledger : ledger.AnswersFor registryRange (live firmware) kept) {range : PageRange}
    (hmem : range ∈ ledger.recorded) :
    Ensures Event.IsUnrefused (free services ledger range) firmware fun outcome after =>
      outcome.2 = .ok () ∧ outcome.1.AnswersFor registryRange (live after) kept := by
  have hheld : range ∈ ledger.held := List.mem_append_right _ hmem
  refine (h.ensures_releasePages hledger.custody hheld).bind ?_
  rintro _ after ⟨rfl, hafter⟩
  exact Ensures.pure ⟨rfl, hledger.forget (hledger.base_ne_of_mem_recorded hmem) hafter⟩

/-- Held ranges that are all given back are held no longer. -/
theorem ensures_giveBackAll (h : services.Accounts live names) {ranges : List PageRange}
    (hcustody : Custody (live firmware) (ranges ++ held) kept) :
    Ensures Event.IsUnrefused (giveBackAll services ranges) firmware
      fun _ after => Custody (live after) held kept := by
  induction ranges generalizing firmware with
  | nil => exact Ensures.pure hcustody
  | cons range rest ih =>
      refine (ensures_giveBack h hcustody _).bind ?_
      intro _ after hafter
      exact ih hafter

/-- After a teardown nothing is held. -/
theorem ensures_teardown (h : services.Accounts live names)
    (hledger : ledger.AnswersFor registryRange (live firmware) kept) :
    Ensures Event.IsUnrefused (teardown services ledger) firmware
      fun _ after => Custody (live after) [] kept := by
  obtain ⟨registry, hregistry, rfl⟩ := hledger.exists_registry
  have hcustody := hledger.custody
  rw [held_of_registry hregistry] at hcustody
  simp only [teardown, hregistry]
  have hlast : Custody (live firmware) (registry.recorded ++ [registry.range]) kept :=
    hcustody.of_perm_held (List.perm_append_singleton _ _).symm
  refine (ensures_giveBackAll h hlast).bind ?_
  intro _ after hafter
  refine (ensures_giveBack h hafter _).bind ?_
  intro _ final hfinal
  exact Ensures.note_bind trivial (Ensures.pure hfinal)

end Operations

end BootMemory.PageLedger
