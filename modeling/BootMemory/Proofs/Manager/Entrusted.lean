import BootMemory.Proofs.Manager.Attempts
import BootMemory.Proofs.Manager.Conservation

/-!
# What is live apart from what a ledger holds

Without a registry an allocation succeeds, but it is recorded nowhere, so the end of a ledger
does not give it back.  On a firmware that keeps accounts of the bases, the live ranges which
a ledger does not hold change in three ways only: an allocation without a registry adds a
range, an accepted free takes one away, and nothing else has an effect on them.

Main results:

- Definition {lit}`Entrusted`: what is live apart from what a ledger holds.
- Theorem {lit}`Entrusted.gain`: what an allocation changes about it.
- Theorem {lit}`PageLedger.Frees.entrusted`: what a free changes about it.
- Theorem {lit}`Trials.entrusted`: attempts at a map change nothing about it.
- Theorem {lit}`PageLedger.Closes.entrusted`: neither does the end of the ledger.
-/

open scoped List

namespace BootMemory

open Manager (unfreed unfreed_nil unfreed_singleton unfreed_append)

/-! ## Ranges without those of some bases -/

section Unfreed

variable {bases others : List UInt64} {base : UInt64} {ranges live : List PageRange}

/-- It matters only which of the bases there are. -/
theorem unfreed_congr (h : ∀ range ∈ ranges, range.base ∈ bases ↔ range.base ∈ others) :
    unfreed bases ranges = unfreed others ranges := by
  apply List.filter_congr
  intro range hmem
  rw [decide_eq_decide, h range hmem]

theorem unfreed_cons (base : UInt64) (bases : List UInt64) (ranges : List PageRange) :
    unfreed (base :: bases) ranges = unfreed bases (withoutBase base ranges) := by
  rw [← List.singleton_append, unfreed_append, unfreed_singleton]

theorem withoutBase_unfreed (base : UInt64) (bases : List UInt64) (ranges : List PageRange) :
    withoutBase base (unfreed bases ranges) = unfreed bases (withoutBase base ranges) := by
  rw [← unfreed_cons, ← unfreed_singleton, ← unfreed_append]
  apply unfreed_congr
  intro range _
  rw [List.mem_append, List.mem_singleton, List.mem_cons, or_comm]

/-- What is left of some ranges and of others with other bases when the first ones are gone. -/
theorem unfreed_map_base_append (h : ∀ range ∈ ranges, range.base ∉ live.map PageRange.base) :
    unfreed (ranges.map PageRange.base) (ranges ++ live) = live := by
  have hgone : unfreed (ranges.map PageRange.base) ranges = [] := by
    apply List.filter_eq_nil_iff.2
    intro range hmem
    rw [decide_eq_true_iff, not_not]
    exact List.mem_map_of_mem hmem
  have hkept : unfreed (ranges.map PageRange.base) live = live := by
    apply List.filter_eq_self.2
    intro range hmem
    apply decide_eq_true
    intro hbase
    obtain ⟨other, hother, heq⟩ := List.mem_map.1 hbase
    exact h other hother (heq ▸ List.mem_map_of_mem hmem)
  rw [unfreed, List.filter_append]
  exact (congrArg₂ (· ++ ·) hgone hkept)

end Unfreed

/-! ## What a ledger holds -/

namespace PageLedger

variable {ledger grown : PageLedger} {gained : List PageRange}

theorem held_of_not_isReady (h : ledger.isReady = false) : ledger.held = [] :=
  held_of_none (Option.not_isSome_iff_eq_none.1 (Bool.eq_false_iff.1 h))

/-- With a registry, what was gained is held. -/
theorem held_perm (hhome : grown.registryRange? = ledger.registryRange?)
    (hrecorded : ∀ home, ledger.registryRange? = some home →
      grown.recorded ~ gained ++ ledger.recorded) :
    grown.held ~ (if ledger.isReady then gained else []) ++ ledger.held := by
  cases hready : ledger.registryRange? with
  | none =>
      have hidle : ledger.isReady = false := by rw [isReady_eq, hready, Option.isSome_none]
      have hgrown : grown.isReady = false := by rw [isReady_congr hhome, hidle]
      rw [held_of_not_isReady hidle, held_of_not_isReady hgrown, hidle]
      exact .refl _
  | some home =>
      have hsome : ledger.isReady = true := by rw [isReady_eq, hready, Option.isSome_some]
      rw [held, held, hhome, hready, hsome, if_pos rfl]
      exact ((hrecorded home hready).append_left _).trans (List.perm_append_comm_assoc _ _ _)

/-- Forgetting a base drops no record of another one. -/
theorem mem_map_base_held_forget (ledger : PageLedger) {base other : UInt64}
    (hother : other ≠ base) :
    other ∈ (ledger.forget base).held.map PageRange.base ↔
      other ∈ ledger.held.map PageRange.base := by
  cases hregistry : ledger.registry with
  | none => rw [forget_of_none hregistry]
  | some registry =>
      have hforgotten : (ledger.forget base).registry = some (registry.forget base) := by
        rw [forget, hregistry, Option.map_some]
      rw [held_of_registry hregistry, held_of_registry hforgotten, Registry.range_forget]
      rcases registry.forget_cases base with ⟨_, heq⟩ | ⟨_, removed, hbase, hperm⟩
      · rw [heq]
      · rw [((hperm.cons registry.range).map PageRange.base).mem_iff]
        simp [hbase, hother]
end PageLedger

/-! ## Live ranges apart from what a ledger holds -/

/-- Apart from what a ledger holds, the live ranges are those that its user has taken without
a record and those that others keep.  The ledger may also hold what is not live any more. -/
structure Entrusted (live : List PageRange) (ledger : PageLedger)
    (taken kept : List PageRange) : Prop where
  perm : unfreed (ledger.held.map PageRange.base) live ~ taken ++ kept
  nodup : (live.map PageRange.base).Nodup

namespace Entrusted

variable {live after taken kept gained : List PageRange} {ledger grown : PageLedger}
  {range removed : PageRange}

theorem of_perm (h : Entrusted live ledger taken kept) (hperm : after ~ live) :
    Entrusted after ledger taken kept :=
  ⟨(hperm.filter _).trans h.perm, (hperm.map PageRange.base).nodup_iff.2 h.nodup⟩

/-- Without a registry nothing is held. -/
theorem perm_of_not_isReady (h : Entrusted live ledger taken kept)
    (hidle : ledger.isReady = false) : live ~ taken ++ kept := by
  have hperm := h.perm
  rw [PageLedger.held_of_not_isReady hidle, List.map_nil, unfreed_nil] at hperm
  exact hperm

/-- What is in custody is entrusted to the ledger. -/
theorem of_answersFor (h : ledger.AnswersFor range live kept) :
    Entrusted live ledger [] kept := by
  refine ⟨?_, h.custody.nodup⟩
  have happart : ∀ held ∈ ledger.held, held.base ∉ kept.map PageRange.base := by
    have hnodup := h.custody.nodup_append
    rw [List.map_append, List.nodup_append] at hnodup
    intro held hmem hkept
    exact hnodup.2.2 _ (List.mem_map_of_mem hmem) _ hkept rfl
  calc
    unfreed (ledger.held.map PageRange.base) live
      ~ unfreed (ledger.held.map PageRange.base) (ledger.held ++ kept) :=
        h.custody.perm.filter _
    _ = [] ++ kept := unfreed_map_base_append happart

/-- What is granted is held, or taken if there is no registry. -/
theorem gain (h : Entrusted live ledger taken kept)
    (hnodup : (gained.map PageRange.base).Nodup)
    (hfresh : ∀ range ∈ gained, range.base ∉ live.map PageRange.base)
    (hheld : grown.held ~ (if ledger.isReady then gained else []) ++ ledger.held) :
    Entrusted (gained ++ live) grown (if ledger.isReady then taken else gained ++ taken) kept := by
  refine ⟨?_, ?_⟩
  · cases hready : ledger.isReady with
    | true =>
        rw [hready, if_pos rfl] at hheld
        have hbases : ∀ range ∈ gained ++ live, range.base ∈ grown.held.map PageRange.base ↔
            range.base ∈ gained.map PageRange.base ++ ledger.held.map PageRange.base := by
          intro range _
          rw [← List.map_append, (hheld.map PageRange.base).mem_iff]
        rw [if_pos rfl, unfreed_congr hbases, unfreed_append, unfreed_map_base_append hfresh]
        exact h.perm
    | false =>
        have hnothing := PageLedger.held_of_not_isReady hready
        rw [hready, if_neg Bool.false_ne_true, hnothing] at hheld
        rw [if_neg Bool.false_ne_true, hheld.eq_nil, List.map_nil, unfreed_nil, List.append_assoc]
        exact (h.perm_of_not_isReady hready).append_left gained
  · rw [List.map_append, List.nodup_append]
    refine ⟨hnodup, h.nodup, ?_⟩
    intro base hbase _ hlive rfl
    obtain ⟨range, hmem, rfl⟩ := List.mem_map.1 hbase
    exact hfresh range hmem hlive

/-- What is returned is gone, whoever it belonged to, and the ledger forgets its base. -/
theorem lose (h : Entrusted live ledger taken kept) (hperm : live ~ removed :: after) :
    Entrusted after (ledger.forget removed.base) (withoutBase removed.base taken)
      (withoutBase removed.base kept) := by
  have hnodup := (hperm.map PageRange.base).nodup_iff.1 h.nodup
  rw [List.map_cons, List.nodup_cons] at hnodup
  obtain ⟨hgone, hrest⟩ := hnodup
  refine ⟨?_, hrest⟩
  have hbases : ∀ range ∈ after,
      range.base ∈ (ledger.forget removed.base).held.map PageRange.base ↔
        range.base ∈ ledger.held.map PageRange.base := by
    intro range hmem
    apply ledger.mem_map_base_held_forget
    exact fun heq => hgone (heq ▸ List.mem_map_of_mem hmem)
  calc
    unfreed ((ledger.forget removed.base).held.map PageRange.base) after
      = unfreed (ledger.held.map PageRange.base) after := unfreed_congr hbases
    _ = unfreed (ledger.held.map PageRange.base)
          (withoutBase removed.base (removed :: after)) := by
        rw [withoutBase_cons_of_eq rfl, withoutBase_of_not_mem hgone]
    _ = withoutBase removed.base
          (unfreed (ledger.held.map PageRange.base) (removed :: after)) :=
        (withoutBase_unfreed _ _ _).symm
    _ ~ withoutBase removed.base (unfreed (ledger.held.map PageRange.base) live) :=
        (hperm.symm.filter _).filter _
    _ ~ withoutBase removed.base (taken ++ kept) := h.perm.filter _
    _ = withoutBase removed.base taken ++ withoutBase removed.base kept :=
        withoutBase_append _ _

end Entrusted

/-! ## Operations of a ledger -/

section Ways

variable {live after taken kept : List PageRange} {ledger : PageLedger}
  {calls rest : List Exchange} {range : PageRange}

/-- On a firmware that looks at the base of a returned range alone, a free that is accepted
takes a live range away, and a refused one changes nothing. -/
theorem PageLedger.Frees.entrusted {outcome : PageLedger × Except MemoryError Unit}
    (h : ledger.Frees range calls outcome) (hentrusted : Entrusted live ledger taken kept)
    (hbooks : Books (fun range held => held.base = range.base) live calls after) :
    (outcome.2 = .ok () → Entrusted after outcome.1 (withoutBase range.base taken)
      (withoutBase range.base kept)) ∧
    (outcome.2 ≠ .ok () → Entrusted after outcome.1 taken kept) := by
  cases h with
  | refused hstatus =>
      have hperm : after ~ live := ((Books.freePages_of_ne_success hstatus).1 hbooks).2
      exact ⟨nofun, fun _ => hentrusted.of_perm hperm⟩
  | released =>
      obtain ⟨removed, remaining, hbase, hlive, hrest⟩ :=
        (Books.freePages_of_success rfl).1 hbooks
      have hperm : after ~ remaining := hrest
      have hlost := (hentrusted.lose hlive).of_perm hperm
      rw [hbase] at hlost
      exact ⟨fun _ => hlost, fun hrefused => (hrefused rfl).elim⟩

/-- An attempt at a map changes nothing for the live ranges.  It can leave a record behind, but
only with the base of its own buffer, and that is not live any more. -/
theorem Attempt.Runs.entrusted {names : PageRange → PageRange → Prop} (hnames : NamesByBase names)
    {attempt : Attempt} {tried : PageLedger} (h : attempt.Runs ledger tried)
    (hentrusted : Entrusted live ledger taken kept)
    (hbooks : Books names live (attempt.calls ++ rest) after) :
    Books names live rest after ∧ Entrusted live tried taken kept := by
  cases h with
  | unallocated h => exact ⟨(h.settled hnames hbooks).books, hentrusted⟩
  | @returned _ base _ _ _ grown h =>
      rw [Attempt.calls, List.append_assoc] at hbooks
      have hsettled := h.settled hnames hbooks
      have hfresh : base ∉ live.map PageRange.base := hsettled.fresh _ List.mem_cons_self
      refine ⟨(Books.returned hnames hfresh hsettled.books).2, ?_, hentrusted.nodup⟩
      have hheld := PageLedger.held_perm h.registryRange?_eq fun _ hready => h.recorded_perm hready
      have hbases : ∀ range ∈ live,
          range.base ∈ (grown.forget base).held.map PageRange.base ↔
            range.base ∈ ledger.held.map PageRange.base := by
        intro range hmem
        have hother : range.base ≠ base := fun heq => hfresh (heq ▸ List.mem_map_of_mem hmem)
        rw [grown.mem_map_base_held_forget hother, (hheld.map PageRange.base).mem_iff,
          List.map_append, List.mem_append, or_iff_right]
        split
        next => simp [newRanges, hother]
        next => exact List.not_mem_nil
      rw [unfreed_congr hbases]
      exact hentrusted.perm
  | kept h _ hkept =>
      rw [Attempt.calls, List.append_assoc] at hbooks
      have hsettled := h.settled hnames hbooks
      have hfresh := hsettled.fresh _ List.mem_cons_self
      exact (hkept (Books.returned hnames hfresh hsettled.books).1).elim

/-- So do attempts in order. -/
theorem Trials.entrusted {names : PageRange → PageRange → Prop} (hnames : NamesByBase names)
    {left : Nat} {bytes : UInt64} {attempts : List Attempt}
    {outcome : PageLedger × Except MemoryError E820.LegacyMap}
    (h : Trials left ledger bytes attempts outcome)
    (hentrusted : Entrusted live ledger taken kept)
    (hbooks : Books names live (attempts.flatMap Attempt.calls ++ rest) after) :
    Books names live rest after ∧ Entrusted live outcome.1 taken kept := by
  induction h with
  | exhausted => exact ⟨hbooks, hentrusted⟩
  | failed hruns =>
      rw [List.flatMap_singleton] at hbooks
      exact hruns.entrusted hnames hentrusted hbooks
  | converted hruns =>
      rw [List.flatMap_singleton] at hbooks
      exact hruns.entrusted hnames hentrusted hbooks
  | short hruns _ _ ih =>
      rw [List.flatMap_cons, List.append_assoc] at hbooks
      obtain ⟨hrest, htried⟩ := hruns.entrusted hnames hentrusted hbooks
      exact ih htried hrest

/-- Returns by base leave the live ranges with other bases, also when some are refused. -/
theorem PageLedger.Returns.unfreed {ranges : List PageRange} (h : Returns ranges calls)
    (hnodup : (live.map PageRange.base).Nodup)
    (hbooks : Books (fun range held => held.base = range.base) live calls after) :
    after ~ Manager.unfreed (ranges.map PageRange.base) live := by
  induction h generalizing live with
  | nil =>
      rw [List.map_nil, unfreed_nil]
      exact hbooks
  | @cons range call ranges calls hcall _ ih =>
      obtain ⟨status, rfl⟩ := hcall
      rw [List.map_cons, unfreed_cons]
      by_cases hstatus : status = .success
      · obtain ⟨removed, remaining, hbase, hlive, hrest⟩ :=
          (Books.freePages_of_success hstatus).1 hbooks
        have hbases := (hlive.map PageRange.base).nodup_iff.1 hnodup
        rw [List.map_cons, List.nodup_cons] at hbases
        have hleft : withoutBase range.base live ~ remaining := by
          have hfiltered := hlive.filter fun held => decide (held.base ≠ range.base)
          refine hfiltered.trans (.of_eq ?_)
          exact (withoutBase_cons_of_eq hbase remaining).trans
            (withoutBase_of_not_mem (hbase ▸ hbases.1))
        exact (ih hbases.2 hrest).trans (hleft.symm.filter _)
      · obtain ⟨hnone, hrest⟩ := (Books.freePages_of_ne_success hstatus).1 hbooks
        have hgone : range.base ∉ live.map PageRange.base := by
          intro hmem
          obtain ⟨held, hheld, hbase⟩ := List.mem_map.1 hmem
          exact hnone held hheld hbase
        rw [withoutBase_of_not_mem hgone]
        exact ih hnodup hrest

/-- The end of a ledger takes away what it holds, as far as that is live. -/
theorem PageLedger.Closes.entrusted {closed : PageLedger} (h : ledger.Closes calls closed)
    (hentrusted : Entrusted live ledger taken kept)
    (hbooks : Books (fun range held => held.base = range.base) live calls after) :
    Entrusted after closed taken kept := by
  obtain ⟨hreturns, rfl⟩ := h.returns
  have hleft := hreturns.unfreed hentrusted.nodup hbooks
  have hbases : ∀ range ∈ live,
      range.base ∈ (ledger.recorded ++ ledger.registryRange?.toList).map PageRange.base ↔
        range.base ∈ ledger.held.map PageRange.base :=
    fun _ _ => (List.perm_append_comm.map _).mem_iff
  rw [unfreed_congr hbases] at hleft
  refine ⟨?_, hbooks.nodup hentrusted.nodup⟩
  rw [held_of_none rfl, List.map_nil, unfreed_nil]
  exact hleft.trans hentrusted.perm

end Ways

end BootMemory
