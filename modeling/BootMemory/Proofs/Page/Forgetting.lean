import Mathlib.Data.List.Pairwise
import BootMemory.Proofs.Page.Closing
import BootMemory.Proofs.Page.Placement

/-!
# What a return forgets

The record of returned pages is found by their base, and it is dropped as a whole.  The number of
pages that are returned does not matter.  So when some of the pages of a record are returned, the
others are forgotten with them, and a record that starts elsewhere stays, also when the returned
pages reach into it.

Main results:

- Definition {lit}`PageLedger.Covers`: the addresses in recorded ranges.
- Theorem {lit}`PageLedger.covers_forget`: what is covered after a record was dropped.
- Theorem {lit}`PageLedger.covers_free`: what is covered after an accepted return, when that is
  what was covered before without the returned pages, and what a later teardown still returns.
-/

namespace BootMemory

namespace PageRange

/-- Whether no address lies in both of two ranges. -/
def Apart (first second : PageRange) : Prop :=
  ∀ address, ¬ (first.Holds address ∧ second.Holds address)

instance : Std.Symm Apart :=
  ⟨fun _ _ hapart address hboth => hapart address hboth.symm⟩

/-- Two ranges are apart when one of them is empty or ends before the other. -/
theorem apart_iff {first second : PageRange} :
    first.Apart second ↔
      first.pages = 0 ∨ second.pages = 0 ∨
        first.base.toNat + 4096 * first.pages.toNat ≤ second.base.toNat ∨
        second.base.toNat + 4096 * second.pages.toNat ≤ first.base.toNat := by
  rw [← UInt64.toNat_inj, ← UInt64.toNat_inj, UInt64.toNat_zero]
  constructor
  · intro hapart
    have hhigher := hapart (max first.base.toNat second.base.toNat)
    unfold Holds at hhigher
    omega
  · rintro hends address ⟨hfirst, hsecond⟩
    unfold Holds at hfirst hsecond
    omega

instance (first second : PageRange) : Decidable (first.Apart second) :=
  decidable_of_iff _ apart_iff.symm

/-- Of ranges with pages in them that are apart, each is the only one with its base. -/
theorem find?_startsAt_eq_some {ranges : List PageRange} (hapart : ranges.Pairwise Apart)
    (hpages : ∀ held ∈ ranges, 0 < held.pages) {range : PageRange} (hmem : range ∈ ranges) :
    ranges.find? (startsAt range.base) = some range := by
  cases hfound : ranges.find? (startsAt range.base) with
  | none => exact (List.find?_eq_none.1 hfound range hmem (startsAt_iff.2 rfl)).elim
  | some held =>
      have hheld : held ∈ ranges := List.mem_of_find?_eq_some hfound
      have hbase : held.base = range.base := startsAt_iff.1 (List.find?_some hfound)
      by_contra hne
      have hboth : held.Apart range :=
        hapart.forall hheld hmem fun heq => hne (congrArg some heq)
      -- both hold the base that they share
      have hempty := apart_iff.1 hboth
      have hheldPos : 0 < held.pages.toNat := UInt64.lt_iff_toNat_lt.1 (hpages held hheld)
      have hpos : 0 < range.pages.toNat := UInt64.lt_iff_toNat_lt.1 (hpages range hmem)
      rw [← UInt64.toNat_inj, ← UInt64.toNat_inj, UInt64.toNat_zero, hbase] at hempty
      omega

/-- Erasing the first range of some kind takes its own addresses away from ranges that are
apart. -/
theorem exists_holds_eraseP_iff {ranges : List PageRange} (hapart : ranges.Pairwise Apart)
    (chosen : PageRange → Bool) (address : Nat) :
    (∃ range ∈ ranges.eraseP chosen, range.Holds address) ↔
      (∃ range ∈ ranges, range.Holds address) ∧
        ∀ range ∈ ranges.find? chosen, ¬ range.Holds address := by
  induction ranges with
  | nil => simp
  | cons range rest ih =>
      obtain ⟨hothers, hrest⟩ := List.pairwise_cons.1 hapart
      by_cases hchosen : chosen range = true
      · rw [List.eraseP_cons_of_pos hchosen, List.find?_cons_of_pos hchosen,
          List.exists_mem_cons_iff]
        simp only [Option.mem_some_iff, forall_eq']
        constructor
        · rintro ⟨other, hmem, hholds⟩
          exact ⟨.inr ⟨other, hmem, hholds⟩, fun hboth => hothers other hmem _ ⟨hboth, hholds⟩⟩
        · rintro ⟨hholds | hrest, hleft⟩
          · exact (hleft hholds).elim
          · exact hrest
      · rw [List.eraseP_cons_of_neg hchosen, List.find?_cons_of_neg hchosen,
          List.exists_mem_cons_iff, List.exists_mem_cons_iff, ih hrest]
        constructor
        · rintro (hholds | ⟨hrest, hleft⟩)
          · refine ⟨.inl hholds, ?_⟩
            intro other hfound hboth
            exact hothers other (List.mem_of_find?_eq_some hfound) _ ⟨hholds, hboth⟩
          · exact ⟨.inr hrest, hleft⟩
        · rintro ⟨hholds | hrest, hleft⟩
          · exact .inl hholds
          · exact .inr ⟨hrest, hleft⟩

end PageRange

namespace PageLedger

/-- Whether an address lies in a recorded range. -/
def Covers (ledger : PageLedger) (address : Nat) : Prop :=
  ∃ range ∈ ledger.recorded, range.Holds address

instance (ledger : PageLedger) (address : Nat) : Decidable (ledger.Covers address) :=
  inferInstanceAs (Decidable (∃ range ∈ ledger.recorded, range.Holds address))

section Records

variable {ledger closed : PageLedger} {base : UInt64} {calls : List Exchange}

/-- The first record with a base is dropped, unless the registry has that base. -/
theorem recorded_forget (hhome : ledger.registryRange?.map PageRange.base ≠ some base) :
    (ledger.forget base).recorded = ledger.recorded.eraseP (PageRange.startsAt base) := by
  cases hregistry : ledger.registry with
  | none =>
      rw [forget_of_none hregistry, recorded, hregistry]
      rfl
  | some registry =>
      have hother : registry.range.base ≠ base := by
        intro heq
        rw [registryRange?, hregistry] at hhome
        exact hhome (congrArg some heq)
      rw [recorded, recorded, forget, hregistry]
      exact Registry.recorded_forget_eq_eraseP hother

/-- With it go the addresses in it, and no others, if the records are apart. -/
theorem covers_forget (hapart : ledger.recorded.Pairwise PageRange.Apart)
    (hhome : ledger.registryRange?.map PageRange.base ≠ some base) (address : Nat) :
    (ledger.forget base).Covers address ↔
      ledger.Covers address ∧
        ∀ dropped ∈ ledger.recorded.find? (PageRange.startsAt base), ¬ dropped.Holds address := by
  rw [Covers, Covers, recorded_forget hhome]
  exact PageRange.exists_holds_eraseP_iff hapart _ address

/-- An accepted return drops a record by the base alone. -/
theorem Frees.eq_forget {range : PageRange} {outcome : PageLedger × Except MemoryError Unit}
    (h : ledger.Frees range calls outcome) (hok : outcome.2 = .ok ()) :
    outcome.1 = ledger.forget range.base := by
  cases h with
  | refused => cases hok
  | released => rfl

/-- A teardown returns each covered address. -/
theorem Closes.exists_freePages (h : ledger.Closes calls closed) {address : Nat}
    (hcovers : ledger.Covers address) :
    ∃ range status, range.Holds address ∧ .freePages range status ∈ calls := by
  obtain ⟨range, hmem, hholds⟩ := hcovers
  obtain ⟨status, hcall⟩ := h.returns.1.exists_mem (List.mem_append_left _ hmem)
  exact ⟨range, status, hholds, hcall⟩

end Records

section Operations

variable {σ : Type}

/-- An accepted return under another base than the registry's drops the first record with that
base, however many pages were returned.  What is covered then is what was covered before without
the returned pages exactly when, of the covered addresses, these pages hold those of that record
and no others.  So it is when the returned range is itself a record and none is empty.  What was
recorded elsewhere is still returned by a teardown. -/
theorem covers_free (services : Services σ) (ledger : PageLedger) (firmware : σ)
    {range : PageRange} (hapart : ledger.recorded.Pairwise PageRange.Apart)
    (hhome : ledger.registryRange?.map PageRange.base ≠ some range.base)
    (haccepted : ((free services ledger range).run firmware).value.2 = .ok ()) :
    let after := ((free services ledger range).run firmware).value.1
    let dropped := ledger.recorded.find? (PageRange.startsAt range.base)
    (∀ address, after.Covers address ↔
        ledger.Covers address ∧ ∀ held ∈ dropped, ¬ held.Holds address) ∧
      ((∀ address, after.Covers address ↔ ledger.Covers address ∧ ¬ range.Holds address) ↔
        ∀ address, ledger.Covers address →
          (range.Holds address ↔ ∃ held ∈ dropped, held.Holds address)) ∧
      (range ∈ ledger.recorded → (∀ held ∈ ledger.recorded, 0 < held.pages) →
        ∀ address, after.Covers address ↔ ledger.Covers address ∧ ¬ range.Holds address) ∧
      ∀ later address, ledger.Covers address → (∀ held ∈ dropped, ¬ held.Holds address) →
        ∃ held status, held.Holds address ∧
          .freePages held status ∈ ((teardown services after).run later).exchanges := by
  intro after dropped
  have hconducts : services.Conducts (free services ledger range) firmware _ :=
    conducts_free range
  have hafter : after = ledger.forget range.base := hconducts.ends.eq_forget haccepted
  have hcovers : ∀ address, after.Covers address ↔
      ledger.Covers address ∧ ∀ held ∈ dropped, ¬ held.Holds address := by
    intro address
    rw [hafter]
    exact covers_forget hapart hhome address
  refine ⟨hcovers, ?_, ?_, ?_⟩
  · refine forall_congr' fun address => ?_
    have houtside : (∀ held ∈ dropped, ¬ held.Holds address) ↔
        ¬ ∃ held ∈ dropped, held.Holds address := by
      simp only [not_exists, not_and]
    rw [hcovers address, and_congr_right_iff]
    refine imp_congr_right fun _ => ?_
    rw [houtside, not_iff_not]
    exact iff_comm
  · intro hmem hpages address
    have hfirst : dropped = some range := PageRange.find?_startsAt_eq_some hapart hpages hmem
    rw [hcovers address, hfirst]
    simp only [Option.mem_some_iff, forall_eq']
  · intro later address hcovered houtside
    have hteardown : services.Conducts (teardown services after) later _ := conducts_teardown
    exact hteardown.ends.exists_freePages ((hcovers address).2 ⟨hcovered, houtside⟩)

/-- The first of two pages is returned, and neither is covered afterwards; the record behind them
is left. -/
theorem covers_free_first_page :
    let used := (runAll Arena.checkedServices (ofLimits {})
      [.init, .allocate 0 2, .allocate 0 1]).run {}
    let freed := (free Arena.checkedServices used.value.1 ⟨0x101000, 1⟩).run used.firmware
    freed.value.2 = .ok () ∧ used.value.1.Covers 0x102000 ∧
      ¬ freed.value.1.Covers 0x102000 ∧ freed.value.1.Covers 0x103000 ∧
      ¬ ∀ address, freed.value.1.Covers address ↔ used.value.1.Covers address ∧
        ¬ (⟨0x101000, 1⟩ : PageRange).Holds address := by
  intro used freed
  have hapart : used.value.1.recorded.Pairwise PageRange.Apart := by
    decide +kernel
  have hhome : used.value.1.registryRange?.map PageRange.base ≠ some 0x101000 := by
    decide +kernel
  have haccepted : freed.value.2 = .ok () := by
    decide +kernel
  have hcovered : used.value.1.Covers 0x102000 ∧ used.value.1.Covers 0x103000 := by
    decide +kernel
  have hfirst : used.value.1.recorded.find? (PageRange.startsAt 0x101000) =
      some ⟨0x101000, 2⟩ := by
    decide +kernel
  obtain ⟨hcovers, hexact, -, -⟩ :=
    covers_free Arena.checkedServices used.value.1 used.firmware hapart hhome haccepted
  rw [hfirst] at hcovers hexact
  clear_value used
  simp only [Option.mem_some_iff, forall_eq', exists_eq_left'] at hcovers hexact
  refine ⟨haccepted, hcovered.1, ?_, ?_, ?_⟩
  · rw [hcovers]
    exact fun hleft => hleft.2 (by decide)
  · exact (hcovers _).2 ⟨hcovered.2, by decide⟩
  · rw [hexact]
    intro hsame
    exact absurd (hsame _ hcovered.1) (by decide)

/-- So an accepted return does not leave covered exactly what it did not return. -/
theorem not_forall_covers_free :
    ¬ ∀ (services : Services Arena) (start : Arena) (operations : List Operation)
      (range : PageRange),
      let used := (runAll services (ofLimits {}) operations).run start
      let freed := (free services used.value.1 range).run used.firmware
      used.value.1.recorded.Pairwise PageRange.Apart →
      used.value.1.registryRange?.map PageRange.base ≠ some range.base →
      freed.value.2 = .ok () →
      ∀ address, freed.value.1.Covers address ↔
        used.value.1.Covers address ∧ ¬ range.Holds address := by
  intro h
  have hcovers := h Arena.checkedServices {} [.init, .allocate 0 2] ⟨0x101000, 1⟩
    (by decide +kernel) (by decide +kernel) (by decide +kernel) 0x102000
  revert hcovers
  decide +kernel

end Operations

end PageLedger

end BootMemory
