import BootMemory.Proofs.Firmware.CheckedArena
import BootMemory.Proofs.Page.Requests

/-!
# Where allocations lie

A ledger has a ceiling for its placed allocations.  When the firmware chooses the address,
the ceiling goes with the request, and the firmware ends the range in time.  A given address
is compared with the ceiling by itself: the range may start below the ceiling and end above
it, and the ledger hands it out all the same.

Main results:

- Definition {lit}`Services.HonorsPlacement`: a firmware that grants pages where it is asked to.
- Theorem {lit}`PageLedger.Obtains.admits`: what a placed request obtains lies where it was
  asked for, also after the detour past page zero.
- Theorem {lit}`PageLedger.holds_le_ceiling_iff`: which placed allocations lie below the ceiling
  with all of their bytes.
-/

namespace BootMemory

/-- Whether a byte address lies in a range; no range wraps around. -/
def PageRange.Holds (range : PageRange) (address : Nat) : Prop :=
  range.base.toNat ≤ address ∧ address < range.base.toNat + 4096 * range.pages.toNat

instance (range : PageRange) (address : Nat) : Decidable (range.Holds address) :=
  inferInstanceAs (Decidable (_ ∧ _))

/-- The last byte of a range with pages in it decides whether all of them are below a limit. -/
theorem PageRange.forall_holds_le_iff {range : PageRange} (hpages : 0 < range.pages)
    (limit : Nat) :
    (∀ address, range.Holds address → address ≤ limit) ↔
      range.base.toNat + 4096 * range.pages.toNat - 1 ≤ limit := by
  have hpos : 0 < range.pages.toNat := UInt64.lt_iff_toNat_lt.1 hpages
  constructor
  · intro hall
    exact hall _ ⟨by omega, by omega⟩
  · rintro hlast address ⟨_, hlt⟩
    omega

/-- Whether a range is one that a request with a placement asks for. -/
def Placement.Admits (range : PageRange) : Placement → Prop
  | anywhere => True
  | atMost limit => ∀ address, range.Holds address → address ≤ limit.toNat
  | exactly address => range.base = address

/-- A firmware that grants pages only where it is asked to. -/
def Services.HonorsPlacement {σ : Type} (services : Services σ) : Prop :=
  ∀ placement type pages firmware,
    (services.allocatePages placement type pages firmware).1.status = .success →
      placement.Admits
        { base := (services.allocatePages placement type pages firmware).1.address, pages }

/-- Whether a request was granted where it asked to, if it was granted. -/
def Exchange.IsPlaced : Exchange → Prop
  | allocatePages placement _ pages reply =>
      reply.status = .success → placement.Admits { base := reply.address, pages }
  | _ => True

/-- All grants of a dialogue with such a firmware are where they were asked for. -/
theorem Services.Dialogue.isPlaced {σ : Type} {services : Services σ} {first last : σ}
    {calls : List Exchange} (hcalls : services.Dialogue first calls last)
    (h : services.HonorsPlacement) : ∀ call ∈ calls, call.IsPlaced := by
  induction hcalls with
  | nil => simp
  | allocatePages placement type pages _ ih =>
      exact List.forall_mem_cons.2 ⟨h placement type pages _, ih⟩
  | freePages _ _ ih => exact List.forall_mem_cons.2 ⟨trivial, ih⟩
  | allocatePool _ _ _ ih => exact List.forall_mem_cons.2 ⟨trivial, ih⟩
  | freePool _ _ ih => exact List.forall_mem_cons.2 ⟨trivial, ih⟩
  | getMemoryMap _ _ ih => exact List.forall_mem_cons.2 ⟨trivial, ih⟩
  | reach _ _ ih => exact ih

/-! ## The checking arena honours placements -/

namespace Arena

theorem carved_eq_success {arena : Arena} {pages : Nat} {address : UInt64}
    (h : (arena.carved pages address).1.status = .success) :
    (arena.carved pages address).1.address =
      arena.base + UInt64.ofNat (4096 * arena.nextPage) := by
  unfold carved carve at h ⊢
  by_cases hroom : arena.hasRoom pages = true
  · rw [if_pos hroom]
  · rw [if_neg hroom] at h
    cases h

/-- Pages that do not reach past a limit are at or below it; their address does not wrap. -/
theorem le_of_not_exceeds {arena : Arena} {limit pages : UInt64}
    (h : ¬ arena.exceeds limit pages = true) {address : Nat}
    (hholds : ({ base := arena.base + UInt64.ofNat (4096 * arena.nextPage), pages } :
      PageRange).Holds address) : address ≤ limit.toNat := by
  obtain ⟨hstart, hend⟩ := hholds
  have hlimit := limit.toNat_lt
  dsimp only at hstart hend
  have hpages : 0 < pages.toNat := by omega
  have hfits : ¬ limit.toNat < arena.base.toNat + 4096 * (arena.nextPage + pages.toNat) - 1 := by
    simpa [exceeds, UInt64.lt_iff_toNat_lt, hpages] using h
  have hbase : (arena.base + UInt64.ofNat (4096 * arena.nextPage)).toNat =
      arena.base.toNat + 4096 * arena.nextPage := by
    rw [UInt64.toNat_add, UInt64.toNat_ofNat_of_lt' (by rw [UInt64.size]; omega)]
    omega
  omega

theorem admits_grantNormally {arena : Arena} {placement : Placement} {pages : UInt64}
    (h : (arena.grantNormally placement pages).1.status = .success) :
    placement.Admits
      { base := (arena.grantNormally placement pages).1.address, pages } := by
  cases placement with
  | anywhere => trivial
  | exactly address => rfl
  | atMost limit =>
      unfold grantNormally at h ⊢
      dsimp only at h ⊢
      split at h
      next => cases h
      next hfits =>
        rw [if_neg hfits, carved_eq_success h]
        intro address
        exact le_of_not_exceeds hfits

/-- The checking arena grants pages only where it is asked to. -/
theorem honorsPlacement_checkedServices : checkedServices.HonorsPlacement := by
  intro placement type pages arena h
  change (grantUnused placement type pages arena).1.status = .success at h
  change placement.Admits
    { base := (grantUnused placement type pages arena).1.address, pages }
  unfold grantUnused at h ⊢
  dsimp only at h ⊢
  split at h
  next hgrant =>
    rw [if_pos hgrant]
    exact admits_grantNormally hgrant.1
  next => cases h

end Arena

/-! ## Placed allocations -/

namespace PageLedger

variable {ledger : PageLedger} {address pages base : UInt64} {calls : List Exchange}

theorem placementOf_zero (ledger : PageLedger) :
    ledger.placementOf 0 = .atMost ledger.ceiling := if_pos rfl

theorem placementOf_of_ne_zero (h : address ≠ 0) :
    ledger.placementOf address = .exactly address := if_neg h

/-- What a placed request obtains lies where it was asked for. -/
theorem Obtains.admits (h : ledger.Obtains address pages calls (.ok base))
    (hplaced : ∀ call ∈ calls, call.IsPlaced) :
    (ledger.placementOf address).Admits { base, pages } := by
  cases h with
  | granted hreply => exact hplaced _ List.mem_cons_self hreply
  | pageZero hreply hbase h =>
      rw [List.forall_mem_cons] at hplaced
      by_cases haddress : address = 0
      · subst haddress
        rw [placementOf_zero]
        cases h with
        | granted hagain => exact hplaced.2 _ List.mem_cons_self hagain
      · -- no grant at address zero is where another address was asked for
        have hfirst := hplaced.1 hreply
        rw [placementOf_of_ne_zero haddress] at hfirst
        exact (haddress (hfirst.symm.trans hbase)).elim

/-- An allocation hands out what it has obtained. -/
theorem Allocates.obtains {outcome : PageLedger × Except MemoryError UInt64}
    (h : ledger.Allocates address pages calls outcome) (hallocated : outcome.2 = .ok base) :
    ∃ asked rest, calls = asked ++ rest ∧ ledger.Obtains address pages asked (.ok base) := by
  cases h with
  | failed => cases hallocated
  | obtained hobtains hrecords =>
      cases hrecords with
      | unrecorded =>
          obtain rfl := Except.ok.inj hallocated
          exact ⟨_, _, rfl, hobtains⟩
      | stored =>
          obtain rfl := Except.ok.inj hallocated
          exact ⟨_, _, rfl, hobtains⟩
      | full => cases hallocated

section Operations

variable {σ : Type} {services : Services σ} {firmware : σ}

/-- A request above the ceiling goes to no firmware. -/
theorem allocate_run_of_ceiling_lt (services : Services σ) (pages : UInt64) (firmware : σ)
    (habove : ledger.ceiling < address) :
    (allocate services ledger address pages).run firmware =
      { value := (ledger, .error (.addressAboveCeiling address)), firmware, events := [] } := by
  rw [allocate, obtain, if_pos habove]
  rfl

/-- On a firmware that grants pages where it is asked to, a placed allocation starts at or below
the ceiling, and at its address when it has one.  All of its bytes are at or below the ceiling
exactly when it has no address or the range at its address ends in time. -/
theorem holds_le_ceiling_iff (h : services.HonorsPlacement) (ledger : PageLedger) (start : σ)
    {address pages base : UInt64} (hpages : 0 < pages)
    (hallocated : ((allocate services ledger address pages).run start).value.2 = .ok base) :
    base ≤ ledger.ceiling ∧ (address ≠ 0 → base = address) ∧
      ((∀ byte, ({ base, pages } : PageRange).Holds byte → byte ≤ ledger.ceiling.toNat) ↔
        address = 0 ∨ address.toNat + 4096 * pages.toNat - 1 ≤ ledger.ceiling.toNat) := by
  have hconducts : services.Conducts (allocate services ledger address pages) start _ :=
    conducts_allocate address pages
  obtain ⟨asked, rest, hcalls, hobtains⟩ := hconducts.ends.obtains hallocated
  have hplaced := hconducts.dialogue.isPlaced h
  rw [hcalls] at hplaced
  have hadmits := hobtains.admits fun call hmem => hplaced call (List.mem_append_left rest hmem)
  have hlast := @PageRange.forall_holds_le_iff { base, pages } hpages ledger.ceiling.toNat
  have hpos : 0 < pages.toNat := UInt64.lt_iff_toNat_lt.1 hpages
  by_cases haddress : address = 0
  · subst haddress
    rw [placementOf_zero] at hadmits
    refine ⟨?_, fun hne => (hne rfl).elim, fun _ => .inl rfl, fun _ => hadmits⟩
    have hend := hlast.1 hadmits
    dsimp only at hend
    rw [UInt64.le_iff_toNat_le]
    omega
  · rw [placementOf_of_ne_zero haddress] at hadmits
    obtain rfl : base = address := hadmits
    have hbelow : ¬ ledger.ceiling < base := by
      intro habove
      rw [allocate_run_of_ceiling_lt services pages start habove] at hallocated
      cases hallocated
    refine ⟨UInt64.not_lt.1 hbelow, fun _ => rfl, fun hall => .inr (hlast.1 hall), ?_⟩
    rintro (hzero | hend)
    · exact (haddress hzero).elim
    · exact hlast.2 hend

/-- Two pages at the last address that leaves room for them end at the ceiling. -/
theorem holds_le_ceiling_iff_last_room :
    let run := (allocate Arena.checkedServices (ofLimits {}) 0x7fffe000 2).run {}
    run.value.2 = .ok 0x7fffe000 ∧
      ∀ byte, ({ base := 0x7fffe000, pages := 2 } : PageRange).Holds byte → byte ≤ 0x7fffffff := by
  intro run
  have hallocated : run.value.2 = .ok 0x7fffe000 := by
    decide +kernel
  obtain ⟨_, _, hbelow⟩ := holds_le_ceiling_iff Arena.honorsPlacement_checkedServices
    (ofLimits {}) {} (by decide) hallocated
  exact ⟨hallocated, hbelow.2 (.inr (by decide))⟩

/-- A page further up, the same two pages are handed out as well, and the second one is above the
ceiling. -/
theorem not_forall_holds_le_ceiling :
    ¬ ∀ services : Services Arena, services.HonorsPlacement →
      ∀ (ledger : PageLedger) (start : Arena) (address pages base : UInt64), 0 < pages →
        ((allocate services ledger address pages).run start).value.2 = .ok base →
          ∀ byte, ({ base, pages } : PageRange).Holds byte → byte ≤ ledger.ceiling.toNat := by
  intro h
  let opened := (init Arena.checkedServices (ofLimits {})).run {}
  have hallocated : ((allocate Arena.checkedServices opened.value.1 0x7ffff000 2).run
      opened.firmware).value.2 = .ok 0x7ffff000 := by
    decide +kernel
  have hceiling : opened.value.1.ceiling = 0x7fffffff := by
    decide +kernel
  have hall := h _ Arena.honorsPlacement_checkedServices opened.value.1 opened.firmware _ _ _
    (by decide) hallocated 0x80000fff ⟨by decide, by decide⟩
  rw [hceiling] at hall
  exact absurd hall (by decide)

end Operations

end PageLedger

end BootMemory
