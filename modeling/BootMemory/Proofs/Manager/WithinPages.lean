import BootMemory.Proofs.Manager.Attempts
import BootMemory.Proofs.Page.Placement

/-!
# Storage within its pages

A ledger writes to memory in two places: in the pages of its registry, and in the buffer of a
query.  Both times it asks for pages by a number of bytes, and uses as many bytes as it wanted,
or as the pages have.  On any firmware, and for any number of bytes, it stays within the pages
that it was granted, also where the length of a buffer is cut at the largest word.

Main results:

- Definitions {lit}`PageRange.Contains` and {lit}`PageRange.IsGranted`: bytes that lie in a
  range, and pages that the firmware has granted.
- Theorem {lit}`PageLedger.conducts_housed_runAll`: a registry stays in pages that were granted
  for its bytes.
- Theorem {lit}`Attempt.Runs.asks_before_query`: a query goes through a buffer as long as pages
  that were granted before.
- Theorem {lit}`storage_within_pages`: neither the registry nor a buffer reaches past its pages.
-/

namespace BootMemory

/-! ## Bytes of a range -/

namespace PageRange

/-- All bytes from one offset up to another one lie in a range. -/
def Contains (range : PageRange) (start stop : Nat) : Prop :=
  ∀ offset, start ≤ offset → offset < stop → range.Holds (range.base.toNat + offset)

/-- Some request was granted exactly this range. -/
def IsGranted (range : PageRange) (calls : List Exchange) : Prop :=
  ∃ placement type reply, .allocatePages placement type range.pages reply ∈ calls ∧
    reply.status = .success ∧ reply.address = range.base

variable {range : PageRange}

theorem contains_of_le {start stop : Nat} (h : stop ≤ 4096 * range.pages.toNat) :
    range.Contains start stop := by
  intro offset _ hstop
  exact ⟨Nat.le_add_right _ _, Nat.add_lt_add_left (Nat.lt_of_lt_of_le hstop h) _⟩

theorem IsGranted.mono {calls later : List Exchange} (h : range.IsGranted calls)
    (hsub : calls ⊆ later) : range.IsGranted later := by
  obtain ⟨placement, type, reply, hmem, hreply⟩ := h
  exact ⟨placement, type, reply, hsub hmem, hreply⟩

end PageRange

/-! ## The registry -/

namespace PageLedger

variable {ledger : PageLedger} {address pages base bytes : UInt64} {past calls : List Exchange}

/-- What a placed request obtains was granted, also after the detour past page zero. -/
theorem Obtains.isGranted (h : ledger.Obtains address pages calls (.ok base)) :
    ({ base, pages } : PageRange).IsGranted calls := by
  cases h with
  | granted hreply _ => exact ⟨_, _, _, List.mem_cons_self, hreply, rfl⟩
  | pageZero _ _ h =>
      cases h with
      | granted hreply _ =>
          exact ⟨_, _, _, List.mem_cons_of_mem _ List.mem_cons_self, hreply, rfl⟩

/-- What an allocation hands out was granted. -/
theorem Allocates.isGranted {grown : PageLedger}
    (h : ledger.Allocates address pages calls (grown, .ok base)) :
    ({ base, pages } : PageRange).IsGranted calls := by
  obtain ⟨asked, rest, rfl, hobtains⟩ := h.obtains rfl
  exact hobtains.isGranted.mono (List.subset_append_left asked rest)

/-- A registry, if there is one, is in pages that were granted as storage for some bytes. -/
def Housed (bytes : UInt64) (past : List Exchange) (ledger : PageLedger) : Prop :=
  ∀ home, ledger.registryRange? = some home →
    home.pages = storagePages bytes ∧ home.IsGranted past

/-- No operation puts the registry anywhere else. -/
theorem Takes.housed {operation : Operation} {outcome : PageLedger × Answer}
    (h : ledger.Takes operation calls outcome) (hsized : ledger.Sized bytes)
    (hhoused : ledger.Housed bytes past) : outcome.1.Housed bytes (past ++ calls) := by
  intro home hready
  rcases h.registryRange?_cases hready with hsame | ⟨hpages, hobtains⟩
  · obtain ⟨hpages, hgranted⟩ := hhoused home hsame
    exact ⟨hpages, hgranted.mono (List.subset_append_left past calls)⟩
  · rw [hsized.registryBytes_eq] at hpages
    exact ⟨hpages, hobtains.isGranted.mono (List.subset_append_right past calls)⟩

/-- After any operations, a registry has the slots that fit into its bytes, and it is in pages
that were granted for these. -/
theorem conducts_housed_runAll {σ : Type} {services : Services σ} {firmware : σ}
    (hsized : ledger.Sized bytes) (hhoused : ledger.Housed bytes past)
    (operations : List Operation) :
    services.Conducts (runAll services ledger operations) firmware fun calls outcome =>
      outcome.1.Sized bytes ∧ outcome.1.Housed bytes (past ++ calls) := by
  induction operations generalizing ledger firmware past with
  | nil =>
      refine .pure ⟨hsized, ?_⟩
      rw [List.append_nil]
      exact hhoused
  | cons operation rest ih =>
      refine (conducts_step operation).bind ?_
      rintro calls ⟨stepped, answer⟩ after htakes
      refine (ih (htakes.bag_step hsized).2 (htakes.housed hsized hhoused)).bind_pure ?_
      intro later outcome h
      rw [List.append_assoc] at h
      exact ⟨_, rfl, h⟩

/-- All bytes and slots of such a registry lie in its pages. -/
theorem Housed.registry_within (hhoused : ledger.Housed bytes past) (hsized : ledger.Sized bytes)
    {registry : Registry} (hregistry : ledger.registry = some registry) :
    registry.range.pages = storagePages bytes ∧ registry.range.IsGranted past ∧
      registry.range.Contains 0 bytes.toNat ∧ registry.slots.length = bytes.toNat / 24 ∧
      ∀ index < registry.slots.length,
        registry.range.Contains (24 * index) (24 * index + 24) := by
  have hready : ledger.registryRange? = some registry.range := by
    rw [registryRange?, hregistry, Option.map_some]
  obtain ⟨hpages, hgranted⟩ := hhoused _ hready
  have hcapacity : registry.slots.length = bytes.toNat / 24 :=
    hsized.capacity_eq registry hregistry
  have hfits := toNat_le_storagePages bytes
  rw [← hpages] at hfits
  refine ⟨hpages, hgranted, PageRange.contains_of_le hfits, hcapacity, ?_⟩
  intro index hindex
  exact PageRange.contains_of_le (by omega)

end PageLedger

/-! ## The buffer of a query -/

namespace Attempt

variable {ledger after : PageLedger} {attempt : Attempt}

/-- The buffer of an attempt is in pages that were granted for it. -/
theorem Runs.isGranted {bytes base : UInt64} {asked : List Exchange} {buffer : List UInt8}
    {reply : MapReply} {returned : Status}
    (h : (queried bytes asked base buffer reply returned).Runs ledger after) :
    ({ base, pages := bufferPages bytes } : PageRange).IsGranted asked := by
  cases h with
  | returned h => exact h.isGranted
  | kept h => exact h.isGranted

/-- A query of the map goes through a buffer as long as its pages, which were granted before and
are returned afterwards. -/
theorem Runs.asks_before_query (h : attempt.Runs ledger after) {buffer : List UInt8}
    {reply : MapReply} (hquery : .getMemoryMap buffer reply ∈ attempt.calls) :
    ∃ asked base returned,
      let range : PageRange := { base, pages := bufferPages attempt.bytes }
      attempt.calls = asked ++ [.getMemoryMap buffer reply, .freePages range returned] ∧
        range.IsGranted asked ∧ buffer.length = (pagesToBytes range.pages).toNat := by
  have hprepares := h.prepares
  cases attempt with
  | unallocated bytes asked cause => cases hprepares _ hquery
  | queried bytes asked base found answer returned =>
      rcases List.mem_append.1 hquery with hasked | hlast
      · cases (hprepares _ hasked).1
      · rw [List.mem_cons, List.mem_singleton] at hlast
        rcases hlast with hsame | hreturn
        · cases hsame
          exact ⟨asked, base, returned, rfl, h.isGranted, h.length_buffer⟩
        · cases hreturn

end Attempt

/-- An attempt queries the map when pages for its buffer can be had. -/
theorem PageLedger.exists_query_attemptMap {σ : Type} {services : Services σ} {start : σ}
    {ledger : PageLedger} {bytes base : UInt64}
    (hgranted : ((allocate services ledger 0 (storagePages bytes)).run start).value.2 =
      .ok base) :
    ∃ buffer reply,
      .getMemoryMap buffer reply ∈ ((attemptMap services ledger bytes).run start).exchanges := by
  obtain ⟨buffer, returned, hcalls, _⟩ := (conducts_attemptMap_of_granted hgranted).ends
  rw [hcalls]
  exact ⟨_, _, List.mem_append_right _ List.mem_cons_self⟩

/-! ## Neither reaches past its pages -/

/-- On any firmware, which gives all the replies, and for any number of bytes:

* some bytes need at most some pages exactly when these pages hold them, also where the size of
  the pages is cut at the largest word;
* the pages that are requested for some bytes, at least one, hold them, and no more bytes are
  used than these pages have;
* after any operations of a ledger, the registry is in pages that were granted, and all of its
  bytes and each of its slots lie in them;
* when pages for a buffer can be had, the map is queried, and the buffer of each query is as long
  as pages that were granted before, and lies in them. -/
theorem storage_within_pages {σ : Type} (services : Services σ) (start : σ) :
    (∀ bytes pages : UInt64, bytesToPages bytes ≤ pages ↔ bytes ≤ pagesToBytes pages) ∧
    (∀ bytes : UInt64,
      let pages := storagePages bytes
      pages.toNat = max 1 (bytesToPages bytes).toNat ∧
        bytes ≤ pagesToBytes pages ∧ (pagesToBytes pages).toNat ≤ 4096 * pages.toNat) ∧
    (∀ (limits : Limits) (operations : List PageLedger.Operation),
      let run := (PageLedger.runAll services (.ofLimits limits) operations).run start
      services.Dialogue start run.exchanges run.firmware ∧
      ∀ registry, run.value.1.registry = some registry →
        registry.range.pages = storagePages limits.registryBytes ∧
          registry.range.IsGranted run.exchanges ∧
          registry.range.Contains 0 limits.registryBytes.toNat ∧
          registry.slots.length = limits.registryBytes.toNat / 24 ∧
          ∀ index < registry.slots.length,
            registry.range.Contains (24 * index) (24 * index + 24)) ∧
    ∀ (ledger : PageLedger) (bytes : UInt64),
      let run := (ledger.attemptMap services bytes).run start
      services.Dialogue start run.exchanges run.firmware ∧
      (∀ base, ((ledger.allocate services 0 (storagePages bytes)).run start).value.2 = .ok base →
        ∃ buffer reply, .getMemoryMap buffer reply ∈ run.exchanges) ∧
      ∀ buffer reply, .getMemoryMap buffer reply ∈ run.exchanges →
        ∃ asked base returned,
          let range : PageRange := { base, pages := storagePages bytes }
          run.exchanges = asked ++ [.getMemoryMap buffer reply, .freePages range returned] ∧
            range.IsGranted asked ∧ buffer.length = (pagesToBytes range.pages).toNat ∧
            range.Contains 0 buffer.length := by
  refine ⟨bytesToPages_le_iff, ?_, ?_, ?_⟩
  · intro bytes pages
    exact ⟨toNat_storagePages bytes, le_pagesToBytes_storagePages bytes,
      toNat_pagesToBytes_le pages⟩
  · intro limits operations run
    have hempty : (PageLedger.ofLimits limits).Housed limits.registryBytes [] := by
      intro home hready
      cases hready
    have hconducts : services.Conducts
        (PageLedger.runAll services (.ofLimits limits) operations) start _ :=
      PageLedger.conducts_housed_runAll (PageLedger.sized_ofLimits limits) hempty operations
    obtain ⟨hsized, hhoused⟩ := hconducts.ends
    exact ⟨hconducts.dialogue, fun registry => hhoused.registry_within hsized⟩
  · intro ledger bytes run
    have hconducts : services.Conducts (ledger.attemptMap services bytes) start _ :=
      PageLedger.conducts_attemptMap bytes
    refine ⟨hconducts.dialogue, fun base => PageLedger.exists_query_attemptMap, ?_⟩
    intro buffer reply hquery
    obtain ⟨attempt, rfl, hcalls, hruns, _⟩ := hconducts.ends
    have hmem : .getMemoryMap buffer reply ∈ attempt.calls := hcalls ▸ hquery
    obtain ⟨asked, base, returned, hsplit, hgranted, hlength⟩ := hruns.asks_before_query hmem
    rw [← storagePages_eq_bufferPages] at hsplit hgranted hlength
    refine ⟨asked, base, returned, hcalls.trans hsplit, hgranted, hlength, ?_⟩
    apply PageRange.contains_of_le
    rw [hlength]
    exact toNat_pagesToBytes_le _

end BootMemory
