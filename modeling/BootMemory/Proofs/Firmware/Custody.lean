import BootMemory.Firmware.MapQuery
import BootMemory.Proofs.Ensures

/-!
# Who holds the firmware's pages

A firmware that keeps accounts knows which page ranges are live.  It grants only
ranges whose base no live range has, and takes a range back exactly when the request
names a live one.  Of the live ranges some are *held* by whoever asked for them, and
the others are *kept* by someone else.

Main results:

- Definition {lit}`Services.WellBehaved`: a firmware that keeps accounts and looks at
  the base of a returned range alone; with {lit}`Services.Strict` it looks at the page count
  too.
- Theorem {lit}`Custody.release`: what is returned leaves the held or the kept ranges.
- Theorem {lit}`Services.Accounts.ensures_requestPages`: what is granted is held.
- Theorem {lit}`Services.Accounts.ensures_releasePages`: what is held can be returned.
-/

open scoped List

namespace BootMemory

/-- Whether an event is anything but a refusal to take pages back. -/
def Event.IsUnrefused : Event → Prop
  | .call (.freePages _ status) => status = .success
  | _ => True

theorem Status.guard_of_ne_success {α : Type} {status : Status} (h : status ≠ success)
    (value : α) : guard status value = .error status :=
  if_neg fun hsuccess => h ((isSuccess_iff status).1 hsuccess)

/-- The range that a request for pages brought, if it brought one. -/
def newRanges {ε : Type} (pages : UInt64) : Except ε UInt64 → List PageRange
  | .error _ => []
  | .ok base => [{ base, pages }]

/-- Whether a range starts at a base. -/
def PageRange.startsAt (base : UInt64) (range : PageRange) : Bool := range.base == base

theorem PageRange.startsAt_iff {base : UInt64} {range : PageRange} :
    range.startsAt base = true ↔ range.base = base := beq_iff_eq

/-- The ranges that do not start at a base. -/
def withoutBase (base : UInt64) (ranges : List PageRange) : List PageRange :=
  ranges.filter fun range => range.base ≠ base

section WithoutBase

variable {base : UInt64}

theorem withoutBase_append (first second : List PageRange) :
    withoutBase base (first ++ second) = withoutBase base first ++ withoutBase base second :=
  List.filter_append first second

theorem withoutBase_cons_of_ne {range : PageRange} (h : range.base ≠ base)
    (rest : List PageRange) :
    withoutBase base (range :: rest) = range :: withoutBase base rest :=
  List.filter_cons_of_pos (decide_eq_true h)

theorem withoutBase_cons_of_eq {range : PageRange} (h : range.base = base)
    (rest : List PageRange) : withoutBase base (range :: rest) = withoutBase base rest :=
  List.filter_cons_of_neg (by simp [h])

theorem withoutBase_of_not_mem {ranges : List PageRange}
    (h : base ∉ ranges.map PageRange.base) : withoutBase base ranges = ranges := by
  apply List.filter_eq_self.2
  intro range hmem
  apply decide_eq_true
  intro heq
  exact h (heq ▸ List.mem_map_of_mem hmem)

/-- If no two ranges have one base, the first range with a base is the only one. -/
theorem eraseP_startsAt_eq_withoutBase {ranges : List PageRange}
    (h : (ranges.map PageRange.base).Nodup) :
    ranges.eraseP (PageRange.startsAt base) = withoutBase base ranges := by
  induction ranges with
  | nil => rfl
  | cons range rest ih =>
      rw [List.map_cons, List.nodup_cons] at h
      by_cases hbase : range.base = base
      · subst hbase
        rw [List.eraseP_cons_of_pos (PageRange.startsAt_iff.2 rfl), withoutBase_cons_of_eq rfl,
          withoutBase_of_not_mem h.1]
      · rw [List.eraseP_cons_of_neg (mt PageRange.startsAt_iff.1 hbase),
          withoutBase_cons_of_ne hbase, ih h.2]

/-- Also when several ranges have a base, erasing the first of them takes one away. -/
theorem exists_perm_eraseP_startsAt {ranges : List PageRange}
    (h : base ∈ ranges.map PageRange.base) :
    ∃ erased, erased.base = base ∧
      ranges ~ erased :: ranges.eraseP (PageRange.startsAt base) := by
  obtain ⟨range, hmem, rfl⟩ := List.mem_map.1 h
  obtain ⟨erased, front, back, -, hbase, hranges, hrest⟩ :=
    List.exists_of_eraseP hmem (PageRange.startsAt_iff.2 rfl)
  refine ⟨erased, PageRange.startsAt_iff.1 hbase, ?_⟩
  rw [hrest]
  exact (List.Perm.of_eq hranges).trans List.perm_middle

end WithoutBase

/-! ## Firmware that keeps accounts -/

namespace Services

variable {σ : Type}

/-- A firmware that keeps accounts of its live ranges.  A request to take pages back
can name a live range in several ways, and always names its base. -/
structure Accounts (services : Services σ) (live : σ → List PageRange)
    (names : PageRange → PageRange → Prop) : Prop where
  granted : ∀ placement type pages firmware,
    (services.allocatePages placement type pages firmware).1.status = .success →
      (services.allocatePages placement type pages firmware).1.address ∉
          (live firmware).map PageRange.base ∧
        (live (services.allocatePages placement type pages firmware).2).Perm
          ({ base := (services.allocatePages placement type pages firmware).1.address, pages } ::
            live firmware)
  refused : ∀ placement type pages firmware,
    (services.allocatePages placement type pages firmware).1.status ≠ .success →
      (live (services.allocatePages placement type pages firmware).2).Perm (live firmware)
  released_iff : ∀ range firmware, (services.freePages range firmware).1 = .success ↔
    ∃ held ∈ live firmware, names range held
  released : ∀ range firmware, (services.freePages range firmware).1 = .success →
    ∃ held, names range held ∧
      (live firmware).Perm (held :: live (services.freePages range firmware).2)
  unreleased : ∀ range firmware, (services.freePages range firmware).1 ≠ .success →
    (live (services.freePages range firmware).2).Perm (live firmware)
  allocatePool : ∀ type size firmware,
    (live (services.allocatePool type size firmware).2).Perm (live firmware)
  freePool : ∀ buffer firmware, (live (services.freePool buffer firmware).2).Perm (live firmware)
  getMemoryMap : ∀ buffer firmware,
    (live (services.getMemoryMap buffer firmware).2).Perm (live firmware)
  reach : ∀ address firmware, (live (services.reach address firmware).2).Perm (live firmware)
  names_self : ∀ range, names range range
  base_eq_of_names : ∀ range held, names range held → held.base = range.base

/-- A firmware that keeps accounts and takes a range back whenever a live range has its
base. -/
def WellBehaved (services : Services σ) (live : σ → List PageRange) : Prop :=
  services.Accounts live fun range held => held.base = range.base

/-- A firmware that keeps accounts and takes a range back only when just this range is live. -/
def Strict (services : Services σ) (live : σ → List PageRange) : Prop :=
  services.Accounts live fun range held => held = range

end Services

/-! ## Custody -/

/-- The live ranges are those that are held and those that others keep, and no two of
them have the same base. -/
structure Custody (live held kept : List PageRange) : Prop where
  perm : live.Perm (held ++ kept)
  nodup : (live.map PageRange.base).Nodup

namespace Custody

variable {live after held kept : List PageRange} {range removed : PageRange}

theorem of_perm (h : Custody live held kept) (hperm : after.Perm live) :
    Custody after held kept :=
  ⟨hperm.trans h.perm, (hperm.map PageRange.base).nodup_iff.2 h.nodup⟩

theorem of_perm_held {others : List PageRange} (h : Custody live held kept)
    (hperm : held.Perm others) : Custody live others kept :=
  ⟨h.perm.trans (hperm.append_right kept), h.nodup⟩

theorem nodup_append (h : Custody live held kept) :
    ((held ++ kept).map PageRange.base).Nodup :=
  (h.perm.map PageRange.base).nodup_iff.1 h.nodup

/-- What is granted is held from then on. -/
theorem grant (h : Custody live held kept) (hfresh : range.base ∉ live.map PageRange.base)
    (hperm : after.Perm (range :: live)) : Custody after (range :: held) kept := by
  refine ⟨hperm.trans (h.perm.cons range), ?_⟩
  rw [(hperm.map PageRange.base).nodup_iff, List.map_cons, List.nodup_cons]
  exact ⟨hfresh, h.nodup⟩

/-- What is returned leaves the held or the kept ranges. -/
theorem release (h : Custody live held kept) (hperm : live.Perm (removed :: after)) :
    Custody after (withoutBase removed.base held) (withoutBase removed.base kept) := by
  have hnodup := (hperm.map PageRange.base).nodup_iff.1 h.nodup
  rw [List.map_cons, List.nodup_cons] at hnodup
  obtain ⟨hgone, hrest⟩ := hnodup
  refine ⟨?_, hrest⟩
  calc
    after = withoutBase removed.base (removed :: after) := by
      rw [withoutBase_cons_of_eq rfl, withoutBase_of_not_mem hgone]
    _ ~ withoutBase removed.base live := hperm.symm.filter _
    _ ~ withoutBase removed.base (held ++ kept) := h.perm.filter _
    _ = withoutBase removed.base held ++ withoutBase removed.base kept := withoutBase_append _ _

/-- Nobody else keeps a range with the base of a held one. -/
theorem withoutBase_kept (h : Custody live held kept) (hmem : range ∈ held) :
    withoutBase range.base kept = kept := by
  have hnodup := h.nodup_append
  rw [List.map_append, List.nodup_append] at hnodup
  apply withoutBase_of_not_mem
  intro hkept
  exact hnodup.2.2 _ (List.mem_map_of_mem hmem) _ hkept rfl

/-- The other held ranges have other bases than the first one. -/
theorem withoutBase_held (h : Custody live (range :: held) kept) :
    withoutBase range.base (range :: held) = held := by
  have hnodup := h.nodup_append
  rw [List.cons_append, List.map_cons, List.nodup_cons, List.map_append] at hnodup
  rw [withoutBase_cons_of_eq rfl]
  apply withoutBase_of_not_mem
  intro hmem
  exact hnodup.1 (List.mem_append_left _ hmem)

theorem mem_live (h : Custody live held kept) (hmem : range ∈ held) : range ∈ live :=
  h.perm.mem_iff.2 (List.mem_append_left kept hmem)

/-- An action that leaves the live ranges alone leaves the custody as it is. -/
theorem ensures_of_perm {σ α : Type} {live : σ → List PageRange} {firmware : σ}
    {action : Boot σ α} (h : Custody (live firmware) held kept)
    (hperm : (live (action.run firmware).firmware).Perm (live firmware))
    (hevents : ∀ event ∈ (action.run firmware).events, event.IsUnrefused) :
    Boot.Ensures Event.IsUnrefused action firmware
      fun _ after => Custody (live after) held kept :=
  ⟨h.of_perm hperm, hevents⟩

end Custody

/-! ## Requests to a firmware that keeps accounts -/

namespace Services.Accounts

variable {σ : Type} {services : Services σ} {live : σ → List PageRange}
  {names : PageRange → PageRange → Prop} {held kept : List PageRange} {firmware : σ}

/-- What is granted is held. -/
theorem ensures_requestPages (h : services.Accounts live names)
    (hcustody : Custody (live firmware) held kept) (placement : Placement) (type : MemoryType)
    (pages : UInt64) :
    Boot.Ensures Event.IsUnrefused (services.requestPages placement type pages) firmware
      fun result after => Custody (live after) (newRanges pages result ++ held) kept := by
  refine ⟨?_, ?_⟩
  · simp only [requestPages_run]
    by_cases hstatus :
        (services.allocatePages placement type pages firmware).1.status = .success
    · obtain ⟨hfresh, hperm⟩ := h.granted placement type pages firmware hstatus
      rw [hstatus, Status.guard_success]
      exact hcustody.grant hfresh hperm
    · rw [Status.guard_of_ne_success hstatus]
      exact hcustody.of_perm (h.refused placement type pages firmware hstatus)
  · intro event hmem
    rw [requestPages_run] at hmem
    obtain rfl := List.mem_singleton.1 hmem
    trivial

theorem freePages_eq_success (h : services.Accounts live names) {range : PageRange}
    (hmem : range ∈ live firmware) : (services.freePages range firmware).1 = .success :=
  (h.released_iff range firmware).2 ⟨range, hmem, h.names_self range⟩

theorem custody_freePages (h : services.Accounts live names)
    (hcustody : Custody (live firmware) held kept) {range : PageRange}
    (hstatus : (services.freePages range firmware).1 = .success) :
    Custody (live (services.freePages range firmware).2) (withoutBase range.base held)
      (withoutBase range.base kept) := by
  obtain ⟨removed, hnames, hperm⟩ := h.released range firmware hstatus
  rw [← h.base_eq_of_names range removed hnames]
  exact hcustody.release hperm

/-- Anyone may try to return a range; when that succeeds, nothing with its base is live
any more. -/
theorem ensures_releasePages_any (h : services.Accounts live names)
    (hcustody : Custody (live firmware) held kept) (range : PageRange) :
    Boot.Ensures (fun _ => True) (services.releasePages range) firmware fun result after =>
      (result = .ok () → Custody (live after) (withoutBase range.base held)
        (withoutBase range.base kept)) ∧
      (result ≠ .ok () → Custody (live after) held kept) := by
  refine ⟨?_, fun _ _ => trivial⟩
  simp only [releasePages_run]
  refine ⟨fun hresult => ?_, fun hresult => ?_⟩
  · exact h.custody_freePages hcustody ((Status.guard_eq_ok_iff _ _ _).1 hresult).1
  · apply hcustody.of_perm
    apply h.unreleased
    intro hstatus
    exact hresult ((Status.guard_eq_ok_iff _ _ _).2 ⟨hstatus, rfl⟩)

/-- What is held can be returned, and then the others are as before. -/
theorem ensures_releasePages (h : services.Accounts live names)
    (hcustody : Custody (live firmware) held kept) {range : PageRange} (hmem : range ∈ held) :
    Boot.Ensures Event.IsUnrefused (services.releasePages range) firmware fun result after =>
      result = .ok () ∧ Custody (live after) (withoutBase range.base held) kept := by
  have hstatus := h.freePages_eq_success (hcustody.mem_live hmem)
  have hreleased := h.custody_freePages hcustody hstatus
  rw [hcustody.withoutBase_kept hmem] at hreleased
  refine ⟨⟨?_, hreleased⟩, ?_⟩
  · simp only [releasePages_run, hstatus, Status.guard_success]
  · intro event hevent
    rw [releasePages_run] at hevent
    obtain rfl := List.mem_singleton.1 hevent
    exact hstatus

/-! ## Requests that do not concern pages -/

theorem ensures_requestPool (h : services.Accounts live names)
    (hcustody : Custody (live firmware) held kept) (type : MemoryType) (size : UInt64) :
    Boot.Ensures Event.IsUnrefused (services.requestPool type size) firmware
      fun _ after => Custody (live after) held kept :=
  hcustody.ensures_of_perm (h.allocatePool type size firmware) (by simp [Event.IsUnrefused])

theorem ensures_releasePool (h : services.Accounts live names)
    (hcustody : Custody (live firmware) held kept) (buffer : UInt64) :
    Boot.Ensures Event.IsUnrefused (services.releasePool buffer) firmware
      fun _ after => Custody (live after) held kept :=
  hcustody.ensures_of_perm (h.freePool buffer firmware) (by simp [Event.IsUnrefused])

theorem ensures_queryMap (h : services.Accounts live names)
    (hcustody : Custody (live firmware) held kept) (buffer : List UInt8) :
    Boot.Ensures Event.IsUnrefused (services.queryMap buffer) firmware
      fun _ after => Custody (live after) held kept :=
  hcustody.ensures_of_perm (h.getMemoryMap buffer firmware) (by simp [Event.IsUnrefused])

theorem ensures_fetchMap (h : services.Accounts live names)
    (hcustody : Custody (live firmware) held kept) (buffer : List UInt8) :
    Boot.Ensures Event.IsUnrefused (services.fetchMap buffer) firmware
      fun _ after => Custody (live after) held kept := by
  refine (h.ensures_queryMap hcustody buffer).bind ?_
  intro answer after hafter
  exact Boot.Ensures.pure hafter

theorem ensures_reachable (h : services.Accounts live names)
    (hcustody : Custody (live firmware) held kept) (address : UInt64) :
    Boot.Ensures Event.IsUnrefused (services.reachable address) firmware
      fun _ after => Custody (live after) held kept :=
  hcustody.ensures_of_perm (h.reach address firmware) (by simp)

end Services.Accounts

end BootMemory
