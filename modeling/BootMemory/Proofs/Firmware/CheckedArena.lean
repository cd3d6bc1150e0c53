import BootMemory.Firmware.Arena
import BootMemory.Proofs.Firmware.Custody

/-!
# An arena that checks its grants

The arena as a firmware follows its script and grants any address that is asked for,
so two of its live ranges can have one base.  This variant has no scripted answers for
pages and refuses a grant whose base is live.

Returns are accepted under any page count, or under the right one only.

Main results:

- Theorem {lit}`Arena.wellBehaved_checkedServices`: the checking arena is a
  well-behaved firmware.
- Theorem {lit}`Arena.strict_strictServices`: with checked page counts it is a strict one.
-/

namespace BootMemory

namespace Arena

/-- Answer a request for pages, but never with the base of a live range. -/
def grantUnused (placement : Placement) (_type : MemoryType) (pages : UInt64) (arena : Arena) :
    GrantReply × Arena :=
  let (reply, rest) := arena.grantNormally placement pages
  if reply.status = .success ∧ reply.address ∉ arena.live.map PageRange.base then
    (reply, { rest with live := { base := reply.address, pages } :: arena.live })
  else ({ status := .outOfResources, address := placement.address }, arena)

/-- Take the live range with a base back, if there is one. -/
def releaseLive (range : PageRange) (arena : Arena) : Status × Arena :=
  if range.base ∈ arena.live.map PageRange.base then
    (.success, { arena with live := arena.live.eraseP fun held => held.base == range.base })
  else (.notFound, arena)

/-- The arena as a firmware that checks its grants. -/
def checkedServices : Services Arena :=
  { services with allocatePages := grantUnused, freePages := releaseLive }

theorem grantUnused_of_success (placement : Placement) (type : MemoryType) (pages : UInt64)
    (arena : Arena) (h : (grantUnused placement type pages arena).1.status = .success) :
    (grantUnused placement type pages arena).1.address ∉ arena.live.map PageRange.base ∧
      (grantUnused placement type pages arena).2.live =
        { base := (grantUnused placement type pages arena).1.address, pages } :: arena.live := by
  unfold grantUnused at h ⊢
  dsimp only at h ⊢
  split at h
  next hgrant =>
    rw [if_pos hgrant]
    exact ⟨hgrant.2, rfl⟩
  next =>
    cases h

theorem grantUnused_of_ne_success (placement : Placement) (type : MemoryType) (pages : UInt64)
    (arena : Arena) (h : (grantUnused placement type pages arena).1.status ≠ .success) :
    (grantUnused placement type pages arena).2.live = arena.live := by
  unfold grantUnused at h ⊢
  dsimp only at h ⊢
  split at h
  next hgrant => exact (h hgrant.1).elim
  next hrefused => rw [if_neg hrefused]

theorem releaseLive_eq_success_iff (range : PageRange) (arena : Arena) :
    (releaseLive range arena).1 = .success ↔ range.base ∈ arena.live.map PageRange.base := by
  unfold releaseLive
  split
  next hlive => simp [hlive]
  next hother => simp [hother, Status.notFound, Status.success, Status.errorCode]

/-- The range that is taken back has the base of the request. -/
theorem exists_perm_of_releaseLive {range : PageRange} {arena : Arena}
    (h : range.base ∈ arena.live.map PageRange.base) :
    ∃ held, held.base = range.base ∧
      arena.live.Perm (held :: (releaseLive range arena).2.live) := by
  rw [releaseLive, if_pos h]
  exact exists_perm_eraseP_startsAt h

theorem live_carved (arena : Arena) (pages : Nat) (address : UInt64) :
    (arena.carved pages address).2.live = arena.live := by
  unfold carved carve
  by_cases hroom : arena.hasRoom pages = true
  · rw [if_pos hroom]
  · rw [if_neg hroom]

theorem live_allocatePool (type : MemoryType) (size : UInt64) (arena : Arena) :
    (allocatePool type size arena).2.live = arena.live := by
  unfold allocatePool
  cases arena.script.poolGrants.head?.join with
  | none =>
      dsimp only
      split
      next => exact live_carved _ _ _
      next => exact live_carved _ _ _
  | some scripted =>
      dsimp only
      split
      next => rfl
      next => rfl

theorem live_freePool (buffer : UInt64) (arena : Arena) :
    (freePool buffer arena).2.live = arena.live := by
  unfold freePool
  dsimp only
  generalize arena.script.poolReleases.head?.join.getD _ = status
  split
  next => rfl
  next => rfl

theorem live_getMemoryMap (buffer : List UInt8) (arena : Arena) :
    (getMemoryMap buffer arena).2.live = arena.live := by
  unfold getMemoryMap
  dsimp only
  split
  next => rfl
  next => rfl

/-- The checking arena is a well-behaved firmware. -/
theorem wellBehaved_checkedServices : checkedServices.WellBehaved Arena.live where
  granted placement type pages arena h :=
    have hgrant := grantUnused_of_success placement type pages arena h
    ⟨hgrant.1, List.Perm.of_eq hgrant.2⟩
  refused placement type pages arena h :=
    List.Perm.of_eq (grantUnused_of_ne_success placement type pages arena h)
  released_iff range arena := by
    rw [← List.mem_map]
    exact releaseLive_eq_success_iff range arena
  released range arena h :=
    exists_perm_of_releaseLive ((releaseLive_eq_success_iff range arena).1 h)
  unreleased range arena h := by
    have hother := mt (releaseLive_eq_success_iff range arena).2 h
    apply List.Perm.of_eq
    show (releaseLive range arena).2.live = arena.live
    rw [releaseLive, if_neg hother]
  allocatePool type size arena := List.Perm.of_eq (live_allocatePool type size arena)
  freePool buffer arena := List.Perm.of_eq (live_freePool buffer arena)
  getMemoryMap buffer arena := List.Perm.of_eq (live_getMemoryMap buffer arena)
  reach _ _ := List.Perm.refl _
  names_self _ := rfl
  base_eq_of_names _ _ h := h

/-! ## Checked page counts -/

/-- Take a range back if it is live with just this page count. -/
def releaseExact (range : PageRange) (arena : Arena) : Status × Arena :=
  if range ∈ arena.live then (.success, { arena with live := arena.live.erase range })
  else (.notFound, arena)

/-- The arena as a firmware that checks its grants and its returns. -/
def strictServices : Services Arena := { checkedServices with freePages := releaseExact }

theorem releaseExact_eq_success_iff (range : PageRange) (arena : Arena) :
    (releaseExact range arena).1 = .success ↔ range ∈ arena.live := by
  unfold releaseExact
  split
  next hlive => simp [hlive]
  next hother => simp [hother, Status.notFound, Status.success, Status.errorCode]

/-- The arena that checks its grants and its returns is a strict firmware. -/
theorem strict_strictServices : strictServices.Strict Arena.live where
  granted := wellBehaved_checkedServices.granted
  refused := wellBehaved_checkedServices.refused
  released_iff range arena := by
    rw [exists_eq_right]
    exact releaseExact_eq_success_iff range arena
  released range arena h := by
    have hlive := (releaseExact_eq_success_iff range arena).1 h
    refine ⟨range, rfl, ?_⟩
    show arena.live.Perm (range :: (releaseExact range arena).2.live)
    rw [releaseExact, if_pos hlive]
    exact List.perm_cons_erase hlive
  unreleased range arena h := by
    have hother := mt (releaseExact_eq_success_iff range arena).2 h
    apply List.Perm.of_eq
    show (releaseExact range arena).2.live = arena.live
    rw [releaseExact, if_neg hother]
  allocatePool := wellBehaved_checkedServices.allocatePool
  freePool := wellBehaved_checkedServices.freePool
  getMemoryMap := wellBehaved_checkedServices.getMemoryMap
  reach := wellBehaved_checkedServices.reach
  names_self _ := rfl
  base_eq_of_names range _ h := congrArg PageRange.base h

end Arena

end BootMemory
