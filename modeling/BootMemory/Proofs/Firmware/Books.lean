import BootMemory.Proofs.Firmware.Dialogue

/-!
# Keeping books on a dialogue

On a firmware that keeps accounts, the requests of a dialogue say how the live ranges
change, and the live ranges say which of its answers are possible.  All of this can be
read off the list of requests, without the firmware's states.

Main results:

- Definition {lit}`Books`: what a list of requests does to the live ranges.
- Theorem {lit}`Services.Accounts.books`: every dialogue with a firmware that keeps
  accounts is in its books.
- Theorem {lit}`Books.returned`: a range whose base no other live range has can be
  returned, and then the others are as before.
-/

open scoped List

namespace BootMemory

/-- A way in which requests name live ranges: each range names itself, and a request names
no range with another base. -/
structure NamesByBase (names : PageRange → PageRange → Prop) : Prop where
  self : ∀ range, names range range
  base_eq : ∀ range held, names range held → held.base = range.base

/-- What a list of requests does to the live ranges.  A grant has a base that no live range
has, and a return is accepted exactly when it names a live range. -/
def Books (names : PageRange → PageRange → Prop) :
    List PageRange → List Exchange → List PageRange → Prop
  | live, [], after => after ~ live
  | live, .allocatePages _ _ pages reply :: rest, after =>
      if reply.status = .success then
        reply.address ∉ live.map PageRange.base ∧
          Books names ({ base := reply.address, pages } :: live) rest after
      else Books names live rest after
  | live, .freePages range status :: rest, after =>
      if status = .success then
        ∃ held remaining, names range held ∧ live ~ held :: remaining ∧
          Books names remaining rest after
      else (∀ held ∈ live, ¬ names range held) ∧ Books names live rest after
  | live, _ :: rest, after => Books names live rest after

namespace Books

variable {names : PageRange → PageRange → Prop} {live other after : List PageRange}
  {calls rest : List Exchange}

theorem allocatePages_of_success {placement : Placement} {type : MemoryType} {pages : UInt64}
    {reply : GrantReply} (hreply : reply.status = .success) :
    Books names live (.allocatePages placement type pages reply :: rest) after ↔
      reply.address ∉ live.map PageRange.base ∧
        Books names ({ base := reply.address, pages } :: live) rest after := by
  rw [Books, if_pos hreply]

theorem allocatePages_of_ne_success {placement : Placement} {type : MemoryType}
    {pages : UInt64} {reply : GrantReply} (hreply : reply.status ≠ .success) :
    Books names live (.allocatePages placement type pages reply :: rest) after ↔
      Books names live rest after := by
  rw [Books, if_neg hreply]

theorem freePages_of_success {range : PageRange} {status : Status}
    (hstatus : status = .success) :
    Books names live (.freePages range status :: rest) after ↔
      ∃ held remaining, names range held ∧ live ~ held :: remaining ∧
        Books names remaining rest after := by
  rw [Books, if_pos hstatus]

theorem freePages_of_ne_success {range : PageRange} {status : Status}
    (hstatus : status ≠ .success) :
    Books names live (.freePages range status :: rest) after ↔
      (∀ held ∈ live, ¬ names range held) ∧ Books names live rest after := by
  rw [Books, if_neg hstatus]

/-- The order of the live ranges does not matter. -/
theorem of_perm (h : Books names live calls after) (hperm : live ~ other) :
    Books names other calls after := by
  induction calls generalizing live other with
  | nil => exact h.trans hperm
  | cons call rest ih =>
      cases call with
      | allocatePages placement type pages reply =>
          by_cases hreply : reply.status = .success
          · rw [allocatePages_of_success hreply] at h ⊢
            rw [(hperm.map PageRange.base).mem_iff] at h
            exact ⟨h.1, ih h.2 (hperm.cons _)⟩
          · rw [allocatePages_of_ne_success hreply] at h ⊢
            exact ih h hperm
      | freePages range status =>
          by_cases hstatus : status = .success
          · rw [freePages_of_success hstatus] at h ⊢
            obtain ⟨held, remaining, hnames, hlive, hrest⟩ := h
            exact ⟨held, remaining, hnames, hperm.symm.trans hlive, hrest⟩
          · rw [freePages_of_ne_success hstatus] at h ⊢
            exact ⟨fun held hmem => h.1 held (hperm.mem_iff.2 hmem), ih h.2 hperm⟩
      | allocatePool type size reply => exact ih h hperm
      | freePool buffer status => exact ih h hperm
      | getMemoryMap buffer reply => exact ih h hperm

/-- No two live ranges get one base. -/
theorem nodup (h : Books names live calls after)
    (hnodup : (live.map PageRange.base).Nodup) : (after.map PageRange.base).Nodup := by
  induction calls generalizing live with
  | nil => exact (h.map PageRange.base).nodup_iff.2 hnodup
  | cons call rest ih =>
      cases call with
      | allocatePages placement type pages reply =>
          by_cases hreply : reply.status = .success
          · obtain ⟨hfresh, hrest⟩ := (allocatePages_of_success hreply).1 h
            exact ih hrest (List.nodup_cons.2 ⟨hfresh, hnodup⟩)
          · exact ih ((allocatePages_of_ne_success hreply).1 h) hnodup
      | freePages range status =>
          by_cases hstatus : status = .success
          · obtain ⟨held, remaining, _, hlive, hrest⟩ := (freePages_of_success hstatus).1 h
            have hall := (hlive.map PageRange.base).nodup_iff.1 hnodup
            exact ih hrest (List.nodup_cons.1 hall).2
          · exact ih ((freePages_of_ne_success hstatus).1 h).2 hnodup
      | allocatePool type size reply => exact ih h hnodup
      | freePool buffer status => exact ih h hnodup
      | getMemoryMap buffer reply => exact ih h hnodup

/-- A range whose base no other live range has can be returned, and then the others are as
before. -/
theorem returned (hnames : NamesByBase names) {range : PageRange} {status : Status}
    (hsole : range.base ∉ live.map PageRange.base)
    (h : Books names (range :: live) (.freePages range status :: rest) after) :
    status = .success ∧ Books names live rest after := by
  by_cases hstatus : status = .success
  · rw [freePages_of_success hstatus] at h
    obtain ⟨held, remaining, hheld, hlive, hrest⟩ := h
    have hbase := hnames.base_eq range held hheld
    obtain rfl | hmem := List.mem_cons.1 (hlive.mem_iff.2 List.mem_cons_self)
    · exact ⟨hstatus, hrest.of_perm hlive.cons_inv.symm⟩
    · exact (hsole (hbase ▸ List.mem_map_of_mem hmem)).elim
  · rw [freePages_of_ne_success hstatus] at h
    exact (h.1 range List.mem_cons_self (hnames.self range)).elim

end Books

/-- Every dialogue with a firmware that keeps accounts is in its books. -/
theorem Services.Accounts.books {σ : Type} {services : Services σ}
    {live : σ → List PageRange} {names : PageRange → PageRange → Prop} {first last : σ}
    {calls : List Exchange} (h : services.Accounts live names)
    (hcalls : services.Dialogue first calls last) :
    Books names (live first) calls (live last) := by
  induction hcalls with
  | nil firmware => exact .refl _
  | @allocatePages firmware last rest placement type pages _ ih =>
      by_cases hreply :
          (services.allocatePages placement type pages firmware).1.status = .success
      · obtain ⟨hfresh, hlive⟩ := h.granted placement type pages firmware hreply
        exact (Books.allocatePages_of_success hreply).2 ⟨hfresh, ih.of_perm hlive⟩
      · have hlive := h.refused placement type pages firmware hreply
        exact (Books.allocatePages_of_ne_success hreply).2 (ih.of_perm hlive)
  | @freePages firmware last rest range _ ih =>
      by_cases hstatus : (services.freePages range firmware).1 = .success
      · obtain ⟨held, hheld, hlive⟩ := h.released range firmware hstatus
        exact (Books.freePages_of_success hstatus).2 ⟨held, _, hheld, hlive, ih⟩
      · have hnone : ∀ held ∈ live firmware, ¬ names range held := fun held hmem hheld =>
          hstatus ((h.released_iff range firmware).2 ⟨held, hmem, hheld⟩)
        have hlive := h.unreleased range firmware hstatus
        exact (Books.freePages_of_ne_success hstatus).2 ⟨hnone, ih.of_perm hlive⟩
  | allocatePool type size _ ih => exact ih.of_perm (h.allocatePool type size _)
  | freePool buffer _ ih => exact ih.of_perm (h.freePool buffer _)
  | getMemoryMap buffer _ ih => exact ih.of_perm (h.getMemoryMap buffer _)
  | reach address _ ih => exact ih.of_perm (h.reach address _)

theorem Services.Accounts.namesByBase {σ : Type} {services : Services σ}
    {live : σ → List PageRange} {names : PageRange → PageRange → Prop}
    (h : services.Accounts live names) : NamesByBase names :=
  ⟨h.names_self, h.base_eq_of_names⟩

/-! ## Returns that are not refused -/

/-- No return of pages in a list is refused. -/
def Unrefused (calls : List Exchange) : Prop :=
  ∀ range status, .freePages range status ∈ calls → status = .success

theorem unrefused_nil : Unrefused [] := nofun

/-- A request that returns nothing cannot be a refused return. -/
theorem Unrefused.cons_of_ne {call : Exchange} {rest : List Exchange} (h : Unrefused rest)
    (hcall : ∀ range status, call ≠ .freePages range status) : Unrefused (call :: rest) := by
  intro range status hmem
  rcases List.mem_cons.1 hmem with heq | hmem
  · exact (hcall range status heq.symm).elim
  · exact h range status hmem

theorem unrefused_append {calls rest : List Exchange} :
    Unrefused (calls ++ rest) ↔ Unrefused calls ∧ Unrefused rest := by
  simp only [Unrefused, List.mem_append, or_imp, forall_and]

theorem unrefused_freePages_cons {range : PageRange} {status : Status}
    {rest : List Exchange} :
    Unrefused (.freePages range status :: rest) ↔ status = .success ∧ Unrefused rest := by
  constructor
  · intro h
    exact ⟨h range status List.mem_cons_self, fun other answer hmem =>
      h other answer (List.mem_cons_of_mem _ hmem)⟩
  · rintro ⟨hstatus, hrest⟩ other answer hmem
    rcases List.mem_cons.1 hmem with heq | hmem
    · obtain ⟨-, rfl⟩ := Exchange.freePages.inj heq
      exact hstatus
    · exact hrest other answer hmem

theorem unrefused_freePages_singleton {range : PageRange} {status : Status}
    (hstatus : status = .success) : Unrefused [.freePages range status] :=
  unrefused_freePages_cons.2 ⟨hstatus, unrefused_nil⟩

end BootMemory
