import BootMemory.Manager.Operations
import BootMemory.Proofs.Page.Bag
import BootMemory.Proofs.Page.Settlement

/-!
# Attempts at a fresh map

A refresh consists of attempts, each with a buffer of its own.  An attempt that found its
buffer too short is followed by one with the size that the firmware asked for and room for
two more descriptors; the first attempt that ends in another way decides.  All this holds on
any firmware, whatever it answers.

Main results:

- Definition {lit}`Attempt.Ends`: what the firmware's reply makes of an attempt.
- Definition {lit}`Trials`: attempts in order, up to the one that decides.
- Theorem {lit}`PageLedger.conducts_obtainMap`: the requests for a map are those of such
  attempts.
- Theorem {lit}`Trials.ledger_eq`: attempts whose buffers are new and are taken back leave the
  ledger as it was.
- Theorem {lit}`Manager.refresh_trials`: the requests, the map and the answer of a refresh.
-/

open scoped List

namespace BootMemory

/-! ## One attempt -/

/-- Pages of a buffer for some bytes: as many as hold them, and at least one. -/
def bufferPages (bytes : UInt64) : UInt64 := .ofNat (max 1 ((bytes.toNat + 4095) / 4096))

theorem toNat_bufferPages (bytes : UInt64) :
    (bufferPages bytes).toNat = max 1 ((bytes.toNat + 4095) / 4096) := by
  have hlt := bytes.toNat_lt
  apply UInt64.toNat_ofNat_of_lt'
  rw [UInt64.size]
  omega

theorem storagePages_eq_bufferPages (bytes : UInt64) : storagePages bytes = bufferPages bytes := by
  rw [← UInt64.toNat_inj, toNat_bufferPages, toNat_storagePages, toNat_bytesToPages]

/-- One attempt to read the firmware's map. -/
inductive Attempt
  /-- No buffer for so many bytes could be had. -/
  | unallocated (bytes : UInt64) (asked : List Exchange) (cause : MemoryError)
  /-- The map was queried through a buffer, which was then given back. -/
  | queried (bytes : UInt64) (asked : List Exchange) (base : UInt64) (buffer : List UInt8)
      (reply : MapReply) (returned : Status)

/-- Whether a request queries the map. -/
def Exchange.isMapQuery : Exchange → Bool
  | getMemoryMap _ _ => true
  | _ => false

/-- What asks for pages or returns them does not query the map. -/
theorem Exchange.IsFor.not_isMapQuery {pages : UInt64} {call : Exchange}
    (h : call.IsFor pages) : call.isMapQuery = false := by
  cases call with
  | getMemoryMap => exact h.elim
  | _ => rfl

namespace Attempt

/-- Bytes that the buffer was to hold. -/
def bytes : Attempt → UInt64
  | unallocated bytes _ _ | queried bytes _ _ _ _ _ => bytes

/-- Where the buffer was, if there was one. -/
def base? : Attempt → Option UInt64
  | unallocated _ _ _ => none
  | queried _ _ base _ _ _ => some base

/-- The requests of an attempt: those for a buffer, then one query, then the return. -/
def calls : Attempt → List Exchange
  | unallocated _ asked _ => asked
  | queried bytes asked base buffer reply returned =>
      asked ++ [.getMemoryMap buffer reply,
        .freePages { base, pages := bufferPages bytes } returned]

/-- The firmware took the buffer back, if there was one. -/
def IsReturned : Attempt → Prop
  | unallocated _ _ _ => True
  | queried _ _ _ _ _ returned => returned = .success

/-- The requests for a buffer do not query the map, and do not return that buffer. -/
def Prepares : Attempt → Prop
  | unallocated _ asked _ => ∀ call ∈ asked, call.isMapQuery = false
  | queried bytes asked base _ _ _ => ∀ call ∈ asked,
      call.isMapQuery = false ∧ call.isReturnOf { base, pages := bufferPages bytes } = false

/-- How an attempt ends.  The bytes of the map are those that the firmware left in the
buffer, at most as many as it says. -/
inductive Ends : Attempt → Except MemoryError MapAttempt → Prop
  | unallocated {bytes : UInt64} {asked : List Exchange} {cause : MemoryError} :
      Ends (.unallocated bytes asked cause) (.error cause)
  | converted {bytes base : UInt64} {asked : List Exchange} {buffer : List UInt8}
      {reply : MapReply} {returned : Status} {map : E820.LegacyMap}
      (hstatus : reply.status = .success) (hstride : 40 ≤ reply.layout.stride.toNat)
      (hmap : E820.LegacyMap.ofMemoryMap
        ((overwrite buffer reply.written).take (min reply.layout.mapSize.toNat buffer.length))
        reply.layout.stride = .ok map) :
      Ends (.queried bytes asked base buffer reply returned) (.ok (.converted map))
  | narrow {bytes base : UInt64} {asked : List Exchange} {buffer : List UInt8}
      {reply : MapReply} {returned : Status} (hstatus : reply.status = .success)
      (hstride : reply.layout.stride.toNat < 40) :
      Ends (.queried bytes asked base buffer reply returned)
        (.error (.invalidDescriptorSize reply.layout.stride))
  | failed {bytes base : UInt64} {asked : List Exchange} {buffer : List UInt8}
      {reply : MapReply} {returned : Status} (hsuccess : reply.status ≠ .success)
      (hshort : reply.status ≠ .bufferTooSmall) :
      Ends (.queried bytes asked base buffer reply returned) (.error (.firmware reply.status))
  | short {bytes base required : UInt64} {asked : List Exchange} {buffer : List UInt8}
      {reply : MapReply} {returned : Status} (hstatus : reply.status = .bufferTooSmall)
      (hrequired : required.toNat =
        min (reply.layout.mapSize.toNat + 2 * reply.layout.stride.toNat) (0xffffffffffffffff)) :
      Ends (.queried bytes asked base buffer reply returned) (.ok (.short required))

/-- What an attempt does to a ledger.  A buffer that the firmware does not take back stays
recorded. -/
inductive Runs (ledger : PageLedger) : Attempt → PageLedger → Prop
  | unallocated {bytes : UInt64} {asked : List Exchange} {cause : MemoryError}
      (h : ledger.Allocates 0 (bufferPages bytes) asked (ledger, .error cause)) :
      Runs ledger (.unallocated bytes asked cause) ledger
  | returned {bytes base : UInt64} {asked : List Exchange} {buffer : List UInt8}
      {reply : MapReply} {grown : PageLedger}
      (h : ledger.Allocates 0 (bufferPages bytes) asked (grown, .ok base))
      (hlength : buffer.length = (pagesToBytes (bufferPages bytes)).toNat) :
      Runs ledger (.queried bytes asked base buffer reply .success) (grown.forget base)
  | kept {bytes base : UInt64} {asked : List Exchange} {buffer : List UInt8}
      {reply : MapReply} {returned : Status} {grown : PageLedger}
      (h : ledger.Allocates 0 (bufferPages bytes) asked (grown, .ok base))
      (hlength : buffer.length = (pagesToBytes (bufferPages bytes)).toNat)
      (hreturned : returned ≠ .success) :
      Runs ledger (.queried bytes asked base buffer reply returned) grown

end Attempt

/-- Attempts in order, at most so many, of which the first one has a buffer of some bytes.
Each attempt that found its buffer too short is followed by one with the wanted size, and an
attempt that ended otherwise is the last one.  They lead to another ledger and to a map or an
error. -/
inductive Trials : Nat → PageLedger → UInt64 → List Attempt →
    PageLedger × Except MemoryError E820.LegacyMap → Prop
  | exhausted {ledger : PageLedger} {required : UInt64} :
      Trials 0 ledger required [] (ledger, .error (.bufferTooSmall required))
  | failed {left : Nat} {ledger after : PageLedger} {attempt : Attempt} {cause : MemoryError}
      (hruns : attempt.Runs ledger after) (hends : attempt.Ends (.error cause)) :
      Trials (left + 1) ledger attempt.bytes [attempt] (after, .error cause)
  | converted {left : Nat} {ledger after : PageLedger} {attempt : Attempt}
      {map : E820.LegacyMap} (hruns : attempt.Runs ledger after)
      (hends : attempt.Ends (.ok (.converted map))) :
      Trials (left + 1) ledger attempt.bytes [attempt] (after, .ok map)
  | short {left : Nat} {ledger middle : PageLedger} {attempt : Attempt} {required : UInt64}
      {attempts : List Attempt} {outcome : PageLedger × Except MemoryError E820.LegacyMap}
      (hruns : attempt.Runs ledger middle) (hends : attempt.Ends (.ok (.short required)))
      (hrest : Trials left middle required attempts outcome) :
      Trials (left + 1) ledger attempt.bytes (attempt :: attempts) outcome

theorem Trials.length_le {left : Nat} {ledger : PageLedger} {bytes : UInt64}
    {attempts : List Attempt} {outcome : PageLedger × Except MemoryError E820.LegacyMap}
    (h : Trials left ledger bytes attempts outcome) : attempts.length ≤ left := by
  induction h with
  | exhausted => exact Nat.le_refl 0
  | failed => exact Nat.le_add_left 1 _
  | converted => exact Nat.le_add_left 1 _
  | short _ _ _ ih => exact Nat.succ_le_succ ih

/-! ## What a buffer does to the ledger -/

namespace PageLedger

variable {ledger grown : PageLedger} {address pages base : UInt64} {calls : List Exchange}

theorem Obtains.not_isMapQuery {result : Except MemoryError UInt64}
    (h : ledger.Obtains address pages calls result) :
    ∀ call ∈ calls, call.isMapQuery = false :=
  fun call hmem => (h.isFor call hmem).not_isMapQuery

/-- No request of an allocation queries the map. -/
theorem Allocates.not_isMapQuery {outcome : PageLedger × Except MemoryError UInt64}
    (h : ledger.Allocates address pages calls outcome) :
    ∀ call ∈ calls, call.isMapQuery = false := by
  cases h with
  | failed h => exact h.not_isMapQuery
  | obtained h hrecords =>
      intro call hmem
      rcases List.mem_append.1 hmem with hasked | hrest
      · exact h.not_isMapQuery call hasked
      · cases hrecords with
        | unrecorded => cases hrest
        | stored => cases hrest
        | full =>
            obtain rfl := List.mem_singleton.1 hrest
            rfl

/-- An allocation that succeeds does not return what it obtained. -/
theorem Allocates.not_isReturnOf
    (h : ledger.Allocates address pages calls (grown, .ok base)) :
    ∀ call ∈ calls, call.isReturnOf { base, pages } = false := by
  have hcount : calls.countP (·.isReturnOf { base, pages }) = 0 := by
    cases h with
    | obtained hobtains hrecords =>
        cases hrecords with
        | unrecorded => simpa using hobtains.gains.2
        | stored => simpa using hobtains.gains.2
  intro call hmem
  exact Bool.eq_false_iff.2 (List.countP_eq_zero.1 hcount call hmem)

/-- Forgetting a new range restores the ledger, if no held range has its base. -/
theorem Allocates.forget_eq (h : ledger.Allocates address pages calls (grown, .ok base))
    (hnew : base ∉ ledger.held.map PageRange.base) : grown.forget base = ledger := by
  cases h with
  | obtained _ hrecords =>
      cases hrecords with
      | unrecorded hnone => exact forget_of_none hnone _
      | @stored registry stored hregistry hstored =>
          rw [held_of_registry hregistry, List.map_cons, List.mem_cons, not_or] at hnew
          obtain ⟨hhome, hother⟩ := hnew
          rw [forget, Option.map_some, Registry.forget_store? hstored (Ne.symm hhome) hother,
            ← hregistry]

/-- Forgetting a new range leaves as many records of each base as there were, if the registry
itself has another base. -/
theorem Allocates.map_base_recorded_forget
    (h : ledger.Allocates address pages calls (grown, .ok base))
    (hhome : ledger.registryRange?.map PageRange.base ≠ some base) :
    (grown.forget base).recorded.map PageRange.base ~ ledger.recorded.map PageRange.base := by
  cases h with
  | obtained _ hrecords =>
      cases hrecords with
      | unrecorded hnone => rw [forget_of_none hnone]
      | @stored registry stored hregistry hstored =>
          rw [registryRange?, hregistry] at hhome
          have hne := fun heq => hhome (congrArg some heq)
          have hperm := Registry.map_base_recorded_forget_store? hstored hne
          rw [recorded, recorded, forget, hregistry]
          exact hperm

end PageLedger

/-! ## What attempts do to the ledger -/

namespace Attempt

variable {ledger after : PageLedger} {attempt : Attempt}

theorem Runs.prepares (h : attempt.Runs ledger after) : attempt.Prepares := by
  cases h with
  | unallocated h => exact h.not_isMapQuery
  | returned h => exact fun call hmem => ⟨h.not_isMapQuery call hmem, h.not_isReturnOf call hmem⟩
  | kept h => exact fun call hmem => ⟨h.not_isMapQuery call hmem, h.not_isReturnOf call hmem⟩

/-- A buffer is as long as its pages. -/
theorem Runs.length_buffer {bytes base : UInt64} {asked : List Exchange} {buffer : List UInt8}
    {reply : MapReply} {returned : Status}
    (h : (queried bytes asked base buffer reply returned).Runs ledger after) :
    buffer.length = (pagesToBytes (bufferPages bytes)).toNat := by
  cases h with
  | returned _ hlength => exact hlength
  | kept _ hlength => exact hlength

theorem Runs.registryRange?_eq (h : attempt.Runs ledger after) :
    after.registryRange? = ledger.registryRange? := by
  cases h with
  | unallocated => rfl
  | returned h => rw [PageLedger.registryRange?_forget, h.registryRange?_eq]
  | kept h => rw [h.registryRange?_eq]

theorem Runs.ledger_eq (h : attempt.Runs ledger after) (hreturned : attempt.IsReturned)
    (hnew : ∀ base ∈ attempt.base?, base ∉ ledger.held.map PageRange.base) :
    after = ledger := by
  cases h with
  | unallocated => rfl
  | returned h => exact h.forget_eq (hnew _ rfl)
  | kept _ _ hkept => exact (hkept hreturned).elim

theorem Runs.map_base_recorded (h : attempt.Runs ledger after)
    (hreturned : attempt.IsReturned)
    (hhome : ∀ base ∈ attempt.base?, ledger.registryRange?.map PageRange.base ≠ some base) :
    after.recorded.map PageRange.base ~ ledger.recorded.map PageRange.base := by
  cases h with
  | unallocated => rfl
  | returned h => exact h.map_base_recorded_forget (hhome _ rfl)
  | kept _ _ hkept => exact (hkept hreturned).elim

end Attempt

namespace Trials

variable {left : Nat} {ledger : PageLedger} {bytes : UInt64} {attempts : List Attempt}
  {outcome : PageLedger × Except MemoryError E820.LegacyMap}

theorem prepares (h : Trials left ledger bytes attempts outcome) :
    ∀ attempt ∈ attempts, attempt.Prepares := by
  induction h with
  | exhausted => simp
  | failed hruns => simpa using hruns.prepares
  | converted hruns => simpa using hruns.prepares
  | short hruns _ _ ih => exact List.forall_mem_cons.2 ⟨hruns.prepares, ih⟩

/-- Attempts whose buffers are new and are taken back leave the ledger as it was. -/
theorem ledger_eq (h : Trials left ledger bytes attempts outcome)
    (hreturned : ∀ attempt ∈ attempts, attempt.IsReturned)
    (hnew : ∀ attempt ∈ attempts, ∀ base ∈ attempt.base?,
      base ∉ ledger.held.map PageRange.base) : outcome.1 = ledger := by
  induction h with
  | exhausted => rfl
  | failed hruns =>
      exact hruns.ledger_eq (hreturned _ List.mem_cons_self) (hnew _ List.mem_cons_self)
  | converted hruns =>
      exact hruns.ledger_eq (hreturned _ List.mem_cons_self) (hnew _ List.mem_cons_self)
  | short hruns _ _ ih =>
      rw [List.forall_mem_cons] at hreturned hnew
      obtain rfl := hruns.ledger_eq hreturned.1 hnew.1
      exact ih hreturned.2 hnew.2

/-- Attempts whose buffers are taken back leave as many records of each base as there were. -/
theorem map_base_recorded (h : Trials left ledger bytes attempts outcome)
    (hreturned : ∀ attempt ∈ attempts, attempt.IsReturned)
    (hhome : ∀ attempt ∈ attempts, ∀ base ∈ attempt.base?,
      ledger.registryRange?.map PageRange.base ≠ some base) :
    outcome.1.recorded.map PageRange.base ~ ledger.recorded.map PageRange.base := by
  induction h with
  | exhausted => rfl
  | failed hruns =>
      exact hruns.map_base_recorded (hreturned _ List.mem_cons_self)
        (hhome _ List.mem_cons_self)
  | converted hruns =>
      exact hruns.map_base_recorded (hreturned _ List.mem_cons_self)
        (hhome _ List.mem_cons_self)
  | short hruns _ _ ih =>
      rw [List.forall_mem_cons] at hreturned hhome
      have hfirst := hruns.map_base_recorded hreturned.1 hhome.1
      refine (ih hreturned.2 ?_).trans hfirst
      rw [hruns.registryRange?_eq]
      exact hhome.2

end Trials

/-! ## The requests for a map -/

namespace PageLedger

open Services (Conducts)

variable {σ : Type} {services : Services σ} {firmware : σ} {ledger : PageLedger}

theorem toNat_grownSize (layout : MapLayout) :
    layout.grownSize.toNat =
      min (layout.mapSize.toNat + 2 * layout.stride.toNat) (0xffffffffffffffff) := by
  have htwo : (2 : UInt64).toNat = 2 := rfl
  rw [MapLayout.grownSize, toNat_saturatingAdd, toNat_saturatingMul, htwo]
  omega

/-- What is read from a buffer depends on the reply, and no request is needed for it. -/
theorem conducts_readMap (buffer : List UInt8) (reply : MapReply) :
    services.Conducts (readMap (MapOutcome.ofAnswer reply.status reply.layout)
        (overwrite buffer reply.written)) firmware fun calls result => calls = [] ∧
      ∀ bytes asked base returned,
        (Attempt.queried bytes asked base buffer reply returned).Ends result := by
  unfold readMap MapOutcome.ofAnswer
  by_cases hsuccess : reply.status = .success
  · rw [if_pos hsuccess]
    dsimp only
    have htake : (overwrite buffer reply.written).take reply.layout.mapSize.toNat =
        (overwrite buffer reply.written).take
          (min reply.layout.mapSize.toNat buffer.length) := by
      rw [List.take_eq_take_min, length_overwrite]
    cases hmap : E820.LegacyMap.ofMemoryMap
        ((overwrite buffer reply.written).take reply.layout.mapSize.toNat)
        reply.layout.stride with
    | error cause =>
        obtain ⟨hstride, rfl⟩ := (E820.LegacyMap.ofMemoryMap_eq_error_iff _ _ _).1 hmap
        exact .pure ⟨rfl, fun _ _ _ _ => .narrow hsuccess hstride⟩
    | ok map =>
        refine Conducts.notes_bind (.pure ⟨rfl, fun _ _ _ _ => .converted hsuccess ?_ ?_⟩)
        · by_contra hnarrow
          have hfails := (E820.LegacyMap.ofMemoryMap_eq_error_iff
            ((overwrite buffer reply.written).take reply.layout.mapSize.toNat)
            reply.layout.stride _).2 ⟨Nat.not_le.1 hnarrow, rfl⟩
          rw [hmap] at hfails
          cases hfails
        · rw [← htake]
          exact hmap
  · rw [if_neg hsuccess]
    by_cases hshort : reply.status = .bufferTooSmall
    · rw [if_pos hshort]
      exact .pure ⟨rfl, fun _ _ _ _ => .short hshort (toNat_grownSize reply.layout)⟩
    · rw [if_neg hshort]
      exact .pure ⟨rfl, fun _ _ _ _ => .failed hsuccess hshort⟩

/-- An attempt whose buffer can be had queries the map through it, in the state in which the
buffer was granted. -/
theorem conducts_attemptMap_of_granted {bytes base : UInt64}
    (hgranted : ((allocate services ledger 0 (storagePages bytes)).run firmware).value.2 =
      .ok base) :
    let granted := (allocate services ledger 0 (storagePages bytes)).run firmware
    services.Conducts (attemptMap services ledger bytes) firmware fun calls outcome =>
      ∃ buffer returned,
        let attempt := Attempt.queried bytes granted.exchanges base buffer
          (services.getMemoryMap buffer granted.firmware).1 returned
        calls = attempt.calls ∧ attempt.Runs ledger outcome.1 ∧ attempt.Ends outcome.2 := by
  unfold attemptMap
  dsimp only
  rw [storagePages_eq_bufferPages] at hgranted ⊢
  have hvalue : ((allocate services ledger 0 (bufferPages bytes)).run firmware).value =
      (_, .ok base) := Prod.ext rfl hgranted
  have hallocates : services.Conducts (allocate services ledger 0 (bufferPages bytes))
      firmware _ := conducts_allocate 0 (bufferPages bytes)
  have h := hallocates.ends
  rw [hvalue] at h
  refine Conducts.bind_run hallocates.dialogue ?_
  rw [hvalue]
  refine Conducts.window_bind_contents (Conducts.fetchMap_bind_reply ?_)
  refine (conducts_readMap _ _).bind ?_
  rintro _ result read ⟨rfl, hends⟩
  have hlength := services.length_contents
    ((allocate services ledger 0 (bufferPages bytes)).run firmware).firmware base
    (pagesToBytes (bufferPages bytes)).toNat
  refine (conducts_free _).bind ?_
  rintro _ _ last (hstatus | _)
  · exact Conducts.note_bind (.pure ⟨_, _, rfl, .kept h hlength hstatus, hends _ _ _ _⟩)
  · exact .pure ⟨_, _, rfl, .returned h hlength, hends _ _ _ _⟩

theorem conducts_attemptMap (bytes : UInt64) :
    services.Conducts (attemptMap services ledger bytes) firmware fun calls outcome =>
      ∃ attempt : Attempt, attempt.bytes = bytes ∧ calls = attempt.calls ∧
        attempt.Runs ledger outcome.1 ∧ attempt.Ends outcome.2 := by
  cases hresult : ((allocate services ledger 0 (storagePages bytes)).run firmware).value.2 with
  | error cause =>
      unfold attemptMap
      dsimp only
      rw [storagePages_eq_bufferPages] at hresult ⊢
      obtain ⟨grown, hvalue⟩ : ∃ grown, ((allocate services ledger 0 (bufferPages bytes)).run
          firmware).value = (grown, .error cause) := ⟨_, Prod.ext rfl hresult⟩
      have hallocates : services.Conducts (allocate services ledger 0 (bufferPages bytes))
          firmware _ := conducts_allocate 0 (bufferPages bytes)
      have h := hallocates.ends
      rw [hvalue] at h
      obtain rfl := h.eq_of_error
      refine Conducts.bind_run hallocates.dialogue ?_
      rw [hvalue]
      exact .pure ⟨.unallocated bytes _ cause, rfl, List.append_nil _, .unallocated h,
        .unallocated⟩
  | ok base =>
      refine (conducts_attemptMap_of_granted hresult).mono ?_
      rintro calls outcome ⟨buffer, returned, hcalls, hruns, hends⟩
      exact ⟨_, rfl, hcalls, hruns, hends⟩

/-- The requests for a map are those of attempts with growing buffers. -/
theorem conducts_obtainMap (left number : Nat) (bytes : UInt64) :
    services.Conducts (obtainMap services ledger left number bytes) firmware
      fun calls outcome => ∃ attempts, calls = attempts.flatMap Attempt.calls ∧
        Trials left ledger bytes attempts outcome := by
  induction left generalizing ledger firmware number bytes with
  | zero => exact .pure ⟨[], rfl, .exhausted⟩
  | succ left ih =>
      refine (conducts_attemptMap bytes).bind ?_
      rintro _ ⟨tried, result⟩ after ⟨attempt, rfl, rfl, hruns, hends⟩
      have hcalls : attempt.calls ++ [] = [attempt].flatMap Attempt.calls := by simp
      cases result with
      | error cause => exact .pure ⟨[attempt], hcalls, .failed hruns hends⟩
      | ok ending =>
          cases ending with
          | converted map =>
              exact Conducts.note_bind (.pure ⟨[attempt], hcalls, .converted hruns hends⟩)
          | short required =>
              refine Conducts.note_bind ((ih (number + 1) required).mono ?_)
              rintro _ outcome ⟨attempts, rfl, htrials⟩
              exact ⟨attempt :: attempts, rfl, .short hruns hends htrials⟩

end PageLedger

/-! ## A refresh -/

namespace Manager

variable {σ : Type}

/-- A manager after attempts at a fresh map, and its answer: it keeps no map that it could
not read again. -/
def afterTrials (manager : Manager) (outcome : PageLedger × Except MemoryError E820.LegacyMap) :
    Manager × Except MemoryError Unit :=
  match outcome with
  | (ledger, .ok map) => ({ manager with ledger, map }, .ok ())
  | (ledger, .error cause) =>
      ({ manager with ledger, map := { entries := [], truncated := false } }, .error cause)

theorem conducts_refresh {services : Services σ} {firmware : σ} {manager : Manager} :
    services.Conducts (refresh services manager) firmware fun calls outcome =>
      ∃ attempts after, calls = attempts.flatMap Attempt.calls ∧
        Trials (max 1 manager.limits.attempts) manager.ledger manager.limits.memoryMapBytes
          attempts after ∧
        outcome = manager.afterTrials after := by
  refine (PageLedger.conducts_obtainMap _ 1 _).bind_pure ?_
  rintro _ ⟨ledger, result⟩ ⟨attempts, rfl, htrials⟩
  cases result with
  | error cause => exact ⟨_, rfl, attempts, _, rfl, htrials, rfl⟩
  | ok map => exact ⟨_, rfl, attempts, _, rfl, htrials, rfl⟩

/-- On any firmware, which gives all the replies, the requests of a refresh are those of a
limited number of attempts, of which the last one decides about the map and the answer.  When
every buffer is taken back, then as many ranges of each base are recorded as before, and also
the ledger is as before if no buffer was granted at the base of a range that it holds. -/
theorem refresh_trials (services : Services σ) (manager : Manager) (start : σ) :
    let run := (refresh services manager).run start
    services.Dialogue start run.exchanges run.firmware ∧ ∃ attempts after,
      run.exchanges = attempts.flatMap Attempt.calls ∧
      Trials (max 1 manager.limits.attempts) manager.ledger manager.limits.memoryMapBytes
        attempts after ∧
      attempts.length ≤ max 1 manager.limits.attempts ∧
      (∀ attempt ∈ attempts, attempt.Prepares) ∧
      run.value = manager.afterTrials after ∧
      ((∀ attempt ∈ attempts, attempt.IsReturned) →
        ((∀ attempt ∈ attempts, ∀ base ∈ attempt.base?,
            manager.ledger.registryRange?.map PageRange.base ≠ some base) →
          after.1.recorded.map PageRange.base ~
            manager.ledger.recorded.map PageRange.base) ∧
        ((∀ attempt ∈ attempts, ∀ base ∈ attempt.base?,
            base ∉ manager.ledger.held.map PageRange.base) →
          after.1 = manager.ledger)) := by
  intro run
  have hconducts : services.Conducts (refresh services manager) start _ := conducts_refresh
  obtain ⟨attempts, after, hcalls, htrials, hvalue⟩ := hconducts.ends
  refine ⟨hconducts.dialogue, attempts, after, hcalls, htrials, htrials.length_le,
    htrials.prepares, hvalue, ?_⟩
  intro hreturned
  exact ⟨htrials.map_base_recorded hreturned, htrials.ledger_eq hreturned⟩

end Manager

end BootMemory
