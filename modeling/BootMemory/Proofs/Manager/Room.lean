import Mathlib.Data.List.Chain
import BootMemory.Firmware.Arena
import BootMemory.Proofs.Manager.Attempts

/-!
# Room for two descriptors

A buffer that was too short is followed by one with room for two descriptors more than the
firmware's map had, because the new buffer can itself split a descriptor of the map.  On a
firmware that tells its map, and whose map grows by no more than that from one query to the
next, this is enough: the second query finds the whole map at the latest.

Main results:

- Definition {lit}`MapReply.Tells`: a reply with the whole map if the buffer holds it.
- Definition {lit}`PageLedger.bufferRuns`: the allocations of the buffers, in order.
- Theorem {lit}`PageLedger.queriesThrough_obtainMap`: every buffer that can be had is queried
  through once and then returned.
- Theorem {lit}`Manager.refresh_of_room`: a refresh with two attempts translates the map of the
  last of at most two queries.
-/

namespace BootMemory

/-! ## Buffers -/

/-- A buffer for some bytes has room for them, also where its size is cut at the largest word. -/
theorem le_toNat_pagesToBytes_bufferPages (bytes : UInt64) :
    bytes.toNat ≤ (pagesToBytes (bufferPages bytes)).toNat := by
  have hlt := bytes.toNat_lt
  rw [toNat_pagesToBytes, toNat_bufferPages]
  omega

/-! ## Replies of a firmware that tells its map -/

/-- A reply that states the size of a map and its stride, and that holds all of the map if a
buffer of some length does. -/
structure MapReply.Tells (reply : MapReply) (map : List UInt8) (stride : UInt64)
    (capacity : Nat) : Prop where
  mapSize : reply.layout.mapSize.toNat = map.length
  stride : reply.layout.stride = stride
  whole : map.length ≤ capacity → reply.status = .success ∧ map <+: reply.written
  short : capacity < map.length → reply.status = .bufferTooSmall

/-- Whether a firmware in some state tells a map through any buffer. -/
def Services.TellsMap {σ : Type} (services : Services σ) (map : List UInt8) (stride : UInt64)
    (firmware : σ) : Prop :=
  ∀ buffer, (services.getMemoryMap buffer firmware).1.Tells map stride buffer.length

/-- What was written over a buffer is at its front, as far as it reaches. -/
theorem take_overwrite {buffer written map : List UInt8} (hmap : map <+: written)
    (hfits : map.length ≤ buffer.length) : (overwrite buffer written).take map.length = map := by
  obtain ⟨rest, rfl⟩ := hmap
  rw [overwrite, List.take_append_of_le_length, List.take_take, Nat.min_eq_left hfits,
    List.take_left]
  rw [List.length_take, List.length_append]
  omega

namespace Attempt.Ends

variable {bytes base stride : UInt64} {asked : List Exchange} {buffer map : List UInt8}
  {reply : MapReply} {returned : Status} {result : Except MemoryError MapAttempt}

/-- Through a buffer that holds the map, all of it is translated. -/
theorem of_whole (h : (Attempt.queried bytes asked base buffer reply returned).Ends result)
    (htells : reply.Tells map stride buffer.length) (hstride : 40 ≤ stride.toNat)
    (hfits : map.length ≤ buffer.length) :
    ∃ translated, result = .ok (.converted translated) ∧
      E820.LegacyMap.ofMemoryMap map stride = .ok translated := by
  obtain ⟨hstatus, hwritten⟩ := htells.whole hfits
  cases h with
  | converted _ _ hmap =>
      rw [htells.mapSize, htells.stride, Nat.min_eq_left hfits, take_overwrite hwritten hfits]
        at hmap
      exact ⟨_, rfl, hmap⟩
  | narrow _ hnarrow =>
      rw [htells.stride] at hnarrow
      omega
  | failed hsuccess => exact (hsuccess hstatus).elim
  | short hshort => cases hstatus.symm.trans hshort

/-- A shorter buffer is followed by one with room for the map and two descriptors. -/
theorem of_short (h : (Attempt.queried bytes asked base buffer reply returned).Ends result)
    (htells : reply.Tells map stride buffer.length) (hshort : buffer.length < map.length)
    (hroom : map.length + 2 * stride.toNat < UInt64.size) :
    ∃ required, result = .ok (.short required) ∧
      required.toNat = map.length + 2 * stride.toNat := by
  have hstatus := htells.short hshort
  cases h with
  | converted hsuccess => cases hstatus.symm.trans hsuccess
  | narrow hsuccess => cases hstatus.symm.trans hsuccess
  | failed _ hother => exact (hother hstatus).elim
  | short _ hrequired =>
      rw [htells.mapSize, htells.stride] at hrequired
      rw [UInt64.size] at hroom
      exact ⟨_, rfl, by omega⟩

end Attempt.Ends

/-- An attempt decides about the map, unless its buffer was too short. -/
theorem MapAttempt.last_or_short (result : Except MemoryError MapAttempt) :
    (∃ ending : Except MemoryError E820.LegacyMap, result = ending.map .converted) ∨
      ∃ required, result = .ok (.short required) := by
  rcases result with cause | translated | required
  · exact .inl ⟨.error cause, rfl⟩
  · exact .inl ⟨.ok translated, rfl⟩
  · exact .inr ⟨required, rfl⟩

/-! ## The buffers of a refresh -/

namespace PageLedger

variable {σ : Type}

section Buffers

variable (services : Services σ)

/-- The allocations of the buffers for a map, each from the state in which it is made.  An
attempt that asks for a larger buffer is followed by the next one. -/
def bufferRuns (ledger : PageLedger) : (left : Nat) → (bytes : UInt64) → σ →
    List (Boot.Run σ (PageLedger × Except MemoryError UInt64))
  | 0, _, _ => []
  | left + 1, bytes, firmware =>
      let tried := (attemptMap services ledger bytes).run firmware
      (allocate services ledger 0 (storagePages bytes)).run firmware ::
        match tried.value with
        | (ledger, .ok (.short required)) => bufferRuns ledger left required tried.firmware
        | _ => []

/-- The requests of an attempt whose buffer could be had: those for the buffer, one query in the
state in which it was granted, and its return. -/
def QueriesThrough (buffer : Boot.Run σ (PageLedger × Except MemoryError UInt64))
    (calls : List Exchange) : Prop :=
  (∀ call ∈ buffer.exchanges, call.isMapQuery = false) ∧
    ∃ base pages contents returned, buffer.value.2 = .ok base ∧
      calls = buffer.exchanges ++
        [.getMemoryMap contents (services.getMemoryMap contents buffer.firmware).1,
          .freePages { base, pages } returned]

/-- A buffer that could be had, in a state in which the firmware tells its map, and the size
after this map is a word. -/
structure Serves (map : σ → List UInt8) (stride : UInt64)
    (buffer : Boot.Run σ (PageLedger × Except MemoryError UInt64)) : Prop where
  granted : ∃ base, buffer.value.2 = .ok base
  tells : services.TellsMap (map buffer.firmware) stride buffer.firmware
  room : (map buffer.firmware).length + 2 * stride.toNat < UInt64.size

end Buffers

variable {services : Services σ} {ledger : PageLedger} {firmware : σ}
  {bytes base stride : UInt64} {map : σ → List UInt8}

/-! ## One attempt after another -/

/-- After an attempt that decides, there is no other one. -/
theorem obtainMap_run_of_last (left number : Nat) (ending : Except MemoryError E820.LegacyMap)
    (h : ((attemptMap services ledger bytes).run firmware).value.2 = ending.map .converted) :
    let tried := (attemptMap services ledger bytes).run firmware
    let run := (obtainMap services ledger (left + 1) number bytes).run firmware
    run.value = (tried.value.1, ending) ∧ run.exchanges = tried.exchanges ∧
      bufferRuns services ledger (left + 1) bytes firmware =
        [(allocate services ledger 0 (storagePages bytes)).run firmware] := by
  have hvalue : ((attemptMap services ledger bytes).run firmware).value =
      (_, ending.map .converted) := Prod.ext rfl h
  dsimp only
  rw [obtainMap, bufferRuns, Boot.value_bind, Boot.exchanges_bind, hvalue]
  cases ending with
  | error cause => exact ⟨rfl, List.append_nil _, rfl⟩
  | ok translated => exact ⟨rfl, List.append_nil _, rfl⟩

/-- After one that was too short, the next one has the wanted size. -/
theorem obtainMap_run_of_short (left number : Nat) {required : UInt64}
    (h : ((attemptMap services ledger bytes).run firmware).value.2 = .ok (.short required)) :
    let tried := (attemptMap services ledger bytes).run firmware
    let run := (obtainMap services ledger (left + 1) number bytes).run firmware
    let next := (obtainMap services tried.value.1 left (number + 1) required).run tried.firmware
    run.value = next.value ∧ run.exchanges = tried.exchanges ++ next.exchanges ∧
      bufferRuns services ledger (left + 1) bytes firmware =
        (allocate services ledger 0 (storagePages bytes)).run firmware ::
          bufferRuns services tried.value.1 left required tried.firmware := by
  have hvalue : ((attemptMap services ledger bytes).run firmware).value =
      (_, .ok (.short required)) := Prod.ext rfl h
  dsimp only
  rw [obtainMap, bufferRuns, Boot.value_bind, Boot.exchanges_bind, hvalue]
  exact ⟨rfl, rfl, rfl⟩

/-- Every buffer that can be had is queried through, one after another. -/
theorem queriesThrough_obtainMap (left number : Nat) (bytes : UInt64)
    (hgranted : ∀ buffer ∈ bufferRuns services ledger left bytes firmware,
      ∃ base, buffer.value.2 = .ok base) :
    ∃ parts, ((obtainMap services ledger left number bytes).run firmware).exchanges =
        parts.flatten ∧
      List.Forall₂ (QueriesThrough services) (bufferRuns services ledger left bytes firmware)
        parts := by
  induction left generalizing ledger firmware number bytes with
  | zero => exact ⟨[], rfl, .nil⟩
  | succ left ih =>
      let tried := (attemptMap services ledger bytes).run firmware
      have hpart : QueriesThrough services
          ((allocate services ledger 0 (storagePages bytes)).run firmware) tried.exchanges := by
        obtain ⟨base, hbase⟩ := hgranted _ List.mem_cons_self
        obtain ⟨buffer, returned, hcalls, hruns, _⟩ := (conducts_attemptMap_of_granted hbase).ends
        exact ⟨fun call hmem => (hruns.prepares call hmem).1, base, bufferPages bytes, buffer,
          returned, hbase, hcalls⟩
      rcases MapAttempt.last_or_short tried.value.2 with ⟨ending, hlast⟩ | ⟨required, hshort⟩
      · obtain ⟨_, hexchanges, hbuffers⟩ := obtainMap_run_of_last left number ending hlast
        rw [hexchanges, hbuffers]
        exact ⟨[tried.exchanges], (List.append_nil _).symm, .cons hpart .nil⟩
      · obtain ⟨_, hexchanges, hbuffers⟩ := obtainMap_run_of_short left number hshort
        rw [hbuffers, List.forall_mem_cons] at hgranted
        obtain ⟨parts, hparts, hqueries⟩ := ih (number + 1) required hgranted.2
        rw [hexchanges, hbuffers, hparts]
        exact ⟨tried.exchanges :: parts, rfl, .cons hpart hqueries⟩

/-- There are as many queries as buffers. -/
theorem QueriesThrough.countP_flatten
    {buffers : List (Boot.Run σ (PageLedger × Except MemoryError UInt64))}
    {parts : List (List Exchange)} (h : List.Forall₂ (QueriesThrough services) buffers parts) :
    parts.flatten.countP Exchange.isMapQuery = buffers.length := by
  induction h with
  | nil => rfl
  | cons hpart _ ih =>
      obtain ⟨hother, base, pages, contents, returned, _, rfl⟩ := hpart
      have hnone := List.countP_eq_zero.2 fun call hmem => Bool.not_eq_true _ ▸ hother call hmem
      rw [List.flatten_cons, List.countP_append, ih, List.countP_append, hnone]
      change 0 + 1 + _ = _ + 1
      omega

/-! ## Room for the map -/

/-- Through a buffer that holds the map, all of it is translated at once. -/
theorem obtainMap_of_whole (left number : Nat) (hstride : 40 ≤ stride.toNat)
    (hserves : Serves services map stride
      ((allocate services ledger 0 (storagePages bytes)).run firmware)) :
    let granted := (allocate services ledger 0 (storagePages bytes)).run firmware
    (map granted.firmware).length ≤ (pagesToBytes (bufferPages bytes)).toNat →
      ∃ translated,
        ((obtainMap services ledger (left + 1) number bytes).run firmware).value.2 =
          .ok translated ∧
        E820.LegacyMap.ofMemoryMap (map granted.firmware) stride = .ok translated ∧
        bufferRuns services ledger (left + 1) bytes firmware = [granted] := by
  intro granted hfits
  obtain ⟨base, hbase⟩ := hserves.granted
  obtain ⟨buffer, returned, _, hruns, hends⟩ := (conducts_attemptMap_of_granted hbase).ends
  rw [← hruns.length_buffer] at hfits
  obtain ⟨translated, hresult, hmap⟩ := hends.of_whole (hserves.tells buffer) hstride hfits
  obtain ⟨hvalue, _, hbuffers⟩ := obtainMap_run_of_last left number (.ok translated) hresult
  exact ⟨translated, congrArg Prod.snd hvalue, hmap, hbuffers⟩

/-- A shorter buffer is followed by one with room for two more descriptors. -/
theorem obtainMap_of_short (left number : Nat)
    (hserves : Serves services map stride
      ((allocate services ledger 0 (storagePages bytes)).run firmware)) :
    let granted := (allocate services ledger 0 (storagePages bytes)).run firmware
    let tried := (attemptMap services ledger bytes).run firmware
    (pagesToBytes (bufferPages bytes)).toNat < (map granted.firmware).length →
      ∃ required, required.toNat = (map granted.firmware).length + 2 * stride.toNat ∧
        ((obtainMap services ledger (left + 1) number bytes).run firmware).value =
          ((obtainMap services tried.value.1 left (number + 1) required).run
            tried.firmware).value ∧
        bufferRuns services ledger (left + 1) bytes firmware =
          granted :: bufferRuns services tried.value.1 left required tried.firmware := by
  intro granted tried hshort
  obtain ⟨base, hbase⟩ := hserves.granted
  obtain ⟨buffer, returned, _, hruns, hends⟩ := (conducts_attemptMap_of_granted hbase).ends
  rw [← hruns.length_buffer] at hshort
  obtain ⟨required, hresult, hrequired⟩ :=
    hends.of_short (hserves.tells buffer) hshort hserves.room
  obtain ⟨hvalue, _, hbuffers⟩ := obtainMap_run_of_short left number hresult
  exact ⟨required, hrequired, hvalue, hbuffers⟩

/-- If the map grows by no more than two descriptors from one query to the next, then it is
translated after two queries at most. -/
theorem obtainMap_of_room {left : Nat} (number : Nat) (hleft : 2 ≤ left)
    (hstride : 40 ≤ stride.toNat)
    (hserves : ∀ buffer ∈ bufferRuns services ledger left bytes firmware,
      Serves services map stride buffer)
    (hgrowth : (bufferRuns services ledger left bytes firmware).IsChain fun first second =>
      (map second.firmware).length ≤ (map first.firmware).length + 2 * stride.toNat) :
    let buffers := bufferRuns services ledger left bytes firmware
    buffers.length ≤ 2 ∧ ∃ last translated, buffers.getLast? = some last ∧
      E820.LegacyMap.ofMemoryMap (map last.firmware) stride = .ok translated ∧
      ((obtainMap services ledger left number bytes).run firmware).value.2 = .ok translated := by
  obtain ⟨left, rfl⟩ := Nat.exists_eq_add_of_le' hleft
  intro buffers
  let first := (allocate services ledger 0 (storagePages bytes)).run firmware
  let tried := (attemptMap services ledger bytes).run firmware
  have hfirst : Serves services map stride first := hserves _ List.mem_cons_self
  rcases Nat.lt_or_ge (pagesToBytes (bufferPages bytes)).toNat (map first.firmware).length
    with hshort | hfits
  · obtain ⟨required, hrequired, hvalue, hmore⟩ :=
      obtainMap_of_short (left + 1) number hfirst hshort
    let second := (allocate services tried.value.1 0 (storagePages required)).run tried.firmware
    rw [hmore] at hserves hgrowth
    have hsecond : Serves services map stride second :=
      hserves _ (List.mem_cons_of_mem _ List.mem_cons_self)
    -- the second buffer has room for two descriptors more than the first query saw
    have hgrown : (map second.firmware).length ≤
        (map first.firmware).length + 2 * stride.toNat :=
      (List.isChain_cons_cons.1 hgrowth).1
    have hfits : (map second.firmware).length ≤ (pagesToBytes (bufferPages required)).toNat :=
      calc (map second.firmware).length
        _ ≤ (map first.firmware).length + 2 * stride.toNat := hgrown
        _ = required.toNat := hrequired.symm
        _ ≤ _ := le_toNat_pagesToBytes_bufferPages required
    obtain ⟨translated, hresult, hmap, hrest⟩ :=
      obtainMap_of_whole left (number + 1) hstride hsecond hfits
    have hbuffers : buffers = [first, second] := hmore.trans (congrArg _ hrest)
    rw [hbuffers, hvalue]
    exact ⟨Nat.le_refl 2, second, translated, rfl, hmap, hresult⟩
  · obtain ⟨translated, hresult, hmap, hsingle⟩ :=
      obtainMap_of_whole (left + 1) number hstride hfirst hfits
    have hbuffers : buffers = [first] := hsingle
    rw [hbuffers]
    exact ⟨Nat.le_add_left 1 1, first, translated, rfl, hmap, hresult⟩

end PageLedger

/-! ## An arena whose grants split descriptors -/

namespace Arena

/-- Answer a request for pages; a grant adds two descriptors to the map. -/
def grantSplitting (placement : Placement) (type : MemoryType) (pages : UInt64) (arena : Arena) :
    GrantReply × Arena :=
  let (reply, rest) := allocatePages placement type pages arena
  if reply.status = .success then
    (reply, { rest with map := rest.map ++ List.replicate (2 * rest.stride.toNat) 0 })
  else (reply, rest)

/-- The arena as a firmware with such grants. -/
def splittingServices : Services Arena := { services with allocatePages := grantSplitting }

/-- Without scripted answers the arena tells its map. -/
theorem tellsMap_splittingServices {arena : Arena} (hscript : arena.script.maps = [])
    (hlength : arena.map.length < UInt64.size) :
    splittingServices.TellsMap arena.map arena.stride arena := by
  intro buffer
  change (getMemoryMap buffer arena).1.Tells arena.map arena.stride buffer.length
  have hreply : (getMemoryMap buffer arena).1 = arena.mapNormally buffer.length := by
    rw [getMemoryMap, hscript]
    rfl
  have hsize : (UInt64.ofNat arena.map.length).toNat = arena.map.length :=
    UInt64.toNat_ofNat_of_lt' hlength
  rw [hreply, mapNormally]
  by_cases hshort : buffer.length < arena.map.length
  · rw [if_pos hshort]
    exact ⟨hsize, rfl, fun hfits => (Nat.not_le.2 hshort hfits).elim, fun _ => rfl⟩
  · rw [if_neg hshort]
    exact ⟨hsize, rfl, fun _ => ⟨rfl, List.prefix_rfl⟩, fun hless => (hshort hless).elim⟩

theorem serves_splittingServices {base : UInt64}
    {buffer : Boot.Run Arena (PageLedger × Except MemoryError UInt64)}
    (hgranted : buffer.value.2 = .ok base) (hscript : buffer.firmware.script.maps = [])
    (hroom : buffer.firmware.map.length + 2 * buffer.firmware.stride.toNat < UInt64.size) :
    PageLedger.Serves splittingServices Arena.map buffer.firmware.stride buffer :=
  ⟨⟨base, hgranted⟩, tellsMap_splittingServices hscript (by omega), hroom⟩

end Arena

/-! ## A refresh -/

namespace Manager

open PageLedger (QueriesThrough Serves)

variable {σ : Type}

/-- The allocations of the buffers of a refresh. -/
def bufferRuns (services : Services σ) (manager : Manager) (start : σ) :
    List (Boot.Run σ (PageLedger × Except MemoryError UInt64)) :=
  PageLedger.bufferRuns services manager.ledger (max 1 manager.limits.attempts)
    manager.limits.memoryMapBytes start

theorem refresh_run (services : Services σ) (manager : Manager) (start : σ) :
    let obtained := (manager.ledger.obtainMap services (max 1 manager.limits.attempts) 1
      manager.limits.memoryMapBytes).run start
    let run := (refresh services manager).run start
    run.value = manager.afterTrials obtained.value ∧ run.exchanges = obtained.exchanges := by
  dsimp only
  rw [refresh, Boot.value_bind, Boot.exchanges_bind]
  rcases ((manager.ledger.obtainMap services (max 1 manager.limits.attempts) 1
    manager.limits.memoryMapBytes).run start).value with ⟨ledger, cause | map⟩
  · exact ⟨rfl, List.append_nil _⟩
  · exact ⟨rfl, List.append_nil _⟩

/-- A refresh with two attempts or more works if every buffer can be had on a firmware that tells
its map, and if the map grows by at most two descriptors from one query to the next.  It queries
the map at most twice, and the legacy map translates all of the firmware's map in the state of
the last query. -/
theorem refresh_of_room (services : Services σ) (map : σ → List UInt8) {stride : UInt64}
    (manager : Manager) (start : σ) (hattempts : 2 ≤ manager.limits.attempts)
    (hstride : 40 ≤ stride.toNat)
    (hserves : ∀ buffer ∈ bufferRuns services manager start, Serves services map stride buffer)
    (hgrowth : (bufferRuns services manager start).IsChain fun first second =>
      (map second.firmware).length ≤ (map first.firmware).length + 2 * stride.toNat) :
    let run := (refresh services manager).run start
    run.value.2 = .ok () ∧
      (∃ parts, run.exchanges = parts.flatten ∧
        List.Forall₂ (QueriesThrough services) (bufferRuns services manager start) parts) ∧
      run.exchanges.countP Exchange.isMapQuery ≤ 2 ∧
      ∃ last, (bufferRuns services manager start).getLast? = some last ∧
        E820.LegacyMap.ofMemoryMap (map last.firmware) stride = .ok run.value.1.map := by
  intro run
  obtain ⟨hvalue, hexchanges⟩ := refresh_run services manager start
  have hleft : 2 ≤ max 1 manager.limits.attempts := hattempts.trans (Nat.le_max_right _ _)
  obtain ⟨parts, hparts, hqueries⟩ :=
    PageLedger.queriesThrough_obtainMap _ 1 _ fun buffer hmem => (hserves buffer hmem).granted
  obtain ⟨hlength, last, translated, hlast, hmap, hresult⟩ :=
    PageLedger.obtainMap_of_room 1 hleft hstride hserves hgrowth
  have hcalls : run.exchanges = parts.flatten := hexchanges.trans hparts
  have hended : run.value = manager.afterTrials (_, .ok translated) :=
    hvalue.trans (congrArg _ (Prod.ext rfl hresult))
  rw [hended]
  refine ⟨rfl, ⟨parts, hcalls, hqueries⟩, ?_, last, hlast, hmap⟩
  rw [hcalls, QueriesThrough.countP_flatten hqueries]
  exact hlength

/-- A map that fills its first buffer but for sixteen bytes: the grant of this buffer makes the
map too long, and the next buffer has room for what its own grant adds. -/
theorem refresh_of_room_splittingServices :
    let limits : Limits := { memoryMapBytes := 0 }
    let manager : Manager :=
      { limits, ledger := .ofLimits limits, map := .empty, published := false }
    let start : Arena := { map := List.replicate 4080 0 }
    let buffers := bufferRuns Arena.splittingServices manager start
    let run := (refresh Arena.splittingServices manager).run start
    buffers.map (·.firmware.map.length) = [4160, 4240] ∧ run.value.2 = .ok () ∧
      run.exchanges.countP Exchange.isMapQuery ≤ 2 ∧
      ∃ last, buffers.getLast? = some last ∧
        E820.LegacyMap.ofMemoryMap last.firmware.map 40 = .ok run.value.1.map := by
  intro limits manager start buffers
  let shown (buffer : Boot.Run Arena (PageLedger × Except MemoryError UInt64)) :=
    (buffer.value.2, buffer.firmware.map.length, buffer.firmware.stride,
      buffer.firmware.script.maps)
  have hshown : buffers.map shown =
      [(.ok 0x100000, 4160, 40, []), (.ok 0x101000, 4240, 40, [])] := by
    decide +kernel
  have hserve {buffer base length} (hlength : length < 5000)
      (h : shown buffer = (.ok base, length, 40, [])) :
      Serves Arena.splittingServices Arena.map 40 buffer := by
    simp only [shown, Prod.mk.injEq] at h
    obtain ⟨hgranted, hbytes, hstride, hscript⟩ := h
    have hforty : buffer.firmware.stride.toNat = 40 := congrArg UInt64.toNat hstride
    rw [← hstride]
    refine Arena.serves_splittingServices hgranted hscript ?_
    rw [UInt64.size]
    omega
  have hserves : ∀ buffer ∈ buffers, Serves Arena.splittingServices Arena.map 40 buffer := by
    intro buffer hmem
    have hone : shown buffer ∈ buffers.map shown := List.mem_map.2 ⟨buffer, hmem, rfl⟩
    rw [hshown] at hone
    rcases List.mem_cons.1 hone with hfirst | hlast
    · exact hserve (by decide) hfirst
    · exact hserve (by decide) (List.mem_singleton.1 hlast)
  have hgrowth : (buffers.map shown).IsChain fun first second =>
      second.2.1 ≤ first.2.1 + 2 * (40 : UInt64).toNat := by
    rw [hshown]
    decide
  have hlengths : buffers.map (·.firmware.map.length) = [4160, 4240] := by
    have hprojected := congrArg (List.map (·.2.1)) hshown
    rw [List.map_map] at hprojected
    exact hprojected
  obtain ⟨hanswer, _, hcount, hlast⟩ :=
    refresh_of_room Arena.splittingServices Arena.map manager start (by decide) (by decide)
      hserves ((List.isChain_map shown).1 hgrowth)
  dsimp only
  exact ⟨hlengths, hanswer, hcount, hlast⟩

end Manager

end BootMemory
