import BootMemory.Firmware.Arena
import BootMemory.Proofs.E820.Traversal
import BootMemory.Proofs.Machine.Chronicle

/-!
# Reading the slot while it changes

A reader of the slot holds nothing but a cursor, and anything can happen between two of its
calls: the map can be replaced by a longer or a shorter one, or be cleared.  Each call is still
answered from the map that is in the slot at that time, and the cursor grows by one with each
call, so the reader comes to an end within as many calls as a map can have entries.

Main results:

- Definition {lit}`Machine.readings`: the calls of a reader, with events before each of them.
- Definition {lit}`Walks`: calls at one index after another.
- Theorem {lit}`Machine.walks_readings`: the calls of a reader are such calls.
- Theorem {lit}`Machine.readings_of_reachable`: how a reader fares while maps that operations
  lead to are published, cleared and taken back.
-/

namespace BootMemory

open E820 (LegacyMap Record)

/-! ## Reachable maps -/

namespace Machine

/-- All maps that a machine knows are ones that operations on maps lead to. -/
structure MapsReachable (machine : Machine) : Prop where
  handoff : machine.handoff.map.Reachable
  managers : ∀ place manager, machine.manager? place = some manager → manager.map.Reachable

theorem mapsReachable_ofPlaces (places : Nat) : (ofPlaces places).MapsReachable := by
  refine ⟨LegacyMap.reachable_empty, ?_⟩
  intro place manager hplace
  rw [manager?_ofPlaces] at hplace
  cases hplace

section Ways

variable {machine after : Machine} {place : Nat} {calls : List Exchange}

theorem MapsReachable.seat (h : machine.MapsReachable) (place : Nat) {occupant : Option Manager}
    (hoccupant : ∀ manager, occupant = some manager → manager.map.Reachable) {slot : Handoff}
    (hslot : slot.map.Reachable) :
    ({ machine.seat place occupant with handoff := slot } : Machine).MapsReachable := by
  refine ⟨hslot, ?_⟩
  intro other manager hother
  have hseat := (manager?_seat machine place other occupant).symm.trans hother
  split at hseat
  next => exact hoccupant manager hseat
  next => exact h.managers other manager hseat

theorem reachable_handoffAfter {stage : Manager.Stage} {map : LegacyMap} {slot : Handoff}
    (hmap : map.Reachable) (hslot : slot.map.Reachable) (operation : Manager.Operation) :
    (stage.handoffAfter map slot operation).map.Reachable := by
  cases operation with
  | publish => exact hmap
  | teardown =>
      cases stage with
      | heard => exact LegacyMap.reachable_empty
      | silent => exact hslot
      | closed => exact hslot
  | _ => exact hslot

theorem MapsReachable.operate (h : machine.MapsReachable) {operation : Manager.Operation}
    {manager stepped : Manager} {slot : Handoff} {answer : Manager.Answer}
    (hplace : machine.manager? place = some manager)
    (htakes : manager.Takes machine.handoff operation calls (stepped, slot, answer)) :
    stepped.map.Reachable ∧ slot.map.Reachable := by
  have hmap := h.managers place manager hplace
  have hslot : slot = _ := htakes.handoff_eq
  rw [hslot]
  exact ⟨htakes.reachable hmap, reachable_handoffAfter hmap h.handoff operation⟩

theorem MapsReachable.vacate (h : machine.MapsReachable)
    (hvacates : machine.Vacates place calls after) : after.MapsReachable := by
  cases hvacates with
  | vacant => exact h
  | ended hplace hends =>
      refine h.seat place ?_ (h.operate hplace hends).2
      intro manager hmanager
      cases hmanager

/-- An event keeps the maps reachable, if it does not publish an unreachable one. -/
theorem Takes.mapsReachable {operation : Operation} (htakes : machine.Takes operation calls after)
    (h : machine.MapsReachable)
    (hpublished : ∀ map, operation = .publish map → map.Reachable) : after.MapsReachable := by
  cases htakes with
  | uninstalled hvacates => exact h.vacate hvacates
  | installed hvacates hcreates =>
      have hvacated := h.vacate hvacates
      refine hvacated.seat _ ?_ hvacated.handoff
      rintro _ ⟨⟩
      exact hcreates.reachable
  | vacated hvacates => exact h.vacate hvacates
  | unoperated => exact h
  | operated hplace htakes =>
      obtain ⟨hmap, hslot⟩ := h.operate hplace htakes
      refine h.seat _ ?_ hslot
      rintro _ ⟨⟩
      exact hmap
  | published => exact ⟨hpublished _ rfl, h.managers⟩
  | cleared => exact ⟨LegacyMap.reachable_empty, h.managers⟩

end Ways

theorem mapsReachable_runAll {σ : Type} (services : Services σ) {machine : Machine}
    (h : machine.MapsReachable) {operations : List Operation}
    (hpublished : ∀ map, .publish map ∈ operations → map.Reachable) (firmware : σ) :
    ((machine.runAll services operations).run firmware).value.1.MapsReachable := by
  induction operations generalizing machine firmware with
  | nil => exact h
  | cons operation rest ih =>
      have hconducts : services.Conducts (machine.step services operation) firmware _ :=
        conducts_step operation
      have hnext := hconducts.ends.mapsReachable h fun map heq =>
        hpublished map (heq ▸ List.mem_cons_self)
      exact ih hnext (fun map hmem => hpublished map (List.mem_cons_of_mem _ hmem)) _

end Machine

/-! ## The calls of a reader -/

/-- One call of a reader. -/
structure Reading where
  /-- The map that was published last before the call. -/
  shown : LegacyMap
  /-- The cursor of the call. -/
  cursor : Int32
  record : Record
  /-- The cursor for the next call. -/
  following : Int32
deriving DecidableEq, Repr

/-- The calls of a reader that starts with some cursor and passes back each cursor that it
gets, until it gets 0.  Before each call some events happen. -/
def Machine.readings {σ : Type} (services : Services σ) (machine : Machine)
    (chronicle : Chronicle) (cursor : Int32) : List (List Machine.Operation) → σ → List Reading
  | [], _ => []
  | operations :: rest, firmware =>
      let run := (machine.runAll services operations).run firmware
      let told := machine.chronicle services chronicle operations firmware
      let (record, following) := run.value.1.handoff.next cursor
      { shown := told.shown, cursor, record, following } ::
        if following = 0 then []
        else run.value.1.readings services told following rest run.firmware

/-- A call at some index of a map that fits a table. -/
structure Reading.IsAt (reading : Reading) (index : Nat) : Prop where
  fits : reading.shown.entries.length ≤ LegacyMap.capacity
  cursor : reading.cursor.toInt = index
  record : reading.record =
    reading.shown.entries[index]?.elim Record.empty Record.ofEntry
  following : reading.following.toInt =
    if index + 1 < reading.shown.entries.length then (index : Int) + 1 else 0

/-- Calls at one index after another, up to the one that gets cursor 0, if the reader comes as
far as that in the given number of calls. -/
inductive Walks : Nat → Nat → List Reading → Prop
  | paused {index : Nat} : Walks 0 index []
  | ended {left index : Nat} {reading : Reading} (h : reading.IsAt index)
      (hlast : reading.following = 0) : Walks (left + 1) index [reading]
  | continued {left index : Nat} {reading : Reading} {rest : List Reading}
      (h : reading.IsAt index) (hfollowing : reading.following.toInt = index + 1)
      (hroom : index + 1 < LegacyMap.capacity) (hrest : Walks left (index + 1) rest) :
      Walks (left + 1) index (reading :: rest)

section Calls

variable {reading : Reading} {index left : Nat} {calls : List Reading}

/-- A call with the cursor of an index is answered for that index. -/
theorem Reading.isAt_next {map : LegacyMap} (hfits : map.entries.length ≤ LegacyMap.capacity)
    {cursor : Int32} (hcursor : cursor.toInt = index) :
    ({ shown := map, cursor, record := (map.next cursor).1, following := (map.next cursor).2 } :
      Reading).IsAt index := by
  rcases Nat.lt_or_ge index map.entries.length with hindex | hend
  · have hnext := E820.toInt_add_one hcursor (Nat.lt_of_lt_of_le hindex hfits)
    rw [LegacyMap.next_of_lt hfits hcursor hindex]
    refine ⟨hfits, hcursor, ?_, ?_⟩
    · rw [List.getElem?_eq_getElem hindex, Option.elim_some]
    · dsimp only
      by_cases hlast : index + 1 = map.entries.length
      · rw [if_pos hlast, if_neg (by omega), Int32.toInt_zero]
      · rw [if_neg hlast, if_pos (by omega), hnext]
  · rw [LegacyMap.next_of_outside (by omega)]
    refine ⟨hfits, hcursor, ?_, ?_⟩
    · rw [List.getElem?_eq_none hend, Option.elim_none]
    · dsimp only
      rw [if_neg (by omega), Int32.toInt_zero]

/-- A call gets the empty record just when the map has no entry at the index. -/
theorem Reading.IsAt.record_eq_empty_iff (h : reading.IsAt index) :
    reading.record = Record.empty ↔ reading.shown.entries[index]? = none := by
  rw [h.record]
  cases reading.shown.entries[index]? with
  | none => exact iff_of_true rfl rfl
  | some entry =>
      refine iff_of_false ?_ nofun
      intro heq
      cases congrArg Record.width heq

/-- Such a call is the last one. -/
theorem Reading.IsAt.following_of_empty (h : reading.IsAt index)
    (hempty : reading.record = Record.empty) : reading.following = 0 := by
  have hend := List.getElem?_eq_none_iff.1 (h.record_eq_empty_iff.1 hempty)
  have hfollowing := h.following
  rw [if_neg (by omega)] at hfollowing
  exact Int32.toInt_inj.1 hfollowing

namespace Walks

/-- A reader comes to an end within as many calls as a table has entries. -/
theorem length_le (h : Walks left index calls) (hindex : index < LegacyMap.capacity) :
    index + calls.length ≤ LegacyMap.capacity := by
  induction h with
  | paused => exact Nat.le_of_lt hindex
  | ended => exact hindex
  | continued _ _ hroom _ ih =>
      have hrest := ih hroom
      rw [List.length_cons]
      omega

/-- If there is time for so many calls, the last one gets cursor 0. -/
theorem getLast?_eq (h : Walks left index calls) (hindex : index < LegacyMap.capacity)
    (hleft : LegacyMap.capacity ≤ index + left) :
    ∃ last, calls.getLast? = some last ∧ last.following = 0 := by
  induction h with
  | paused => omega
  | ended _ hlast => exact ⟨_, rfl, hlast⟩
  | continued _ _ hroom _ ih =>
      obtain ⟨last, hlast, hzero⟩ := ih hroom (by omega)
      refine ⟨last, ?_, hzero⟩
      rw [List.getLast?_cons, hlast, Option.getD_some]

/-- Each call is one at its own index, and a call that is not the last gets the next index. -/
theorem isAt_getElem (h : Walks left index calls) {place : Nat} (hplace : place < calls.length) :
    calls[place].IsAt (index + place) ∧
      (place + 1 < calls.length → calls[place].following.toInt = (index + place : Nat) + 1) := by
  induction h generalizing place with
  | paused => cases hplace
  | ended h =>
      obtain rfl := Nat.lt_one_iff.1 hplace
      exact ⟨h, fun hmore => absurd hmore (Nat.lt_irrefl 1)⟩
  | @continued _ index _ rest h hfollowing _ _ ih =>
      cases place with
      | zero => exact ⟨h, fun _ => hfollowing⟩
      | succ place =>
          have hrest := ih (Nat.lt_of_succ_lt_succ hplace)
          rw [Nat.succ_add_eq_add_succ] at hrest
          rw [List.getElem_cons_succ]
          exact ⟨hrest.1, fun hmore => hrest.2 (Nat.lt_of_succ_lt_succ hmore)⟩

end Walks

end Calls

/-! ## A reader among other events -/

namespace Machine

variable {σ : Type} (services : Services σ)

/-- The calls of a reader are calls at one index after another. -/
theorem walks_readings {machine : Machine} {chronicle : Chronicle}
    (hchronicle : chronicle.Describes machine) (hmaps : machine.MapsReachable)
    {rounds : List (List Operation)}
    (hpublished : ∀ map, .publish map ∈ rounds.flatten → map.Reachable) {cursor : Int32}
    {index : Nat} (hcursor : cursor.toInt = index) (firmware : σ) :
    Walks rounds.length index
      (machine.readings services chronicle cursor rounds firmware) := by
  induction rounds generalizing machine chronicle cursor index firmware with
  | nil => exact .paused
  | cons operations rest ih =>
      rw [List.flatten_cons] at hpublished
      let run := (machine.runAll services operations).run firmware
      let told := machine.chronicle services chronicle operations firmware
      let answer := run.value.1.handoff.next cursor
      have htold : told.Describes run.value.1 :=
        describes_runAll services hchronicle operations firmware
      have hreached : run.value.1.MapsReachable := mapsReachable_runAll services hmaps
        (fun map hmem => hpublished map (List.mem_append_left _ hmem)) firmware
      have hshown : run.value.1.handoff.map = told.shown := congrArg Handoff.map htold.handoff
      have hfits := hreached.handoff.isCanonical.length_le
      rw [hshown] at hfits
      have hanswer : answer = told.shown.next cursor := congrArg (·.next cursor) hshown
      have hcall := Reading.isAt_next hfits hcursor
      rw [← hanswer] at hcall
      show Walks _ index
        ({ shown := told.shown, cursor, record := answer.1, following := answer.2 } ::
          if answer.2 = 0 then []
          else run.value.1.readings services told answer.2 rest run.firmware)
      by_cases hzero : answer.2 = 0
      · rw [if_pos hzero]
        exact .ended hcall hzero
      · rw [if_neg hzero]
        have hfollowing : answer.2.toInt = _ := hcall.following
        split at hfollowing
        next hmore =>
          have hnext : answer.2.toInt = (index + 1 : Nat) := hfollowing
          exact .continued hcall hfollowing (Nat.lt_of_lt_of_le hmore hfits)
            (ih htold hreached (fun map hmem => hpublished map (List.mem_append_right _ hmem))
              hnext run.firmware)
        next => exact (hzero (Int32.toInt_inj.1 hfollowing)).elim

/-- A reader starts with cursor 0 after some events and goes on while managers come and go,
publish and end, and while maps that operations lead to are published and cleared.  It makes at
most 128 calls, and if it has time for so many, the last one gets cursor 0; before that, each
call gets its own number.  A call gets the entry at its cursor of the map that was published last
before the call, or the empty record, just when that map has no entry there, and then the call
is the last one. -/
theorem readings_of_reachable (places : Nat) (start : σ) (operations : List Operation)
    (rounds : List (List Operation))
    (hpublished : ∀ map, .publish map ∈ operations ++ rounds.flatten → map.Reachable) :
    let run := ((ofPlaces places).runAll services operations).run start
    let told := (ofPlaces places).chronicle services {} operations start
    let calls := run.value.1.readings services told 0 rounds run.firmware
    calls.length ≤ 128 ∧
      (128 ≤ rounds.length → ∃ last, calls.getLast? = some last ∧ last.following = 0) ∧
      ∀ index (h : index < calls.length),
        calls[index].cursor.toInt = index ∧
        (index + 1 < calls.length → calls[index].following.toInt = index + 1) ∧
        (∀ entry, calls[index].shown.entries[index]? = some entry →
          calls[index].record = Record.ofEntry entry) ∧
        (calls[index].record = Record.empty ↔ calls[index].shown.entries[index]? = none) ∧
        (calls[index].record = Record.empty →
          calls[index].following = 0 ∧ index + 1 = calls.length) := by
  intro run told calls
  have htold : told.Describes run.value.1 :=
    describes_runAll services (describes_ofPlaces places) operations start
  have hreached : run.value.1.MapsReachable :=
    mapsReachable_runAll services (mapsReachable_ofPlaces places)
      (fun map hmem => hpublished map (List.mem_append_left _ hmem)) start
  have hwalks : Walks rounds.length 0 calls := walks_readings services htold hreached
    (fun map hmem => hpublished map (List.mem_append_right _ hmem)) rfl run.firmware
  have hfirst : 0 < LegacyMap.capacity := Nat.zero_lt_succ 127
  have hlength := hwalks.length_le hfirst
  rw [Nat.zero_add] at hlength
  refine ⟨hlength, ?_, ?_⟩
  · intro hleft
    refine hwalks.getLast?_eq hfirst ?_
    rw [Nat.zero_add]
    exact hleft
  · intro index h
    obtain ⟨hcall, hfollowing⟩ := hwalks.isAt_getElem h
    rw [Nat.zero_add] at hcall hfollowing
    refine ⟨hcall.cursor, hfollowing, ?_, hcall.record_eq_empty_iff, ?_⟩
    · intro entry hentry
      rw [hcall.record, hentry, Option.elim_some]
    · intro hempty
      have hzero := hcall.following_of_empty hempty
      refine ⟨hzero, ?_⟩
      by_contra hmore
      have hnext := hfollowing (by omega)
      have hbits : (0 : Int32).toInt = 0 := rfl
      rw [hzero, hbits] at hnext
      omega

/-- A map of three entries is replaced by one of a single entry before the second call. -/
theorem readings_of_reachable_shorter_map :
    let long : LegacyMap := { entries := [
      { address := 0, size := 0x1000, code := 1 }, { address := 0x2000, size := 0x1000, code := 1 },
      { address := 0x3000, size := 0x1000, code := 2 }] }
    let short : LegacyMap := { entries := [{ address := 0, size := 0x1000, code := 1 }] }
    let operations : List Operation := [.install 0 {}, .operate 0 .publish]
    let rounds : List (List Operation) := [[.publish long], [.vacate 0, .publish short], []]
    let run := ((ofPlaces 1).runAll Arena.services operations).run {}
    let told := (ofPlaces 1).chronicle Arena.services {} operations ({} : Arena)
    let calls := run.value.1.readings Arena.services told 0 rounds run.firmware
    (∀ map, Operation.publish map ∈ operations ++ rounds.flatten → map.Reachable) ∧
      ∃ h : 1 < calls.length, calls[1].cursor.toInt = 1 ∧
        calls[1].record = Record.empty ∧ calls[1].following = 0 ∧ calls.length = 2 := by
  intro long short operations rounds
  have hlong : long.Reachable :=
    ⟨[.addRegion 0 { start := 0, size := 0x1000, kind := .ram },
      .addRegion 0 { start := 0x2000, size := 0x1000, kind := .ram },
      .addRegion 0 { start := 0x3000, size := 0x1000, kind := .reserved }], 0, by decide +kernel⟩
  have hshort : short.Reachable :=
    ⟨[.addRegion 0 { start := 0, size := 0x1000, kind := .ram }], 0, by decide +kernel⟩
  have hpublished : ∀ map, Operation.publish map ∈ operations ++ rounds.flatten →
      map.Reachable := by
    intro map hmem
    have hmaps : map = long ∨ map = short := by simpa [operations, rounds] using hmem
    rcases hmaps with rfl | rfl
    · exact hlong
    · exact hshort
  obtain ⟨_, _, hcalls⟩ := readings_of_reachable Arena.services 1 {} operations rounds hpublished
  obtain ⟨hcursor, _, _, hempty, hlast⟩ := hcalls 1 (by decide +kernel)
  have hrecord := hempty.2 (by decide +kernel)
  obtain ⟨hfollowing, hlength⟩ := hlast hrecord
  exact ⟨hpublished, _, hcursor, hrecord, hfollowing, hlength.symm.trans (Nat.add_one 1)⟩

end Machine

end BootMemory
