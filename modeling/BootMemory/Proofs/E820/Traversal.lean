import BootMemory.E820.Cursor
import BootMemory.Proofs.E820.Canonical

/-!
# Reading a map to its end

Cursor 0 both starts and ends a reading, and a length of zero stands for no record.  Still a
reader gets every entry once: no entry of a map is empty, and the cursor grows by one from entry
to entry, so that it is 0 again only behind the last one.

Main results:

- Definition {lit}`LegacyMap.cursorAfter`: the cursor of a reader after some calls.
- Definition {lit}`Walk.advance`: a walk after some calls.
- Theorems {lit}`LegacyMap.next_of_lt` and {lit}`LegacyMap.next_of_outside`: what a cursor gives.
- Theorem {lit}`LegacyMap.follow_of_lt`: a reader goes on from an index to the end.
- Theorem {lit}`Walk.IsAt.next`: a call moves a walk on by one index, also behind the end.
- Theorem {lit}`LegacyMap.traversal_of_reachable`: readers and walks get each entry once.
-/

namespace BootMemory.E820

/-- The next index of a table has a cursor. -/
theorem toInt_add_one {cursor : Int32} {index : Nat} (hcursor : cursor.toInt = index)
    (hindex : index < LegacyMap.capacity) : (cursor + 1).toInt = index + 1 := by
  have hcapacity : LegacyMap.capacity = 128 := rfl
  have hone : (1 : Int32).toInt = 1 := rfl
  rw [Int32.toInt_add, hcursor, hone]
  exact Int.bmod_eq_of_le (by omega) (by omega)

theorem add_one_ne_zero {cursor : Int32} {index : Nat} (hcursor : cursor.toInt = index)
    (hindex : index < LegacyMap.capacity) : cursor + 1 ≠ 0 := by
  intro hzero
  have hnext := toInt_add_one hcursor hindex
  rw [hzero, Int32.toInt_zero] at hnext
  omega

namespace LegacyMap

variable {map : LegacyMap} {cursor : Int32} {index : Nat}

/-! ## Single calls -/

theorem entryAt?_of_toInt (map : LegacyMap) (hcursor : cursor.toInt = index) :
    map.entryAt? cursor = map.entries[index]? := by
  rw [entryAt?, hcursor]
  rfl

/-- The cursor of an index gives the record of its entry and the cursor of the next index, or 0
behind the last entry. -/
theorem next_of_lt (hfits : map.entries.length ≤ capacity) (hcursor : cursor.toInt = index)
    (h : index < map.entries.length) :
    map.next cursor = (Record.ofEntry map.entries[index],
      if index + 1 = map.entries.length then 0 else cursor + 1) := by
  have hentry : map.entryAt? cursor = some map.entries[index] := by
    rw [entryAt?_of_toInt map hcursor, List.getElem?_eq_getElem h]
  have hlast : ((cursor + 1).toInt = map.size) = (index + 1 = map.entries.length) := by
    rw [toInt_add_one hcursor (Nat.lt_of_lt_of_le h hfits), size]
    exact propext (by omega)
  simp only [next, hentry, hlast]

/-- Any other cursor gives the empty record and ends the reading. -/
theorem next_of_outside (h : ¬ (0 ≤ cursor.toInt ∧ cursor.toInt < map.entries.length)) :
    map.next cursor = (Record.empty, 0) := by
  by_cases hnegative : cursor.toInt < 0
  · exact next_of_negative map hnegative
  · obtain ⟨index, hindex⟩ := Int.eq_ofNat_of_zero_le (Int.not_lt.1 hnegative)
    have hnone : map.entryAt? cursor = none := by
      rw [entryAt?_of_toInt map hindex, List.getElem?_eq_none]
      omega
    simp only [next, hnone]

/-! ## A reader -/

/-- The cursor of a reader that starts with 0 and passes back each cursor, after some calls. -/
def cursorAfter (map : LegacyMap) : Nat → Int32
  | 0 => 0
  | calls + 1 => (map.next (map.cursorAfter calls)).2

/-- Up to the end the cursor counts the calls. -/
theorem toInt_cursorAfter (hfits : map.entries.length ≤ capacity)
    (h : index < map.entries.length) : (map.cursorAfter index).toInt = index := by
  induction index with
  | zero => rfl
  | succ index ih =>
      have hbefore : index < map.entries.length := Nat.lt_of_succ_lt h
      have hcursor := ih hbefore
      rw [cursorAfter, next_of_lt hfits hcursor hbefore, if_neg (Nat.ne_of_lt h),
        toInt_add_one hcursor (Nat.lt_of_lt_of_le hbefore hfits)]
      rfl

/-- A reader goes on from an index to the end, if there is time for that many calls. -/
theorem follow_of_lt (hfits : map.entries.length ≤ capacity) {calls : Nat}
    (hcursor : cursor.toInt = index) (h : index < map.entries.length)
    (hcalls : map.entries.length ≤ index + calls) :
    map.follow calls cursor = (map.entries.drop index).map Record.ofEntry := by
  induction calls generalizing cursor index with
  | zero => omega
  | succ calls ih =>
      rw [List.drop_eq_getElem_cons h, List.map_cons, follow, next_of_lt hfits hcursor h]
      dsimp only
      by_cases hlast : index + 1 = map.entries.length
      · rw [if_pos hlast, if_pos rfl, hlast, List.drop_length, List.map_nil]
      · have hslot : index < capacity := Nat.lt_of_lt_of_le h hfits
        have hnext : (cursor + 1).toInt = (index + 1 : Nat) := toInt_add_one hcursor hslot
        rw [if_neg hlast, if_neg (add_one_ne_zero hcursor hslot), ih hnext (by omega) (by omega)]

/-- So it reads all entries from cursor 0, or the empty record once if there are none. -/
theorem follow_zero (hfits : map.entries.length ≤ capacity) {calls : Nat}
    (hcalls : max 1 map.entries.length ≤ calls) :
    map.follow calls 0 =
      if map.entries.length = 0 then [Record.empty] else map.entries.map Record.ofEntry := by
  by_cases hnone : map.entries.length = 0
  · obtain ⟨calls, rfl⟩ : ∃ fewer, calls = fewer + 1 := ⟨calls - 1, by omega⟩
    have hnext : map.next 0 = (Record.empty, 0) := next_of_outside (by simp [hnone])
    rw [if_pos hnone, follow, hnext]
    rfl
  · rw [if_neg hnone, follow_of_lt hfits rfl (Nat.pos_of_ne_zero hnone) (by omega), List.drop_zero]

end LegacyMap

/-! ## A walk -/

namespace Walk

/-- A walk after some more calls. -/
def advance (walk : Walk) : Nat → Walk
  | 0 => walk
  | calls + 1 => (walk.advance calls).next.2

/-- A walk over a map that has made as many calls as an index says.  Behind the end it stays
where it is. -/
structure IsAt (walk : Walk) (map : LegacyMap) (index : Nat) : Prop where
  map_eq : walk.map = map
  cursor : walk.cursor.toInt = if index < map.entries.length then (index : Int) else 0
  started : walk.started = true ↔ 0 < index

variable {walk : Walk} {map : LegacyMap} {index : Nat}

theorem isAt_ofMap (map : LegacyMap) : (ofMap map).IsAt map 0 where
  map_eq := rfl
  cursor := (ite_self (0 : Int)).symm
  started := by simp [ofMap]

/-- At an index with an entry a call gives the record of the entry. -/
theorem IsAt.next_of_lt (hcanonical : map.IsCanonical) (h : walk.IsAt map index)
    (hindex : index < map.entries.length) :
    walk.next.1 = some (Record.ofEntry map.entries[index]) ∧ walk.next.2.IsAt map (index + 1) := by
  obtain ⟨rfl, hcursor, hstarted⟩ := h
  rw [if_pos hindex] at hcursor
  have hfits : walk.map.entries.length ≤ LegacyMap.capacity := hcanonical.length_le
  have hopen : ¬ (walk.started = true ∧ walk.cursor = 0) := by
    rintro ⟨htrue, hzero⟩
    have hpos := hstarted.1 htrue
    rw [hzero, Int32.toInt_zero] at hcursor
    omega
  have hsize := hcanonical.size_ne_zero _ (List.getElem_mem hindex)
  have hfull : ¬ (Record.ofEntry walk.map.entries[index]).isEmpty = true := by
    simp [Record.isEmpty, Record.ofEntry, hsize]
  rw [next, if_neg hopen, LegacyMap.next_of_lt hfits hcursor hindex]
  dsimp only
  rw [if_neg hfull]
  refine ⟨rfl, rfl, ?_, by simp⟩
  by_cases hlast : index + 1 = walk.map.entries.length
  · rw [if_pos hlast, if_neg (by omega)]
    rfl
  · rw [if_neg hlast, if_pos (by omega),
      toInt_add_one hcursor (Nat.lt_of_lt_of_le hindex hfits)]
    rfl

/-- Behind the end a call gives nothing. -/
theorem IsAt.next_of_ge (h : walk.IsAt map index) (hend : map.entries.length ≤ index) :
    walk.next.1 = none ∧ walk.next.2.IsAt map (index + 1) := by
  obtain ⟨rfl, hcursor, hstarted⟩ := h
  rw [if_neg (Nat.not_lt.2 hend)] at hcursor
  have hzero : walk.cursor = 0 := Int32.toInt_inj.1 hcursor
  have hbehind : ¬ index + 1 < walk.map.entries.length := by omega
  by_cases hpos : 0 < index
  · have htrue := hstarted.2 hpos
    rw [next, if_pos ⟨htrue, hzero⟩]
    refine ⟨rfl, rfl, ?_, by simp [htrue]⟩
    rw [if_neg hbehind]
    exact hcursor
  · -- the first call on a map without entries
    have hfalse : ¬ (walk.started = true ∧ walk.cursor = 0) := fun h => hpos (hstarted.1 h.1)
    have hempty : walk.map.next walk.cursor = (Record.empty, 0) :=
      LegacyMap.next_of_outside (by omega)
    rw [next, if_neg hfalse, hempty]
    refine ⟨rfl, rfl, ?_, by simp [Record.isEmpty, Record.empty]⟩
    rw [if_neg hbehind]
    rfl

/-- A call gives the record at the index, if there is an entry, and moves the walk on by one. -/
theorem IsAt.next (hcanonical : map.IsCanonical) (h : walk.IsAt map index) :
    walk.next.1 = map.entries[index]?.map Record.ofEntry ∧ walk.next.2.IsAt map (index + 1) := by
  rcases Nat.lt_or_ge index map.entries.length with hindex | hend
  · rw [List.getElem?_eq_getElem hindex]
    exact h.next_of_lt hcanonical hindex
  · rw [List.getElem?_eq_none hend]
    exact h.next_of_ge hend

/-- After some calls a walk is at the index of their number. -/
theorem isAt_advance (hcanonical : map.IsCanonical) (calls : Nat) :
    ((ofMap map).advance calls).IsAt map calls := by
  induction calls with
  | zero => exact isAt_ofMap map
  | succ calls ih => exact (ih.next hcanonical).2

end Walk

/-! ## Every entry once -/

namespace LegacyMap

variable {map : LegacyMap}

/-- A reader that starts with cursor 0 and passes back each cursor gets the record of one entry
after the other, none of them empty, and cursor 0 just with the last one.  If it stops there, it
has read all entries, or the empty record once if there are none.  Every cursor that is no index
gives the empty record and cursor 0.  A walk gives one record after the other as well, and then
none on every further call. -/
theorem traversal_of_reachable (h : map.Reachable) :
    (∀ index (hindex : index < map.entries.length),
      let entry := map.entries[index]
      let answer := map.next (map.cursorAfter index)
      answer.1 = { width := 20, address := entry.address, length := entry.size,
                   code := entry.code } ∧
        answer.1.isEmpty = false ∧ (answer.2 = 0 ↔ index + 1 = map.entries.length)) ∧
      (∀ calls, max 1 map.entries.length ≤ calls → map.follow calls 0 =
        if map.entries.length = 0 then [Record.empty] else map.entries.map Record.ofEntry) ∧
      (∀ cursor : Int32, ¬ (0 ≤ cursor.toInt ∧ cursor.toInt < map.entries.length) →
        map.next cursor = (Record.empty, 0)) ∧
      ∀ calls, ((Walk.ofMap map).advance calls).next.1 =
        map.entries[calls]?.map Record.ofEntry := by
  have hcanonical := h.isCanonical
  have hfits : map.entries.length ≤ capacity := hcanonical.length_le
  refine ⟨?_, fun calls => follow_zero hfits, fun cursor => next_of_outside,
    fun calls => ((Walk.isAt_advance hcanonical calls).next hcanonical).1⟩
  intro index hindex entry answer
  have hcursor := toInt_cursorAfter hfits hindex
  have hanswer : answer = (Record.ofEntry entry, if index + 1 = map.entries.length then 0
      else map.cursorAfter index + 1) := next_of_lt hfits hcursor hindex
  have hsize : entry.size ≠ 0 := hcanonical.size_ne_zero entry (List.getElem_mem hindex)
  rw [hanswer]
  refine ⟨rfl, by simp [Record.isEmpty, Record.ofEntry, hsize], ?_⟩
  by_cases hlast : index + 1 = map.entries.length
  · simp [hlast]
  · simp only [if_neg hlast]
    exact iff_of_false (add_one_ne_zero hcursor (Nat.lt_of_lt_of_le hindex hfits)) hlast

/-- Two entries: the second call gets the second one and cursor 0, and a walk is over after two
calls. -/
theorem traversal_of_reachable_two_entries :
    let map : LegacyMap := { entries := [{ address := 0, size := 0x9f000, code := 1 },
      { address := 0x100000, size := 0x1000, code := 3 }] }
    map.Reachable ∧
      (map.next (map.cursorAfter 1)).1 =
        { width := 20, address := 0x100000, length := 0x1000, code := 3 } ∧
      (map.next (map.cursorAfter 1)).2 = 0 ∧ (map.follow 2 0).length = 2 ∧
      map.next 2 = (Record.empty, 0) ∧ ((Walk.ofMap map).advance 2).next.1 = none := by
  intro map
  have hreachable : map.Reachable :=
    ⟨[.addRegion 0 { start := 0, size := 0x9f000, kind := .ram },
      .addRegion 0 { start := 0x100000, size := 0x1000, kind := .acpi }], 0, by decide +kernel⟩
  obtain ⟨hcalls, hfollow, houtside, hwalk⟩ := traversal_of_reachable hreachable
  obtain ⟨hrecord, -, hlast⟩ := hcalls 1 (by decide)
  refine ⟨hreachable, hrecord, hlast.2 rfl, ?_, houtside 2 (by decide), hwalk 2⟩
  rw [hfollow 2 (by decide)]
  rfl

end LegacyMap

end BootMemory.E820
