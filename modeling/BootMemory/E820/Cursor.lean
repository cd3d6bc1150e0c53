import BootMemory.E820.LegacyMap

/-!
# Reading the legacy map one record at a time

A boot protocol that holds no reference to the map reads it with a cursor.  It
starts with cursor 0 and passes back the cursor that it got; a returned cursor 0
means that the record was the last one.  A cursor that names no entry gives the
empty record and cursor 0, which is also how an empty map looks.

Main results:

- Theorem {lit}`LegacyMap.next_of_getElem?`: a cursor that names an entry gives
  the record of that entry.
- Theorem {lit}`LegacyMap.next_of_negative`: a negative cursor gives the empty
  record.
-/

namespace BootMemory.E820

/-- One record of the map, as it is given to the reader. -/
structure Record where
  /-- Bytes of the fields that follow, zero in the empty record. -/
  width : UInt32
  address : UInt64
  length : UInt64
  code : UInt32
deriving DecidableEq, Repr, Inhabited

namespace Record

/-- The record that stands for no entry. -/
def empty : Record := { width := 0, address := 0, length := 0, code := 0 }

/-- The record of an entry. -/
def ofEntry (entry : Entry) : Record :=
  { width := 20, address := entry.address, length := entry.size, code := entry.code }

/-- A record of no length counts as empty. -/
def isEmpty (record : Record) : Bool := record.length == 0

end Record

namespace LegacyMap

/-- The entry that a cursor names. -/
def entryAt? (map : LegacyMap) (cursor : Int32) : Option Entry :=
  match cursor.toInt.toNat? with
  | none => none
  | some index => map.entries[index]?

/-- The record at a cursor, and the cursor for the next call. -/
def next (map : LegacyMap) (cursor : Int32) : Record × Int32 :=
  match map.entryAt? cursor with
  | none => (Record.empty, 0)
  | some entry =>
      let following := cursor + 1
      (Record.ofEntry entry, if following.toInt = map.size then 0 else following)

/-- What a reader gets that passes back each cursor, in at most a given number of
calls. -/
def follow (map : LegacyMap) : Nat → Int32 → List Record
  | 0, _ => []
  | calls + 1, cursor =>
      let (record, following) := map.next cursor
      if following = 0 then [record] else record :: map.follow calls following

/-- What a reader gets that starts at cursor 0.  An empty map still answers one
call, with the empty record. -/
def readOut (map : LegacyMap) : List Record :=
  map.follow (max 1 map.size) 0

/-- A cursor that names an entry gives the record of that entry. -/
theorem next_of_getElem? {map : LegacyMap} {cursor : Int32} {entry : Entry}
    (h : map.entryAt? cursor = some entry) : (map.next cursor).1 = Record.ofEntry entry := by
  simp [next, h]

/-- A negative cursor gives the empty record and ends the reading. -/
theorem next_of_negative (map : LegacyMap) {cursor : Int32} (h : cursor.toInt < 0) :
    map.next cursor = (Record.empty, 0) := by
  have hnone : cursor.toInt.toNat? = none := by
    obtain ⟨magnitude, hmagnitude⟩ := Int.eq_negSucc_of_lt_zero h
    rw [hmagnitude]
    rfl
  simp [next, entryAt?, hnone]

end LegacyMap

/-! ## A walk that knows when it is over -/

/-- A reader of a map that remembers where it is. -/
structure Walk where
  map : LegacyMap
  cursor : Int32 := 0
  started : Bool := false

namespace Walk

/-- A walk that has not begun. -/
def ofMap (map : LegacyMap) : Walk := { map }

/-- The next record, until the cursor is back at 0 or an empty record comes. -/
def next (walk : Walk) : Option Record × Walk :=
  if walk.started ∧ walk.cursor = 0 then (none, walk)
  else
    let (record, following) := walk.map.next walk.cursor
    if record.isEmpty then (none, { walk with cursor := 0, started := true })
    else (some record, { walk with cursor := following, started := true })

/-- The records up to the end, in at most a given number of calls. -/
def collect : Nat → Walk → List Record × Walk
  | 0, walk => ([], walk)
  | calls + 1, walk =>
      match walk.next with
      | (none, ended) => ([], ended)
      | (some record, rest) =>
          let (records, ended) := collect calls rest
          (record :: records, ended)

/-- All records, and the walk after the call that found no more. -/
def records (walk : Walk) : List Record × Walk :=
  walk.collect (walk.map.size + 1)

end Walk

end BootMemory.E820
