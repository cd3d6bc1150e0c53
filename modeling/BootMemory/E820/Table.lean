import BootMemory.E820.LegacyMap

/-!
# The legacy map as a table

A kernel takes the map as packed bytes or copied into a table of its own.

Main results:

- Theorem {lit}`LegacyMap.decodeTable_bytes`: reading the packed bytes gives the
  entries back.
- Theorem {lit}`LegacyMap.length_exportTo`: an export keeps the length of the
  table.
-/

namespace BootMemory.E820

namespace LegacyMap

/-- The packed entries, one after the other. -/
def bytes (map : LegacyMap) : List UInt8 :=
  map.entries.flatMap Entry.bytes

/-- Read a given number of packed entries that fill the bytes. -/
def decodeTable : Nat → List UInt8 → Option (List Entry)
  | 0, packed => if packed.isEmpty then some [] else none
  | count + 1, packed =>
      match Entry.ofBytes? (packed.take Entry.width),
          decodeTable count (packed.drop Entry.width) with
      | some entry, some rest => some (entry :: rest)
      | _, _ => none

/-- How many entries fit into a table of some length. -/
def exportCount (map : LegacyMap) (length : Nat) : Nat :=
  min map.size length

/-- A table with the entries that fit copied over its front. -/
def exportTo (map : LegacyMap) (table : List Entry) : List Entry :=
  let count := map.exportCount table.length
  map.entries.take count ++ table.drop count

/-- Reading the packed bytes gives the entries back. -/
theorem decodeTable_bytes (map : LegacyMap) :
    decodeTable map.size map.bytes = some map.entries := by
  obtain ⟨entries, truncated⟩ := map
  simp only [size, bytes]
  induction entries with
  | nil => rfl
  | cons entry rest ih =>
      have htake : (entry.bytes ++ rest.flatMap Entry.bytes).take Entry.width = entry.bytes := by
        rw [← Entry.length_bytes entry, List.take_left]
      have hdrop : (entry.bytes ++ rest.flatMap Entry.bytes).drop Entry.width =
          rest.flatMap Entry.bytes := by
        rw [← Entry.length_bytes entry, List.drop_left]
      simp only [List.length_cons, List.flatMap_cons, decodeTable, htake, hdrop,
        Entry.ofBytes?_bytes, ih]

/-- An export keeps the length of the table. -/
@[simp] theorem length_exportTo (map : LegacyMap) (table : List Entry) :
    (map.exportTo table).length = table.length := by
  simp only [exportTo, exportCount, size, List.length_append, List.length_take, List.length_drop]
  omega

end LegacyMap

end BootMemory.E820
