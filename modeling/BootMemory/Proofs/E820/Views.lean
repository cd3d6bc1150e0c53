import BootMemory.E820.Table
import BootMemory.Proofs.E820.Traversal

/-!
# The views of a map

A map leaves the memory layer in three forms: as packed bytes, as the records of a walk, and
copied into a table of the kernel.  They show the same entries in the same order.  The bytes and
the mark of truncation are also all that two maps can differ in.

Main results:

- Theorem {lit}`LegacyMap.decodeTable_bytes_eq_some_iff`: the packed bytes can be read in one
  way only.
- Theorem {lit}`LegacyMap.eq_iff_bytes_eq`: maps are told apart by their bytes and marks.
- Theorem {lit}`Walk.records_ofMap`: a walk gives all records and is over then.
- Theorems {lit}`LegacyMap.take_exportTo` and {lit}`LegacyMap.drop_exportTo`: what an export
  copies, and what it leaves.
- Theorem {lit}`LegacyMap.views_of_reachable`: the three forms agree.
-/

namespace BootMemory.E820

/-! ## Packed bytes -/

namespace LegacyMap

@[simp] theorem length_bytes (map : LegacyMap) : map.bytes.length = Entry.width * map.size := by
  simp [bytes, size, List.length_flatMap, Nat.mul_comm]

/-- A table is read from as many bytes as its entries fill. -/
theorem length_of_decodeTable {count : Nat} {packed : List UInt8} {entries : List Entry}
    (h : decodeTable count packed = some entries) : packed.length = Entry.width * count := by
  induction count generalizing packed entries with
  | zero =>
      rw [decodeTable] at h
      split at h
      next hempty => rw [List.isEmpty_iff.1 hempty, List.length_nil, Nat.mul_zero]
      next => cases h
  | succ count ih =>
      rw [decodeTable] at h
      split at h
      next entry rest hentry hrest =>
        have hlength := ih hrest
        have hwidth : (packed.take Entry.width).length = Entry.width := by
          rw [Entry.ofBytes?] at hentry
          split at hentry
          next hwidth => exact hwidth
          next => cases hentry
        rw [List.length_drop] at hlength
        rw [List.length_take] at hwidth
        rw [Nat.mul_succ]
        omega
      next => cases h

/-- The packed bytes of a map can be read in one way only. -/
theorem decodeTable_bytes_eq_some_iff (map : LegacyMap) (count : Nat) (entries : List Entry) :
    decodeTable count map.bytes = some entries ↔ count = map.size ∧ entries = map.entries := by
  constructor
  · intro h
    have hlength := length_of_decodeTable h
    rw [length_bytes] at hlength
    obtain rfl : map.size = count := Nat.eq_of_mul_eq_mul_left (by decide) hlength
    rw [decodeTable_bytes] at h
    exact ⟨rfl, (Option.some.inj h).symm⟩
  · rintro ⟨rfl, rfl⟩
    exact decodeTable_bytes map

/-- Maps are told apart by their packed bytes and the mark of truncation. -/
theorem eq_iff_bytes_eq (map other : LegacyMap) :
    map = other ↔ map.bytes = other.bytes ∧ map.truncated = other.truncated := by
  constructor
  · rintro rfl
    exact ⟨rfl, rfl⟩
  · rintro ⟨hbytes, htruncated⟩
    have hread : decodeTable map.size other.bytes = some map.entries :=
      hbytes ▸ decodeTable_bytes map
    obtain ⟨-, hentries⟩ := (decodeTable_bytes_eq_some_iff other _ _).1 hread
    obtain ⟨entries, truncated⟩ := map
    simp only at hentries htruncated
    rw [hentries, htruncated]

end LegacyMap

/-! ## Records -/

namespace Walk

variable {walk : Walk} {map : LegacyMap} {index : Nat}

/-- A walk at some index gives the records from there to the end, and is over then. -/
theorem IsAt.collect (hcanonical : map.IsCanonical) (h : walk.IsAt map index) {calls : Nat}
    (hcalls : map.entries.length < index + calls) :
    (walk.collect calls).1 = (map.entries.drop index).map Record.ofEntry ∧
      (walk.collect calls).2.next.1 = none := by
  induction calls generalizing walk index with
  | zero =>
      rw [List.drop_of_length_le (by omega)]
      exact ⟨rfl, (h.next_of_ge (by omega)).1⟩
  | succ calls ih =>
      rcases Nat.lt_or_ge index map.entries.length with hindex | hend
      · obtain ⟨hrecord, hnext⟩ := h.next_of_lt hcanonical hindex
        obtain ⟨hrest, hover⟩ := ih hnext (by omega)
        have hcollect : walk.collect (calls + 1) =
            (Record.ofEntry map.entries[index] :: (walk.next.2.collect calls).1,
              (walk.next.2.collect calls).2) := by
          rw [Walk.collect, ← Prod.eta walk.next, hrecord]
        rw [hcollect, List.drop_eq_getElem_cons hindex, List.map_cons]
        exact ⟨congrArg _ hrest, hover⟩
      · obtain ⟨hnone, hnext⟩ := h.next_of_ge hend
        have hcollect : walk.collect (calls + 1) = ([], walk.next.2) := by
          rw [Walk.collect, ← Prod.eta walk.next, hnone]
        rw [hcollect, List.drop_of_length_le hend]
        exact ⟨rfl, (hnext.next_of_ge (by omega)).1⟩

/-- A walk gives the records of all entries, and is over then. -/
theorem records_ofMap (hcanonical : map.IsCanonical) :
    (ofMap map).records.1 = map.entries.map Record.ofEntry ∧
      (ofMap map).records.2.next.1 = none := by
  have hcalls : map.entries.length < 0 + ((ofMap map).map.size + 1) := by
    rw [Nat.zero_add]
    exact Nat.lt_succ_self _
  exact (isAt_ofMap map).collect hcanonical hcalls

end Walk

/-! ## Tables -/

namespace LegacyMap

variable {map : LegacyMap}

theorem length_take_exportCount (map : LegacyMap) (length : Nat) :
    (map.entries.take (map.exportCount length)).length = map.exportCount length := by
  rw [List.length_take, exportCount, size]
  omega

/-- The front of a table gets as many entries as fit. -/
theorem take_exportTo (map : LegacyMap) (table : List Entry) :
    (map.exportTo table).take (map.exportCount table.length) =
      map.entries.take (map.exportCount table.length) := by
  rw [exportTo, List.take_left' (map.length_take_exportCount table.length)]

/-- The rest of the table stays as it was. -/
theorem drop_exportTo (map : LegacyMap) (table : List Entry) :
    (map.exportTo table).drop (map.exportCount table.length) =
      table.drop (map.exportCount table.length) := by
  rw [exportTo, List.drop_left' (map.length_take_exportCount table.length)]

/-- The packed bytes of a map are twenty for each entry, and reading them gives the entries and
nothing else.  A walk gives the records of the same entries and is over then.  An export into a
table of any length copies as many entries as there are or as fit, in the order of the walk, says
how many, and leaves the rest of the table as it was.  And two maps are equal just when their
bytes and their marks of truncation are. -/
theorem views_of_reachable (h : map.Reachable) :
    let walked := (Walk.ofMap map).records
    (map.bytes.length = 20 * map.entries.length ∧
        ∀ count entries, decodeTable count map.bytes = some entries ↔
          count = map.entries.length ∧ entries = map.entries) ∧
      (walked.1 = map.entries.map Record.ofEntry ∧ walked.2.next.1 = none) ∧
      (∀ table : List Entry,
        let count := map.exportCount table.length
        let exported := map.exportTo table
        count = min map.entries.length table.length ∧ exported.length = table.length ∧
          exported.take count = map.entries.take count ∧
          (exported.take count).map Record.ofEntry = walked.1.take count ∧
          exported.drop count = table.drop count) ∧
      ∀ other : LegacyMap,
        map = other ↔ map.bytes = other.bytes ∧ map.truncated = other.truncated := by
  intro walked
  have hwalked : walked.1 = map.entries.map Record.ofEntry ∧ walked.2.next.1 = none :=
    Walk.records_ofMap h.isCanonical
  refine ⟨⟨map.length_bytes, map.decodeTable_bytes_eq_some_iff⟩, hwalked, ?_,
    map.eq_iff_bytes_eq⟩
  intro table count exported
  have hfront : exported.take count = map.entries.take count := map.take_exportTo table
  refine ⟨rfl, map.length_exportTo table, hfront, ?_, map.drop_exportTo table⟩
  rw [hfront, hwalked.1, List.map_take]

/-- Two entries in a table for three: the last line stays, and the same entries marked as cut
short make another map of the same bytes. -/
theorem views_of_reachable_longer_table :
    let map : LegacyMap := { entries := [{ address := 0, size := 0x9f000, code := 1 },
      { address := 0xfffffffffffff000, size := 0x1000, code := 2 }] }
    let line : Entry := { address := 7, size := 7, code := 7 }
    map.Reachable ∧
      decodeTable 2 map.bytes = some map.entries ∧ decodeTable 1 map.bytes = none ∧
      (map.exportTo [line, line, line]).take 2 = map.entries ∧
      (map.exportTo [line, line, line]).drop 2 = [line] ∧
      map ≠ { map with truncated := true } := by
  intro map line
  have hreachable : map.Reachable :=
    ⟨[.addRegion 0 { start := 0, size := 0x9f000, kind := .ram },
      .addRegion 0 { start := 0xfffffffffffff000, size := 0x1000, kind := .reserved }], 0,
      by decide +kernel⟩
  obtain ⟨⟨-, hread⟩, -, hexport, hequal⟩ := views_of_reachable hreachable
  obtain ⟨-, -, hfront, -, hrest⟩ := hexport [line, line, line]
  refine ⟨hreachable, (hread 2 _).2 ⟨rfl, rfl⟩, ?_, hfront, hrest, ?_⟩
  · rw [Option.eq_none_iff_forall_ne_some]
    intro entries hsome
    exact absurd ((hread 1 entries).1 hsome).1 (by decide)
  · intro hsame
    exact absurd ((hequal _).1 hsame).2 (by decide)

end LegacyMap

end BootMemory.E820
