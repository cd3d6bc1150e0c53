import BootMemory.E820.Storage
import BootMemory.Proofs.E820.Traversal
import BootMemory.Proofs.E820.Truncation

/-!
# Maps without overflow

The conversion works with plain sums and differences, which wrap around, on maps that are
lists of entries.  The storage of a map works with exact arithmetic on an array of 128 slots
and stops where a number is no word or an index is not in the array.  It never stops: whatever
was done before, each operation on storage has a result, and that is the one on maps.

Main results:

- Definition {lit}`Storage.Stores`: storage whose bounds hold and in which a map lies.
- Theorem {lit}`Storage.Stores.exists_addRegion?`: entering a region has a result and keeps the
  bounds.
- Theorem {lit}`Storage.exists_runAll?`: so does a sequence of operations on several maps.
- Theorem {lit}`Storage.exact_runAll`: operations on storage, and all that can be done next, have
  the results that they have on maps.
-/

namespace BootMemory.E820

theorem front?_of_le {α : Type} {list : List α} {count : Nat} (h : count ≤ list.length) :
    front? list count = some (list.take count) := if_pos h

/-- The element behind the first ones becomes one of them when it is written. -/
theorem take_set_self {α : Type} {list : List α} {count : Nat} (h : count < list.length) (a : α) :
    (list.set count a).take (count + 1) = list.take count ++ [a] := by
  rw [List.take_add_one, List.take_set_of_le (Nat.le_refl count), List.getElem?_set_self h]
  rfl

namespace Entry

variable {entry : Entry}

/-- An entry that starts below the legacy hole does not end below its start. -/
theorem address_le_min_limit (h : entry.address < holeStart) :
    entry.address ≤ min entry.limit holeStart := by
  have hlimit := UInt64.le_iff_toNat_le.1 (le_saturatingAdd entry.address entry.size)
  rw [UInt64.lt_iff_toNat_lt] at h
  rw [UInt64.le_iff_toNat_le, toNat_min, limit]
  omega

theorem lowBytes?_of_lt (h : entry.address < holeStart) :
    entry.lowBytes? = some entry.lowBytes :=
  exactSub?_of_le (address_le_min_limit h)

theorem toNat_lowBytes_le (h : entry.address < holeStart) :
    entry.lowBytes.toNat ≤ 0xa0000 := by
  have hmin := toNat_min entry.limit holeStart
  have hhole : holeStart.toNat = 0xa0000 := rfl
  rw [lowBytes, UInt64.toNat_sub_of_le _ _ (address_le_min_limit h)]
  omega

/-- The low bytes of entries add up without wrapping, if there are not too many entries. -/
theorem foldlM_addLowBytes? {entries : List Entry} {total : UInt64}
    (hlow : ∀ entry ∈ entries, entry.address < holeStart)
    (hroom : total.toNat + 0xa0000 * entries.length < UInt64.size) :
    entries.foldlM addLowBytes? total =
      some (entries.foldl (fun total entry => total + entry.lowBytes) total) := by
  induction entries generalizing total with
  | nil => rfl
  | cons entry rest ih =>
      rw [List.forall_mem_cons] at hlow
      rw [List.length_cons] at hroom
      have hle := toNat_lowBytes_le hlow.1
      have hsum : exactAdd? total entry.lowBytes = some (total + entry.lowBytes) :=
        exactAdd?_of_lt (by omega)
      have hadd : addLowBytes? total entry = some (total + entry.lowBytes) := by
        rw [addLowBytes?, lowBytes?_of_lt hlow.1, Option.bind_eq_bind, Option.bind_some, hsum]
      have hnext := exactAdd?_eq_some_iff.1 hsum
      rw [List.foldlM_cons, hadd, List.foldl_cons]
      exact ih hlow.2 (by omega)

end Entry

namespace Storage

/-- Storage whose bounds hold and in which a map lies. -/
structure Stores (storage : Storage) (map : LegacyMap) : Prop where
  count_le : storage.count.toNat ≤ LegacyMap.capacity
  toMap_eq : storage.toMap = map

/-- What becomes of storage when something is entered is what becomes of the map. -/
inductive Enters : Except MemoryError Storage → Except MemoryError LegacyMap → Prop
  | refused (cause : MemoryError) : Enters (.error cause) (.error cause)
  | entered {storage : Storage} {map : LegacyMap} (h : storage.Stores map) :
      Enters (.ok storage) (.ok map)

/-- The same for what may be entered in part. -/
def Settles (stored : Storage × Except MemoryError Unit)
    (entered : LegacyMap × Except MemoryError Unit) : Prop :=
  stored.1.Stores entered.1 ∧ stored.2 = entered.2

theorem stores_empty : empty.Stores .empty where
  count_le := Nat.zero_le _
  toMap_eq := rfl

namespace Stores

variable {storage : Storage} {map : LegacyMap}

/-! ## Slots -/

theorem entries_eq (h : storage.Stores map) :
    storage.slots.toList.take storage.count.toNat = map.entries :=
  congrArg LegacyMap.entries h.toMap_eq

theorem count_le_length (h : storage.Stores map) :
    storage.count.toNat ≤ storage.slots.toList.length := by
  rw [Vector.length_toList]
  exact h.count_le

theorem size_eq (h : storage.Stores map) : map.size = storage.count.toNat := by
  rw [LegacyMap.size, ← h.entries_eq, List.length_take, Nat.min_eq_left h.count_le_length]

theorem entries?_eq (h : storage.Stores map) : storage.entries? = some map.entries := by
  rw [Storage.entries?, front?_of_le h.count_le_length, h.entries_eq]

/-- An entry can be appended while a slot is left. -/
theorem exists_append? (h : storage.Stores map) (hroom : map.size < LegacyMap.capacity)
    (entry : Entry) :
    ∃ grown, storage.append? entry = some grown ∧
      grown.Stores { map with entries := map.entries ++ [entry] } := by
  rw [h.size_eq] at hroom
  have hcapacity : LegacyMap.capacity = 128 := rfl
  have hone : (1 : UInt64).toNat = 1 := rfl
  have hsum : storage.count.toNat + (1 : UInt64).toNat < UInt64.size := by
    rw [hone, UInt64.size]
    omega
  have hcount : (storage.count + 1).toNat = storage.count.toNat + 1 :=
    exactAdd?_eq_some_iff.1 (exactAdd?_of_lt hsum)
  refine ⟨{ storage with slots := storage.slots.set storage.count.toNat entry hroom,
                         count := storage.count + 1 }, ?_, ?_, ?_⟩
  · rw [Storage.append?, put?, dif_pos hroom, exactAdd?_of_lt hsum]
    rfl
  · rw [hcount]
    exact hroom
  · have hlength : storage.count.toNat < storage.slots.toList.length := by
      rw [Vector.length_toList]
      exact hroom
    rw [toMap, hcount, Vector.toList_set, take_set_self hlength, h.entries_eq, ← h.toMap_eq]
    rfl

/-- The last entry can be written again. -/
theorem exists_put?_last (h : storage.Stores map) {front : List Entry} {last : Entry}
    (hlast : map.entries = front ++ [last]) (entry : Entry) :
    ∃ grown, storage.put? front.length entry = some grown ∧
      grown.Stores { map with entries := front ++ [entry] } := by
  have hsize : front.length + 1 = storage.count.toNat := by
    rw [← h.size_eq, LegacyMap.size, hlast, List.length_append, List.length_singleton]
  have hindex : front.length < LegacyMap.capacity := by
    have hle := h.count_le
    omega
  refine ⟨{ storage with slots := storage.slots.set front.length entry hindex }, ?_,
    h.count_le, ?_⟩
  · rw [put?, dif_pos hindex]
  · rw [toMap, Vector.toList_set, List.take_set, h.entries_eq, hlast,
      List.set_append_right _ _ (Nat.le_refl _), Nat.sub_self, ← h.toMap_eq]
    rfl

/-! ## Entering -/

/-- With a slot left a region is placed behind the entries or into the last one. -/
theorem exists_addRegion?_of_room (h : storage.Stores map) (hroom : map.size < LegacyMap.capacity)
    {region : Region} (hsize : region.size ≠ 0) :
    ∃ grown, storage.addRegion? region = some (.ok grown) ∧
      grown.Stores { map with entries := Entry.place map.entries region } := by
  have hnotFull : storage.count.toNat ≠ LegacyMap.capacity := by
    rw [← h.size_eq]
    exact Nat.ne_of_lt hroom
  obtain ⟨grown, happended, happendedStores⟩ := h.exists_append? hroom (Entry.ofRegion region)
  rw [Storage.addRegion?, if_neg hsize, if_neg hnotFull, h.entries?_eq]
  rcases List.eq_nil_or_concat map.entries with hnil | ⟨front, last, hlast⟩
  · rw [hnil] at happendedStores ⊢
    exact ⟨grown, by simp [happended], happendedStores⟩
  · rw [List.concat_eq_append] at hlast
    obtain ⟨written, hwritten, hwrittenStores⟩ := h.exists_put?_last hlast (last.grow region.size)
    rw [hlast] at happendedStores ⊢
    rw [Entry.place_concat]
    by_cases hcontinued : last.continuedBy region = true
    · rw [if_pos hcontinued]
      exact ⟨written, by simp [hcontinued, hwritten], hwrittenStores⟩
    · rw [if_neg hcontinued]
      exact ⟨grown, by simp [hcontinued, happended], happendedStores⟩

/-- Entering a region has a result. -/
theorem exists_addRegion? (h : storage.Stores map) (region : Region) :
    ∃ result, storage.addRegion? region = some result ∧ Enters result (map.addRegion region) := by
  by_cases hsize : region.size = 0
  · rw [Storage.addRegion?, if_pos hsize, LegacyMap.addRegion_of_size_eq_zero map hsize]
    exact ⟨_, rfl, .entered h⟩
  · by_cases hfull : storage.count.toNat = LegacyMap.capacity
    · rw [Storage.addRegion?, if_neg hsize, if_pos hfull,
        LegacyMap.addRegion_of_full hsize (h.size_eq.trans hfull).ge]
      exact ⟨_, rfl, .refused .mapFull⟩
    · have hroom : map.size < LegacyMap.capacity := by
        rw [h.size_eq]
        exact Nat.lt_of_le_of_ne h.count_le hfull
      obtain ⟨grown, hgrown, hstores⟩ := h.exists_addRegion?_of_room hroom hsize
      rw [LegacyMap.addRegion_of_room hsize hroom]
      exact ⟨.ok grown, hgrown, .entered hstores⟩

theorem settle (h : storage.Stores map) {result : Except MemoryError Storage} {region : Region}
    (henters : Enters result (map.addRegion region)) :
    Settles (storage.settle result) (map.addRegions [region]) := by
  rw [LegacyMap.addRegions]
  generalize map.addRegion region = entered at henters ⊢
  cases henters with
  | refused cause => exact ⟨h, rfl⟩
  | entered hgrown => exact ⟨hgrown, rfl⟩

/-- What lies between two addresses has a size if they are in order. -/
theorem exists_addSpan? (h : storage.Stores map) {start limit : UInt64} (hle : start ≤ limit)
    (kind : Kind) :
    ∃ result, storage.addSpan? start limit kind = some result ∧
      Settles (storage.settle result)
        (map.addRegions [{ start, size := limit - start, kind }]) := by
  obtain ⟨result, hresult, henters⟩ := h.exists_addRegion? { start, size := limit - start, kind }
  rw [Storage.addSpan?, exactSub?_of_le hle]
  exact ⟨result, hresult, h.settle henters⟩

theorem exists_addPart? (h : storage.Stores map) (start limit : UInt64) (kind : Kind) :
    ∃ result, storage.addPart? start limit kind = some result ∧
      Settles (storage.settle result) (map.addRegions (span start limit kind)) := by
  by_cases hlt : start < limit
  · rw [Storage.addPart?, if_pos hlt, span, if_pos hlt]
    exact h.exists_addSpan? (UInt64.le_of_lt hlt) kind
  · rw [Storage.addPart?, if_neg hlt, span, if_neg hlt]
    exact ⟨_, rfl, h, rfl⟩

theorem exists_addAroundHole? (h : storage.Stores map) (start limit : UInt64) :
    ∃ stored, storage.addAroundHole? start limit = some stored ∧
      Settles stored (map.addRegions (lowPiece start ++ highPiece limit)) := by
  obtain ⟨result, hresult, hsettles⟩ := h.exists_addPart? start holeStart .ram
  rw [Storage.addAroundHole?, hresult, lowPiece_eq_span, highPiece_eq_span,
    LegacyMap.addRegions_append]
  rcases hlow : map.addRegions (span start holeStart .ram) with ⟨filled, answer⟩
  rw [hlow] at hsettles
  cases result with
  | error cause =>
      obtain rfl : Except.error cause = answer := hsettles.2
      exact ⟨_, rfl, hsettles.1, rfl⟩
  | ok grown =>
      have hfilled : grown.Stores filled := hsettles.1
      obtain rfl : Except.ok () = answer := hsettles.2
      obtain ⟨second, hsecond, hsettled⟩ := hfilled.exists_addPart? holeLimit limit .ram
      exact ⟨grown.settle second, by simp [hsecond], hsettled⟩

/-- Entering a descriptor has a result: no descriptor ends before it starts. -/
theorem exists_addDescriptor? (h : storage.Stores map) (descriptor : Descriptor) :
    ∃ stored, storage.addDescriptor? descriptor = some stored ∧
      Settles stored (map.addDescriptor descriptor) := by
  have hle : descriptor.physicalStart ≤ descriptor.limit :=
    UInt64.le_iff_toNat_le.2 descriptor.physicalStart_le_limit
  rw [Storage.addDescriptor?, LegacyMap.addDescriptor, pieces]
  cases kindOf? descriptor with
  | none => exact ⟨_, rfl, h, rfl⟩
  | some kind =>
      dsimp only
      split
      next =>
        obtain ⟨result, hresult, hsettles⟩ := h.exists_addSpan? hle kind
        exact ⟨storage.settle result, by simp [hresult], hsettles⟩
      next => exact h.exists_addAroundHole? descriptor.physicalStart descriptor.limit

/-- Entering descriptors has a result, also when one of them is refused. -/
theorem exists_addDescriptors? (h : storage.Stores map) (descriptors : List Descriptor) :
    ∃ filled, storage.addDescriptors? descriptors = some filled ∧
      filled.Stores
        (match map.addRegions (descriptors.flatMap pieces) with
        | (map, .ok _) => map
        | (map, .error _) => { map with truncated := true }) := by
  induction descriptors generalizing storage map with
  | nil => exact ⟨storage, rfl, h⟩
  | cons descriptor rest ih =>
      obtain ⟨⟨grown, answer⟩, hgrown, hstores, hanswer⟩ := h.exists_addDescriptor? descriptor
      rw [Storage.addDescriptors?, hgrown, List.flatMap_cons, LegacyMap.addRegions_append]
      rw [LegacyMap.addDescriptor] at hstores hanswer
      rcases hpieces : map.addRegions (pieces descriptor) with ⟨filled, result⟩
      rw [hpieces] at hstores hanswer
      obtain rfl : answer = result := hanswer
      cases answer with
      | ok => exact ih hstores
      | error cause =>
          exact ⟨{ grown with truncated := true }, rfl, hstores.count_le,
            congrArg (fun map : LegacyMap => { map with truncated := true }) hstores.toMap_eq⟩

end Stores

/-- Converting the firmware's map has a result. -/
theorem exists_ofMemoryMap? (bytes : List UInt8) (stride : UInt64) :
    ∃ result, ofMemoryMap? bytes stride = some result ∧
      Enters result (LegacyMap.ofMemoryMap bytes stride) := by
  unfold ofMemoryMap? LegacyMap.ofMemoryMap
  cases DescriptorStream.ofBytes? bytes stride with
  | none => exact ⟨_, rfl, .refused _⟩
  | some stream =>
      obtain ⟨filled, hfilled, hstores⟩ := stores_empty.exists_addDescriptors? stream.toList
      exact ⟨.ok filled, by simp [hfilled], .entered hstores⟩

/-! ## Operations on several maps -/

variable {storages : Nat → Storage} {maps : Nat → LegacyMap}

/-- Storage and a map can be put in the place of others. -/
theorem stores_update (h : ∀ target, (storages target).Stores (maps target)) {storage : Storage}
    {map : LegacyMap} (hstores : storage.Stores map) (place target : Nat) :
    (Function.update storages place storage target).Stores
      (Function.update maps place map target) := by
  by_cases hplace : target = place
  · subst hplace
    rw [Function.update_self, Function.update_self]
    exact hstores
  · rw [Function.update_of_ne hplace, Function.update_of_ne hplace]
    exact h target

/-- One operation has a result and keeps the bounds of all storage. -/
theorem exists_step? (h : ∀ target, (storages target).Stores (maps target))
    (operation : LegacyMap.Operation) :
    ∃ after, step? storages operation = some (after, (LegacyMap.step maps operation).2) ∧
      ∀ target, (after target).Stores ((LegacyMap.step maps operation).1 target) := by
  cases operation with
  | addRegion place region =>
      obtain ⟨result, hresult, henters⟩ := (h place).exists_addRegion? region
      rw [step?, hresult, LegacyMap.step]
      generalize (maps place).addRegion region = entered at henters ⊢
      cases henters with
      | refused cause => exact ⟨storages, rfl, h⟩
      | entered hstores => exact ⟨_, rfl, stores_update h hstores place⟩
  | addDescriptor place descriptor =>
      obtain ⟨⟨grown, answer⟩, hgrown, hstores, hanswer⟩ :=
        (h place).exists_addDescriptor? descriptor
      refine ⟨Function.update storages place grown, ?_, stores_update h hstores place⟩
      rw [step?, hgrown, LegacyMap.step, ← hanswer]
      rfl
  | convert place bytes stride =>
      obtain ⟨result, hresult, henters⟩ := exists_ofMemoryMap? bytes stride
      rw [step?, hresult, LegacyMap.step]
      generalize LegacyMap.ofMemoryMap bytes stride = converted at henters ⊢
      cases henters with
      | refused cause => exact ⟨storages, rfl, h⟩
      | entered hstores => exact ⟨_, rfl, stores_update h hstores place⟩
  | clear place => exact ⟨_, rfl, stores_update h stores_empty place⟩
  | copy source place => exact ⟨_, rfl, stores_update h (h source) place⟩

/-- So does a sequence of operations. -/
theorem exists_runAll? (h : ∀ target, (storages target).Stores (maps target))
    (operations : List LegacyMap.Operation) :
    ∃ after, runAll? storages operations = some (after, (LegacyMap.runAll maps operations).2) ∧
      ∀ target, (after target).Stores ((LegacyMap.runAll maps operations).1 target) := by
  induction operations generalizing storages maps with
  | nil => exact ⟨storages, rfl, h⟩
  | cons operation rest ih =>
      obtain ⟨middle, hstep, hmiddle⟩ := exists_step? h operation
      obtain ⟨after, hrest, hafter⟩ := ih hmiddle
      refine ⟨after, ?_, hafter⟩
      rw [runAll?, hstep, LegacyMap.runAll]
      simp [hrest]

/-! ## Reading -/

namespace Stores

variable {storage : Storage} {map : LegacyMap}

/-- The low bytes of all entries are a word: there are at most 128 entries, each with less than
a mebibyte of them. -/
theorem conventionalKib?_eq (h : storage.Stores map) :
    storage.conventionalKib? = some map.conventionalKib := by
  have hcapacity : LegacyMap.capacity = 128 := rfl
  have hlow : ∀ entry ∈ map.lowEntries, entry.address < holeStart := by
    intro entry hmem
    have hkept := (List.mem_filter.1 hmem).2
    simp only [Bool.and_eq_true, decide_eq_true_eq] at hkept
    exact hkept.2
  have hlength : map.lowEntries.length ≤ map.size :=
    List.length_filter_le _ _
  have hroom : (0 : UInt64).toNat + 0xa0000 * map.lowEntries.length < UInt64.size := by
    have hcount := h.count_le
    rw [← h.size_eq] at hcount
    rw [UInt64.toNat_zero, UInt64.size]
    omega
  have hsum := Entry.foldlM_addLowBytes? hlow hroom
  rw [LegacyMap.lowEntries] at hsum
  rw [Storage.conventionalKib?, h.entries?_eq, LegacyMap.conventionalKib, LegacyMap.lowEntries]
  simp [hsum]

theorem extendedKib?_eq (h : storage.Stores map) :
    storage.extendedKib? = some map.extendedKib := by
  rw [Storage.extendedKib?, h.entries?_eq, LegacyMap.extendedKib]
  cases hfound : map.entries.find? Entry.coversHoleLimit with
  | none => simp [hfound]
  | some entry =>
      have hcovers := List.find?_some hfound
      simp only [Entry.coversHoleLimit, Bool.and_eq_true, decide_eq_true_eq] at hcovers
      simp [hfound, exactSub?_of_le (UInt64.le_of_lt hcovers.2)]

/-- A cursor that names an entry is far from the largest one. -/
theorem next?_eq (h : storage.Stores map) (cursor : Int32) :
    storage.next? cursor = some (map.next cursor) := by
  have hentry : cursor.toInt.toNat?.bind (map.entries[·]?) = map.entryAt? cursor := by
    rw [LegacyMap.entryAt?]
    cases cursor.toInt.toNat? <;> rfl
  rw [Storage.next?, h.entries?_eq, LegacyMap.next]
  simp only [Option.bind_eq_bind, Option.bind_some, hentry]
  cases hfound : map.entryAt? cursor with
  | none => rfl
  | some entry =>
      obtain ⟨index, hindex, hentries⟩ := Option.bind_eq_some_iff.1 (hentry.trans hfound)
      have hcursor : cursor.toInt = index := (Int.mem_toNat?.1 hindex).symm ▸ rfl
      have hlt : index < map.entries.length := (List.getElem?_eq_some_iff.1 hentries).1
      have hslot : index < LegacyMap.capacity := by
        have hcount := h.count_le
        rw [← h.size_eq] at hcount
        exact Nat.lt_of_lt_of_le hlt hcount
      have hnext : exactSucc? cursor = some (cursor + 1) := by
        rw [exactSucc?_eq_some_iff, toInt_add_one hcursor hslot, hcursor]
      simp only [hnext, Option.bind_some]
      rfl

theorem exportTo?_eq (h : storage.Stores map) (table : List Entry) :
    storage.exportTo? table =
      some (map.exportTo table, map.exportCount table.length) := by
  have hcount : min storage.count.toNat table.length = map.exportCount table.length := by
    rw [LegacyMap.exportCount, h.size_eq]
  have htable : map.exportCount table.length ≤ table.length := Nat.min_le_right _ _
  have hslots : map.exportCount table.length ≤ storage.slots.toList.length :=
    (Nat.min_le_left _ _).trans (h.size_eq.trans_le h.count_le_length)
  have hsource : storage.slots.toList.take (map.exportCount table.length) =
      map.entries.take (map.exportCount table.length) := by
    rw [← h.entries_eq, List.take_take, Nat.min_eq_left (hcount ▸ Nat.min_le_left _ _)]
  have hlengths : (table.take (map.exportCount table.length)).length =
      (map.entries.take (map.exportCount table.length)).length := by
    rw [← hsource, List.length_take, List.length_take]
    omega
  rw [Storage.exportTo?, hcount]
  simp only [front?_of_le htable, front?_of_le hslots, hsource, Option.bind_eq_bind,
    Option.bind_some, if_pos hlengths]
  rfl

end Stores

/-! ## Nothing leaves its type or its bounds -/

theorem Enters.eq_map {result : Except MemoryError Storage} {entered : Except MemoryError LegacyMap}
    (h : Enters result entered) : entered = result.map toMap := by
  cases h with
  | refused cause => rfl
  | entered hstores => exact congrArg Except.ok hstores.toMap_eq.symm

/-- Whatever is done with storage that starts without entries, every difference, sum and index
on the way is a word or in its bounds, and the answers and the maps are those of the operations
on maps, which work with plain arithmetic.  The same holds of everything that can be done next:
entering any region or descriptor, both sizes, the record at any cursor and an export into a
table of any length. -/
theorem exact_runAll (operations : List LegacyMap.Operation) :
    ∃ storages answers,
      runAll? (fun _ => empty) operations = some (storages, answers) ∧
      LegacyMap.runAll (fun _ => LegacyMap.empty) operations =
        (fun target => (storages target).toMap, answers) ∧
      ∀ target,
        let storage := storages target
        let map := storage.toMap
        (∀ region, ∃ result, storage.addRegion? region = some result ∧
          map.addRegion region = result.map toMap) ∧
        (∀ descriptor, ∃ grown answer,
          storage.addDescriptor? descriptor = some (grown, answer) ∧
            map.addDescriptor descriptor = (grown.toMap, answer)) ∧
        storage.conventionalKib? = some map.conventionalKib ∧
        storage.extendedKib? = some map.extendedKib ∧
        (∀ cursor, storage.next? cursor = some (map.next cursor)) ∧
        ∀ table, storage.exportTo? table =
          some (map.exportTo table, map.exportCount table.length) := by
  obtain ⟨storages, hrun, hstores⟩ :=
    @exists_runAll? (fun _ => empty) (fun _ => .empty) (fun _ => stores_empty) operations
  refine ⟨storages, _, hrun, Prod.ext ?_ rfl, ?_⟩
  · funext target
    exact (hstores target).toMap_eq.symm
  · intro target storage map
    have h : storage.Stores map := ⟨(hstores target).count_le, rfl⟩
    refine ⟨?_, ?_, h.conventionalKib?_eq, h.extendedKib?_eq, h.next?_eq, h.exportTo?_eq⟩
    · intro region
      obtain ⟨result, hresult, henters⟩ := h.exists_addRegion? region
      exact ⟨result, hresult, henters.eq_map⟩
    · intro descriptor
      obtain ⟨⟨grown, answer⟩, hgrown, hmap, hanswer⟩ := h.exists_addDescriptor? descriptor
      exact ⟨grown, answer, hgrown, Prod.ext hmap.toMap_eq.symm hanswer.symm⟩

/-- No operations lead to a count beyond the slots; from there even a reader has no result. -/
example : ({ empty with count := 129 } : Storage).next? 0 = none := by decide +kernel

end Storage

end BootMemory.E820
