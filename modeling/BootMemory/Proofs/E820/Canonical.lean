import Mathlib.Data.Set.List
import BootMemory.E820.Operations
import BootMemory.Proofs.E820.Runs

/-!
# The canonical form of a map

A map never holds two entries in a row that could be one.  Entering a region keeps it that
way, since only the last entry can grow and its start stays where it is; so does every
operation, also one that is refused.  Nothing is lost in this form: entering the entries of
a map one by one into an empty map gives the same entries again.

Main results:

- Definition {lit}`Canonical`: entries that fit a table and of which no two neighbours could
  be one.
- Theorem {lit}`Canonical.place`: placing a region keeps the form.
- Theorem {lit}`Canonical.foldlM_addRegion`: entries in this form are their own canonical form.
- Theorem {lit}`LegacyMap.canonical_of_runAll`: all operations on maps keep the form.
-/

namespace BootMemory.E820

/-- Whether two entries could be one: the kinds agree and the second one starts where the
first one ends. -/
def Entry.Touches (first second : Entry) : Prop :=
  first.code = second.code ∧ first.limit = second.address

/-- Entries that fit a table, each with a size and a known kind, of which no two neighbours
could be one. -/
structure Canonical (entries : List Entry) : Prop where
  length_le : entries.length ≤ LegacyMap.capacity
  size_ne_zero : ∀ entry ∈ entries, entry.size ≠ 0
  known : ∀ entry ∈ entries, ∃ region, Entry.ofRegion region = entry
  separate : entries.IsChain fun first second => ¬ first.Touches second

/-! ## Entries that grow -/

namespace Entry

theorem continuedBy_iff (entry : Entry) (region : Region) :
    entry.continuedBy region = true ↔ entry.Touches (ofRegion region) := by
  simp [continuedBy, Touches, ofRegion]

/-- A region that the last entry does not touch gets an entry of its own. -/
theorem place_of_not_touches {entries : List Entry} {region : Region}
    (h : ∀ last ∈ entries.getLast?, ¬ last.Touches (ofRegion region)) :
    place entries region = entries ++ [ofRegion region] := by
  rcases List.eq_nil_or_concat entries with rfl | ⟨front, last, rfl⟩
  · rfl
  · rw [List.concat_eq_append] at h ⊢
    have hapart := h last (by simp)
    rw [← continuedBy_iff] at hapart
    rw [place_concat, if_neg hapart]

theorem size_grow_ne_zero {entry : Entry} (h : entry.size ≠ 0) (size : UInt64) :
    (entry.grow size).size ≠ 0 := by
  intro hzero
  have hgrown : saturatingAdd entry.size size = 0 := hzero
  have hle := le_saturatingAdd entry.size size
  rw [hgrown, UInt64.le_iff_toNat_le, UInt64.toNat_zero] at hle
  exact h (UInt64.toNat_inj.1 (Nat.le_zero.1 hle))

/-- Growing moves only the end of an entry. -/
theorem touches_grow_iff (first second : Entry) (size : UInt64) :
    first.Touches (second.grow size) ↔ first.Touches second := by
  rw [Touches, Touches, grow]

theorem grow_ofRegion (region : Region) (size : UInt64) :
    (ofRegion region).grow size =
      ofRegion { region with size := saturatingAdd region.size size } := by
  rw [ofRegion, ofRegion, grow]

/-- A kind that has a number has one of four. -/
theorem code_ofRegion (region : Region) :
    1 ≤ (ofRegion region).code ∧ (ofRegion region).code ≤ 4 := by
  cases hkind : region.kind <;> simp [ofRegion, hkind, Kind.code]

end Entry

namespace Canonical

variable {entries : List Entry} {region : Region}

theorem nil : Canonical [] where
  length_le := Nat.zero_le _
  size_ne_zero := nofun
  known := nofun
  separate := .nil

/-- A part at the front has the form of the whole. -/
theorem of_append {front back : List Entry} (h : Canonical (front ++ back)) : Canonical front where
  length_le := by
    have hlength := h.length_le
    rw [List.length_append] at hlength
    omega
  size_ne_zero entry hmem := h.size_ne_zero entry (List.mem_append_left back hmem)
  known entry hmem := h.known entry (List.mem_append_left back hmem)
  separate := h.separate.left_of_append

/-- An entry that the last one does not touch can follow. -/
theorem concat (h : Canonical entries) {entry : Entry}
    (hroom : entries.length < LegacyMap.capacity) (hsize : entry.size ≠ 0)
    (hknown : ∃ region, Entry.ofRegion region = entry)
    (happart : ∀ last ∈ entries.getLast?, ¬ last.Touches entry) :
    Canonical (entries ++ [entry]) where
  length_le := by
    rw [List.length_append, List.length_singleton]
    omega
  size_ne_zero := by
    rw [List.forall_mem_append, List.forall_mem_singleton]
    exact ⟨h.size_ne_zero, hsize⟩
  known := by
    rw [List.forall_mem_append, List.forall_mem_singleton]
    exact ⟨h.known, hknown⟩
  separate := by
    refine List.isChain_append.2 ⟨h.separate, .singleton _, ?_⟩
    intro last hlast second hsecond
    obtain rfl : entry = second := by simpa using hsecond
    exact happart last hlast

theorem getLast?_not_touches {front : List Entry} {last : Entry}
    (h : Canonical (front ++ [last])) : ∀ before ∈ front.getLast?, ¬ before.Touches last :=
  fun before hbefore => (List.isChain_append.1 h.separate).2.2 before hbefore last rfl

/-- The last entry may grow: its neighbour is told apart from it by its start, and that does
not move. -/
theorem grow_last {front : List Entry} {last : Entry} (h : Canonical (front ++ [last]))
    (size : UInt64) : Canonical (front ++ [last.grow size]) := by
  have hroom : front.length < LegacyMap.capacity := by
    have hlength := h.length_le
    rw [List.length_append, List.length_singleton] at hlength
    omega
  have hmem : last ∈ front ++ [last] := List.mem_append_right front (List.mem_singleton_self last)
  have hsize := Entry.size_grow_ne_zero (h.size_ne_zero last hmem) size
  obtain ⟨region, rfl⟩ := h.known last hmem
  refine h.of_append.concat hroom hsize ⟨_, (Entry.grow_ofRegion region size).symm⟩ ?_
  intro before hbefore
  rw [Entry.touches_grow_iff]
  exact h.getLast?_not_touches before hbefore

/-- Placing a region keeps the form, if the table has room. -/
theorem place (h : Canonical entries) (hroom : entries.length < LegacyMap.capacity)
    (hsize : region.size ≠ 0) : Canonical (Entry.place entries region) := by
  rcases List.eq_nil_or_concat entries with rfl | ⟨front, last, rfl⟩
  · exact nil.concat hroom hsize ⟨region, rfl⟩ nofun
  · rw [List.concat_eq_append] at h hroom ⊢
    rw [Entry.place_concat]
    by_cases hcontinued : last.continuedBy region = true
    · rw [if_pos hcontinued]
      exact h.grow_last region.size
    · rw [if_neg hcontinued]
      refine h.concat hroom hsize ⟨region, rfl⟩ ?_
      intro other hother
      obtain rfl : last = other := by simpa using hother
      rwa [← Entry.continuedBy_iff]

/-! ## Entering the entries again -/

/-- Regions whose entries are in the form are entered without a refusal, and each gets an
entry of its own. -/
theorem foldlM_addRegion {regions : List Region} (h : Canonical (regions.map Entry.ofRegion)) :
    regions.foldlM LegacyMap.addRegion LegacyMap.empty =
      .ok { entries := regions.map Entry.ofRegion } := by
  induction regions using List.reverseRecOn with
  | nil => rfl
  | append_singleton regions region ih =>
      rw [List.map_append, List.map_singleton] at h ⊢
      have hroom : ({ entries := regions.map Entry.ofRegion } : LegacyMap).size <
          LegacyMap.capacity := by
        have hlength := h.length_le
        rw [List.length_append, List.length_singleton] at hlength
        exact hlength
      have hsize : region.size ≠ 0 := h.size_ne_zero (Entry.ofRegion region) (by simp)
      -- the last entry so far does not touch the new one, so the region is appended
      have happended : Entry.place (regions.map Entry.ofRegion) region =
          regions.map Entry.ofRegion ++ [Entry.ofRegion region] :=
        Entry.place_of_not_touches h.getLast?_not_touches
      rw [List.foldlM_append, ih h.of_append]
      have hentered := LegacyMap.addRegion_of_room hsize hroom
      rw [happended] at hentered
      simp only [List.foldlM_cons, List.foldlM_nil, bind_pure]
      exact hentered

/-- So the entries of every map in the form can be entered again. -/
theorem exists_foldlM_addRegion (h : Canonical entries) :
    ∃ regions : List Region, regions.map Entry.ofRegion = entries ∧
      regions.foldlM LegacyMap.addRegion LegacyMap.empty = .ok { entries } := by
  have hrange : entries ∈ Set.range (List.map Entry.ofRegion) := by
    rw [Set.range_list_map]
    exact h.known
  obtain ⟨regions, rfl⟩ := hrange
  exact ⟨regions, rfl, h.foldlM_addRegion⟩

end Canonical

/-! ## Operations keep the form -/

namespace LegacyMap

/-- Whether the entries of a map are in the canonical form. -/
def IsCanonical (map : LegacyMap) : Prop := Canonical map.entries

theorem isCanonical_empty : empty.IsCanonical := Canonical.nil

namespace IsCanonical

variable {map : LegacyMap}

theorem addRegion (h : map.IsCanonical) {region : Region} {grown : LegacyMap}
    (hgrown : map.addRegion region = .ok grown) : grown.IsCanonical := by
  rcases addRegion_eq_ok hgrown with ⟨-, rfl⟩ | ⟨hsize, hroom, rfl⟩
  · exact h
  · exact h.place hroom hsize

/-- Also when one of the regions is refused. -/
theorem addRegions (h : map.IsCanonical) (regions : List Region) :
    (map.addRegions regions).1.IsCanonical := by
  induction regions generalizing map with
  | nil => exact h
  | cons region rest ih =>
      rw [LegacyMap.addRegions]
      cases hgrown : map.addRegion region with
      | error cause => exact h
      | ok grown => exact ih (h.addRegion hgrown)

end IsCanonical

theorem isCanonical_ofDescriptors (descriptors : List Descriptor) :
    (ofDescriptors descriptors).IsCanonical := by
  have hfilled := isCanonical_empty.addRegions (descriptors.flatMap pieces)
  unfold ofDescriptors
  split
  next heq =>
    rw [heq] at hfilled
    exact hfilled
  next heq =>
    rw [heq] at hfilled
    exact hfilled

theorem isCanonical_ofMemoryMap {bytes : List UInt8} {stride : UInt64} {map : LegacyMap}
    (h : ofMemoryMap bytes stride = .ok map) : map.IsCanonical := by
  unfold ofMemoryMap at h
  split at h
  next => cases h
  next stream _ =>
    obtain rfl := Except.ok.inj h
    exact isCanonical_ofDescriptors stream.toList

/-- One operation keeps the form of all maps. -/
theorem isCanonical_step {maps : Nat → LegacyMap} (h : ∀ target, (maps target).IsCanonical)
    (operation : Operation) (target : Nat) : ((step maps operation).1 target).IsCanonical := by
  -- each operation puts one map in the place of another, and that one has the form
  have hupdate : ∀ place map, map.IsCanonical →
      (Function.update maps place map target).IsCanonical := by
    intro place map hmap
    by_cases hplace : target = place
    · rw [hplace, Function.update_self]
      exact hmap
    · rw [Function.update_of_ne hplace]
      exact h target
  cases operation with
  | addRegion place region =>
      rw [step]
      cases hgrown : (maps place).addRegion region with
      | error cause => exact h target
      | ok grown => exact hupdate place grown ((h place).addRegion hgrown)
  | addDescriptor place descriptor =>
      exact hupdate place _ ((h place).addRegions (pieces descriptor))
  | convert place bytes stride =>
      rw [step]
      cases hmap : ofMemoryMap bytes stride with
      | error cause => exact h target
      | ok map => exact hupdate place map (isCanonical_ofMemoryMap hmap)
  | clear place => exact hupdate place empty isCanonical_empty
  | copy source place => exact hupdate place (maps source) (h source)

theorem isCanonical_runAll {maps : Nat → LegacyMap} (h : ∀ target, (maps target).IsCanonical)
    (operations : List Operation) (target : Nat) :
    ((runAll maps operations).1 target).IsCanonical := by
  induction operations generalizing maps with
  | nil => exact h target
  | cons operation rest ih => exact ih (isCanonical_step h operation)

/-- The maps that operations lead to are in the canonical form. -/
theorem Reachable.isCanonical {map : LegacyMap} (h : map.Reachable) : map.IsCanonical := by
  obtain ⟨operations, target, rfl⟩ := h
  exact isCanonical_runAll (fun _ => isCanonical_empty) operations target

/-- Whatever is done with maps that start without entries, each of them has at most 128
entries, every entry has a size and one of the four kinds, and no entry has the kind of the
next one and ends where that one starts.  The entries are those of some regions, and entering
just these into an empty map is never refused and gives the same entries. -/
theorem canonical_of_runAll (operations : List Operation) (target : Nat) :
    let map := (runAll (fun _ => empty) operations).1 target
    map.entries.length ≤ 128 ∧
      (∀ entry ∈ map.entries, entry.size ≠ 0 ∧ 1 ≤ entry.code ∧ entry.code ≤ 4) ∧
      (∀ index (h : index + 1 < map.entries.length),
        ¬ (map.entries[index].code = map.entries[index + 1].code ∧
          map.entries[index].limit = map.entries[index + 1].address)) ∧
      ∃ regions : List Region, regions.map Entry.ofRegion = map.entries ∧
        regions.foldlM addRegion empty = .ok { entries := map.entries } := by
  intro map
  have hcanonical : map.IsCanonical :=
    isCanonical_runAll (fun _ => isCanonical_empty) operations target
  refine ⟨hcanonical.length_le, ?_, ?_, hcanonical.exists_foldlM_addRegion⟩
  · intro entry hmem
    obtain ⟨region, rfl⟩ := hcanonical.known entry hmem
    exact ⟨hcanonical.size_ne_zero _ hmem, Entry.code_ofRegion region⟩
  · intro index h
    exact List.isChain_iff_getElem.1 hcanonical.separate index h

end LegacyMap

end BootMemory.E820
