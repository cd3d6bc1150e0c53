import BootMemory.Proofs.E820.Truncation

/-!
# What a converted map covers

Address by address, a converted map says what the descriptors say.  An address that
an entry covers is offered by some descriptor under the same kind, and when the map
is not cut short every offered address is covered.  Cutting out the legacy hole,
merging and ends beyond the address space neither lose nor invent memory.

Main results:

- Theorem {lit}`exists_mem_map_ofRun_iff`: entries of runs cover what the regions of
  the runs hold.
- Theorem {lit}`LegacyMap.exists_runs`: the runs behind the entries of a converted map.
- Theorem {lit}`LegacyMap.covers_ofMemoryMap`: coverage and offers agree.
-/

namespace BootMemory.E820

/-- Whether an address lies in an entry, whose end is taken exactly. -/
def Entry.Holds (entry : Entry) (address : Nat) : Prop :=
  entry.address.toNat ≤ address ∧ address < entry.address.toNat + entry.size.toNat

/-- Whether a map reports an address under some kind. -/
def LegacyMap.Covers (map : LegacyMap) (kind : Kind) (address : Nat) : Prop :=
  ∃ entry ∈ map.entries, entry.kind? = some kind ∧ entry.Holds address

/-- A run that has regions, each with bytes and an end within the address space. -/
structure SolidRun (run : List Region) : Prop where
  ne_nil : run ≠ []
  isRun : IsRun run
  solid : ∀ region ∈ run, region.Solid

namespace SolidRun

theorem totalSize_lt {run : List Region} (hrun : SolidRun run) : totalSize run < 2 ^ 64 :=
  totalSize_lt_of_isRun hrun.isRun hrun.ne_nil (hrun.solid _ (List.getLast_mem hrun.ne_nil))

/-- The entry of a run ends where the last region of the run ends. -/
theorem address_add_size_eq {run : List Region} (hrun : SolidRun run) :
    (Entry.ofRun run).address.toNat + (Entry.ofRun run).size.toNat =
      (run.getLast hrun.ne_nil).stop := by
  rw [Entry.toNat_size_ofRun hrun.ne_nil hrun.totalSize_lt]
  cases run with
  | nil => exact (hrun.ne_nil rfl).elim
  | cons first rest => exact stop_of_run hrun.isRun

/-- The entry of a run ends within the address space. -/
theorem address_add_size_lt {run : List Region} (hrun : SolidRun run) :
    (Entry.ofRun run).address.toNat + (Entry.ofRun run).size.toNat < 2 ^ 64 := by
  rw [hrun.address_add_size_eq]
  exact (hrun.solid _ (List.getLast_mem hrun.ne_nil)).stop_lt

/-- The entry of a run holds what the regions of the run hold, under their kind. -/
theorem holds_ofRun_iff {run : List Region} (hrun : SolidRun run) (kind : Kind) (address : Nat) :
    (Entry.ofRun run).kind? = some kind ∧ (Entry.ofRun run).Holds address ↔
      ∃ region ∈ run, region.kind = kind ∧ region.Holds address := by
  rw [Entry.Holds, Entry.toNat_size_ofRun hrun.ne_nil hrun.totalSize_lt]
  cases run with
  | nil => exact (hrun.ne_nil rfl).elim
  | cons first rest =>
      have hkind : (Entry.ofRun (first :: rest)).kind? = some first.kind :=
        Kind.ofCode?_code first.kind
      rw [hkind, Option.some.injEq]
      simp only [Entry.ofRun]
      rw [← holds_run_iff hrun.isRun address]
      constructor
      · rintro ⟨rfl, region, hmem, hholds⟩
        exact ⟨region, hmem, kind_of_mem_run hrun.isRun hmem, hholds⟩
      · rintro ⟨region, hmem, rfl, hholds⟩
        exact ⟨(kind_of_mem_run hrun.isRun hmem).symm, region, hmem, hholds⟩

end SolidRun

/-- Entries of runs cover what the regions of the runs hold. -/
theorem exists_mem_map_ofRun_iff {all : List (List Region)} (hall : ∀ run ∈ all, SolidRun run)
    (kind : Kind) (address : Nat) :
    (∃ entry ∈ all.map Entry.ofRun, entry.kind? = some kind ∧ entry.Holds address) ↔
      ∃ region ∈ all.flatten, region.kind = kind ∧ region.Holds address := by
  simp only [List.mem_map, List.mem_flatten]
  constructor
  · rintro ⟨entry, ⟨run, hrun, rfl⟩, hentry⟩
    obtain ⟨region, hmem, hregion⟩ := ((hall run hrun).holds_ofRun_iff kind address).1 hentry
    exact ⟨region, ⟨run, hrun, hmem⟩, hregion⟩
  · rintro ⟨region, ⟨run, hrun, hmem⟩, hregion⟩
    have hentry := ((hall run hrun).holds_ofRun_iff kind address).2 ⟨region, hmem, hregion⟩
    exact ⟨Entry.ofRun run, ⟨run, hrun, rfl⟩, hentry⟩

/-- Every shown run of solid regions is a run of solid regions. -/
theorem solidRun_of_mem_shownRuns {regions run : List Region}
    (hsolid : ∀ region ∈ regions, region.Solid) (h : run ∈ shownRuns (runs regions)) :
    SolidRun run := by
  have hmem : ∀ whole ∈ runs regions, SolidRun whole := by
    intro whole hwhole
    refine ⟨ne_nil_of_mem_runs hwhole, isRun_of_mem_runs hwhole, fun region hregion => ?_⟩
    apply hsolid
    rw [← flatten_runs regions]
    exact List.mem_flatten.2 ⟨whole, hwhole, hregion⟩
  rcases List.mem_append.1 h with hwhole | hcut
  · exact hmem run (List.mem_of_mem_take hwhole)
  · obtain ⟨whole, hwhole, rfl⟩ := List.mem_map.1 hcut
    obtain ⟨hne, hrun, hall⟩ := hmem whole (List.mem_of_mem_drop (List.mem_of_mem_take hwhole))
    refine ⟨?_, hrun.take 1, fun region hregion => hall region (List.mem_of_mem_take hregion)⟩
    simpa using hne

/-- The parts of some descriptors hold what the descriptors offer. -/
theorem exists_mem_flatMap_parts_iff (descriptors : List Descriptor) (kind : Kind)
    (address : Nat) :
    (∃ region ∈ descriptors.flatMap parts, region.kind = kind ∧ region.Holds address) ↔
      ∃ descriptor ∈ descriptors, Offers descriptor kind address := by
  simp only [List.mem_flatMap, ← exists_mem_parts_iff]
  constructor
  · rintro ⟨region, ⟨descriptor, hmem, hpart⟩, hregion⟩
    exact ⟨descriptor, hmem, region, hpart, hregion⟩
  · rintro ⟨descriptor, hmem, region, hpart, hregion⟩
    exact ⟨region, ⟨descriptor, hmem, hpart⟩, hregion⟩

/-- A block of forty bytes that describes free memory. -/
def ramBlock (start pages : UInt64) : List UInt8 :=
  Descriptor.encode [0, 0, 0, 0] []
    { typeCode := MemoryType.conventional.code, physicalStart := start, virtualStart := 0, pages
      attributes := 0 }

namespace LegacyMap

/-- Behind the entries of a converted map stand runs of the first parts, and of all parts if the
map is not cut short. -/
theorem exists_runs (descriptors : List Descriptor) :
    ∃ all : List (List Region), (∀ run ∈ all, SolidRun run) ∧
      (ofDescriptors descriptors).entries = all.map Entry.ofRun ∧
      all.flatten <+: descriptors.flatMap parts ∧
      ((ofDescriptors descriptors).truncated = false →
        all.flatten = descriptors.flatMap parts) := by
  have hprefix := flatten_shownRuns_runs_isPrefix (descriptors.flatMap parts)
  rw [ofDescriptors_eq]
  refine ⟨shownRuns (runs (descriptors.flatMap parts)), ?_, rfl, hprefix, ?_⟩
  · intro run
    exact solidRun_of_mem_shownRuns fun _ => solid_of_mem_flatMap_parts
  · intro hwhole
    exact hprefix.eq_of_length (Nat.le_antisymm hprefix.length_le (by simpa using hwhole))

/-- A converted map covers an address under a kind only if some whole descriptor offers
it, and when the map is not cut short it covers all that they offer. -/
theorem covers_ofMemoryMap (bytes : List UInt8) {stride : UInt64}
    (hstride : 40 ≤ stride.toNat) :
    ∃ map, ofMemoryMap bytes stride = .ok map ∧
      (∀ entry ∈ map.entries, entry.address.toNat + entry.size.toNat < 2 ^ 64) ∧
      ∀ (kind : Kind) (address : Nat),
        (map.Covers kind address →
          ∃ descriptor ∈ wholeDescriptors bytes stride.toNat, Offers descriptor kind address) ∧
        (map.truncated = false →
          (∃ descriptor ∈ wholeDescriptors bytes stride.toNat, Offers descriptor kind address) →
            map.Covers kind address) := by
  refine ⟨_, ofMemoryMap_of_width_le bytes hstride, ?_⟩
  generalize wholeDescriptors bytes stride.toNat = descriptors
  rw [ofDescriptors_eq]
  simp only [← exists_mem_flatMap_parts_iff, Covers]
  have hsolid : ∀ region ∈ descriptors.flatMap parts, region.Solid :=
    fun _ => solid_of_mem_flatMap_parts
  generalize descriptors.flatMap parts = regions at hsolid
  have hruns : ∀ run ∈ shownRuns (runs regions), SolidRun run :=
    fun run => solidRun_of_mem_shownRuns hsolid
  have hshown : (shownRuns (runs regions)).flatten <+: regions := by
    have hprefix := flatten_shownRuns_isPrefix (runs regions)
    rwa [flatten_runs] at hprefix
  refine ⟨?_, fun kind address => ⟨?_, ?_⟩⟩
  · intro entry hentry
    obtain ⟨run, hrun, rfl⟩ := List.mem_map.1 hentry
    exact (hruns run hrun).address_add_size_lt
  · intro hcovered
    obtain ⟨region, hmem, hregion⟩ := (exists_mem_map_ofRun_iff hruns kind address).1 hcovered
    exact ⟨region, hshown.subset hmem, hregion⟩
  · intro hwhole hoffered
    have hlength : ¬ (shownRuns (runs regions)).flatten.length < regions.length := by
      simpa using hwhole
    have hall : (shownRuns (runs regions)).flatten = regions :=
      hshown.eq_of_length (Nat.le_antisymm hshown.length_le (Nat.le_of_not_lt hlength))
    exact (exists_mem_map_ofRun_iff hruns kind address).2 (hall.symm ▸ hoffered)

/-- Free memory across the legacy hole is covered up to the hole and not in it. -/
theorem covers_ofMemoryMap_across_hole :
    ∃ map, ofMemoryMap (ramBlock 0x90000 0x100) 40 = .ok map ∧ map.Covers .ram 0x9ffff ∧
      ¬ map.Covers .ram 0xa0000 := by
  obtain ⟨map, hmap, _, hcovers⟩ := @covers_ofMemoryMap (ramBlock 0x90000 0x100) 40 (by decide)
  have hvalue : ofMemoryMap (ramBlock 0x90000 0x100) 40 =
      .ok { entries := [{ address := 0x90000, size := 0x10000, code := 1 },
        { address := 0x100000, size := 0x90000, code := 1 }] } := rfl
  have hwhole : map.truncated = false := by
    rw [← Except.ok.inj (hvalue.symm.trans hmap)]
  refine ⟨map, hmap, (hcovers .ram 0x9ffff).2 hwhole ?_, fun hcovered => ?_⟩
  · exact ⟨_, List.mem_singleton_self _, rfl, by decide, fun _ hhole => absurd hhole.1 (by decide)⟩
  · obtain ⟨_, _, _, _, houtside⟩ := (hcovers .ram 0xa0000).1 hcovered
    exact houtside rfl ⟨by decide, by decide⟩

end LegacyMap

end BootMemory.E820
