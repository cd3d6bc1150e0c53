import BootMemory.Proofs.E820.Runs

/-!
# Merging at the end of the address space

A region may be said to go beyond the largest word, and then its entry ends there.  Merging
stays right all the same: the limit of an entry that grows is that of the region it takes in,
since sums that stop at the largest word can be grouped at will.  What starts at the largest word
has no address below it, so an entry that has come so far takes it in and reaches no further.

Main results:

- Definition {lit}`LegacyMap.Reaches`: what a map reports up to the limits of its entries.
- Theorem {lit}`Entry.reaches_grow`: a grown entry reaches what it reached and what it took in.
- Theorem {lit}`Entry.exists_mem_place_iff`: placing a region adds what the region reaches.
- Theorem {lit}`LegacyMap.reaches_addRegions`: so does entering regions one by one.
- Theorem {lit}`LegacyMap.reaches_of_addRegions`: a new map reaches what its regions reach.
-/

namespace BootMemory.E820

/-- Whether an address lies in an entry, up to the limit of the entry. -/
def Entry.Reaches (entry : Entry) (address : Nat) : Prop :=
  entry.address.toNat ≤ address ∧ address < entry.limit.toNat

/-- Whether an address lies in a region and below the largest word. -/
def Region.Reaches (region : Region) (address : Nat) : Prop :=
  region.start.toNat ≤ address ∧ address < min region.stop wordMax.toNat

/-- Whether a map reports an address under some kind, up to the limits of its entries. -/
def LegacyMap.Reaches (map : LegacyMap) (kind : Kind) (address : Nat) : Prop :=
  ∃ entry ∈ map.entries, entry.kind? = some kind ∧ entry.Reaches address

/-! ## One entry -/

namespace Entry

variable {entry : Entry} {region : Region}

/-- The entry of a region reaches what the region reaches. -/
theorem reaches_ofRegion (region : Region) (address : Nat) :
    (ofRegion region).Reaches address ↔ region.Reaches address := by
  rw [Reaches, limit, toNat_saturatingAdd, Region.Reaches, Region.stop, toNat_wordMax, ofRegion]

theorem kind?_of_continuedBy (h : entry.continuedBy region = true) :
    entry.kind? = some region.kind := by
  simp only [continuedBy, Bool.and_eq_true, beq_iff_eq] at h
  rw [kind?, h.1, Kind.ofCode?_code]

theorem kind?_grow (entry : Entry) (size : UInt64) : (entry.grow size).kind? = entry.kind? := by
  rw [kind?, kind?, grow]

/-- A grown entry reaches what it reached and what it took in. -/
theorem reaches_grow (h : entry.continuedBy region = true) (address : Nat) :
    (entry.grow region.size).Reaches address ↔
      entry.Reaches address ∨ region.Reaches address := by
  simp only [continuedBy, Bool.and_eq_true, beq_iff_eq] at h
  have hlimit : (entry.grow region.size).limit = (ofRegion region).limit := by
    rw [limit_grow, h.2, limit, ofRegion]
  have haddress : (entry.grow region.size).address = entry.address := by
    rw [grow]
  have hstart : (ofRegion region).address = entry.limit := h.2.symm
  -- from the start of the entry to its old limit, and from there to the new one
  have hold : entry.address.toNat ≤ entry.limit.toNat :=
    UInt64.le_iff_toNat_le.1 (le_saturatingAdd entry.address entry.size)
  have hnew : (ofRegion region).address.toNat ≤ (ofRegion region).limit.toNat :=
    UInt64.le_iff_toNat_le.1 (le_saturatingAdd (ofRegion region).address (ofRegion region).size)
  rw [hstart] at hnew
  rw [← reaches_ofRegion, Reaches, Reaches, Reaches, hlimit, haddress, hstart]
  omega

/-- Placing a region adds what the region reaches, under its kind. -/
theorem exists_mem_place_iff (entries : List Entry) (region : Region) (kind : Kind)
    (address : Nat) :
    (∃ entry ∈ place entries region, entry.kind? = some kind ∧ entry.Reaches address) ↔
      (∃ entry ∈ entries, entry.kind? = some kind ∧ entry.Reaches address) ∨
        region.kind = kind ∧ region.Reaches address := by
  rcases List.eq_nil_or_concat entries with rfl | ⟨front, last, rfl⟩
  · simp [place_nil, reaches_ofRegion]
  · rw [List.concat_eq_append, place_concat]
    by_cases hcontinued : last.continuedBy region = true
    · have hlast := kind?_of_continuedBy hcontinued
      rw [if_pos hcontinued]
      simp only [List.mem_append, List.mem_singleton, or_and_right, exists_or, exists_eq_left,
        kind?_grow, hlast, reaches_grow hcontinued, Option.some.injEq, and_or_left, or_assoc]
    · rw [if_neg hcontinued]
      simp only [List.mem_append, List.mem_singleton, or_and_right, exists_or, exists_eq_left,
        kind?_ofRegion, reaches_ofRegion, Option.some.injEq]

end Entry

/-! ## A sequence of regions -/

namespace LegacyMap

variable {map grown : LegacyMap}

/-- A region that is not refused adds what it reaches, which is nothing if it has no size. -/
theorem reaches_addRegion {region : Region} (h : map.addRegion region = .ok grown) (kind : Kind)
    (address : Nat) :
    grown.Reaches kind address ↔
      map.Reaches kind address ∨ region.kind = kind ∧ region.Reaches address := by
  rcases addRegion_eq_ok h with ⟨hsize, rfl⟩ | ⟨-, -, rfl⟩
  · have hnothing : ¬ region.Reaches address := by
      simp only [Region.Reaches, Region.stop, hsize, UInt64.toNat_zero]
      omega
    simp [hnothing]
  · exact Entry.exists_mem_place_iff map.entries region kind address

/-- Regions of which none is refused add what they reach. -/
theorem reaches_addRegions {regions : List Region} (h : map.addRegions regions = (grown, .ok ()))
    (kind : Kind) (address : Nat) :
    grown.Reaches kind address ↔
      map.Reaches kind address ∨
        ∃ region ∈ regions, region.kind = kind ∧ region.Reaches address := by
  induction regions generalizing map with
  | nil =>
      cases h
      simp
  | cons region rest ih =>
      rw [addRegions] at h
      cases hentered : map.addRegion region with
      | error cause =>
          rw [hentered] at h
          cases h
      | ok larger =>
          rw [hentered] at h
          rw [ih h, reaches_addRegion hentered kind address, List.exists_mem_cons_iff, or_assoc]

/-- Regions of any start and any size are entered into a new map, and none of them is refused.
Then an address lies between the start and the limit of some entry of a kind just when it lies
in some region of that kind and below the largest word. -/
theorem reaches_of_addRegions {regions : List Region}
    (h : empty.addRegions regions = (map, .ok ())) (kind : Kind) (address : Nat) :
    (∃ entry ∈ map.entries, entry.kind? = some kind ∧
        entry.address.toNat ≤ address ∧ address < entry.limit.toNat) ↔
      ∃ region ∈ regions, region.kind = kind ∧ region.start.toNat ≤ address ∧
        address < min (region.start.toNat + region.size.toNat) wordMax.toNat := by
  have hnew : ¬ empty.Reaches kind address := by
    simp [Reaches, empty]
  exact (reaches_addRegions h kind address).trans (or_iff_right hnew)

/-- The first region goes beyond the address space, the second one starts where its entry ends,
and the third one is of another kind: the first entry takes in the second region and reaches no
further. -/
theorem reaches_of_addRegions_beyond_the_top :
    let regions : List Region := [
      { start := 0xfffffffffffff000, size := 0x2000, kind := .ram },
      { start := 0xffffffffffffffff, size := 0xffffffffffffffff, kind := .ram },
      { start := 0xffffffffffffff00, size := 0x100, kind := .nvs }]
    let map : LegacyMap := { entries := [
      { address := 0xfffffffffffff000, size := 0xffffffffffffffff, code := 1 },
      { address := 0xffffffffffffff00, size := 0x100, code := 4 }] }
    empty.addRegions regions = (map, .ok ()) ∧
      (∃ entry ∈ map.entries, entry.kind? = some .ram ∧
        entry.address.toNat ≤ 0xfffffffffffffffe ∧ 0xfffffffffffffffe < entry.limit.toNat) ∧
      ¬ ∃ entry ∈ map.entries, entry.kind? = some .ram ∧
        entry.address.toNat ≤ 0xffffffffffffffff ∧ 0xffffffffffffffff < entry.limit.toNat := by
  intro regions map
  have hentered : empty.addRegions regions = (map, .ok ()) := by decide +kernel
  refine ⟨hentered, (reaches_of_addRegions hentered .ram _).2 ?_, fun hreached => ?_⟩
  · exact ⟨_, List.mem_cons_self, rfl, by decide, by decide⟩
  · obtain ⟨_, -, -, -, hlast⟩ := (reaches_of_addRegions hentered .ram _).1 hreached
    rw [toNat_wordMax] at hlast
    omega

end LegacyMap

end BootMemory.E820
