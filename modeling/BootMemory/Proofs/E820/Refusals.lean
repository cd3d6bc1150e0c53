import BootMemory.Proofs.E820.Canonical
import BootMemory.Proofs.E820.Growth

/-!
# Refused descriptors

A descriptor contributes at most two parts, and it is refused when one of them finds no slot.
With no slot left every part is refused, and nothing changes.  With one slot left it takes a
descriptor with two parts, whose first part fills the slot; then that part stays.  No refusal
has another cause or another effect.

Main results:

- Definition {lit}`Straddles`: the descriptors that contribute two parts.
- Definitions {lit}`LegacyMap.NoRoom` and {lit}`LegacyMap.RoomForOne`: the two ways in which
  a map has no room for a descriptor.
- Theorem {lit}`LegacyMap.addDescriptor_of_fits`: in all other cases a descriptor is entered.
- Theorem {lit}`LegacyMap.addDescriptor_refusals`: when a descriptor is refused and what stays.
-/

namespace BootMemory.E820

/-- Whether a descriptor is free memory on both sides of the legacy hole. -/
structure Straddles (descriptor : Descriptor) : Prop where
  kind_eq : kindOf? descriptor = some .ram
  start_lt : descriptor.physicalStart < holeStart
  lt_limit : holeLimit < descriptor.limit

/-- What a descriptor of free memory that starts below the legacy hole and reaches it
contributes below the hole. -/
def lowRegion (descriptor : Descriptor) : Region where
  start := descriptor.physicalStart
  size := holeStart - descriptor.physicalStart
  kind := .ram

/-- What a descriptor of free memory that reaches beyond the legacy hole contributes above it. -/
def highRegion (descriptor : Descriptor) : Region where
  start := holeLimit
  size := descriptor.limit - holeLimit
  kind := .ram

/-! ## One part or two -/

/-- A descriptor contributes a piece that has a size exactly if it has a part. -/
theorem exists_mem_pieces_iff (descriptor : Descriptor) :
    (∃ region ∈ pieces descriptor, region.size ≠ 0) ↔ parts descriptor ≠ [] := by
  simp [← filter_pieces, List.filter_eq_nil_iff]

theorem length_span_le (start limit : UInt64) (kind : Kind) :
    (span start limit kind).length ≤ 1 := by
  unfold span
  split <;> simp

/-- Free memory on both sides of the legacy hole contributes what lies below the hole first. -/
theorem Straddles.parts_eq {descriptor : Descriptor} (h : Straddles descriptor) :
    parts descriptor = [lowRegion descriptor, highRegion descriptor] := by
  have hholes : holeStart.toNat < holeLimit.toNat := by decide
  have hstart := UInt64.lt_iff_toNat_lt.1 h.start_lt
  have hlimit := UInt64.lt_iff_toNat_lt.1 h.lt_limit
  rw [parts_of_ram h.kind_eq, min_of_toNat_ge (by omega), max_of_toNat_le (by omega),
    span_eq_singleton hstart, span_eq_singleton hlimit]
  rfl

theorem Straddles.size_ne_zero {descriptor : Descriptor} (h : Straddles descriptor) :
    (lowRegion descriptor).size ≠ 0 ∧ (highRegion descriptor).size ≠ 0 := by
  have hsolid : ∀ region ∈ parts descriptor, region.Solid := fun _ => solid_of_mem_parts
  rw [h.parts_eq] at hsolid
  exact ⟨(hsolid _ (by simp)).size_ne_zero, (hsolid _ (by simp)).size_ne_zero⟩

/-- Every other descriptor has at most one part. -/
theorem length_parts_le_of_not_straddles {descriptor : Descriptor} (h : ¬ Straddles descriptor) :
    (parts descriptor).length ≤ 1 := by
  cases hkind : kindOf? descriptor with
  | none => simp [parts_of_none hkind]
  | some kind =>
      by_cases hram : kind = .ram
      · subst hram
        rw [parts_of_ram hkind, List.length_append]
        -- one side of the legacy hole holds nothing
        rcases Nat.lt_or_ge descriptor.physicalStart.toNat holeStart.toNat with hlow | hhigh
        · have hlimit :
              descriptor.limit.toNat ≤ (max descriptor.physicalStart holeLimit).toNat := by
            apply Nat.le_of_not_lt
            intro hlt
            rw [toNat_max] at hlt
            exact h ⟨hkind, UInt64.lt_iff_toNat_lt.2 hlow, UInt64.lt_iff_toNat_lt.2 (by omega)⟩
          rw [span_eq_nil hlimit, List.length_nil, Nat.add_zero]
          exact length_span_le _ _ _
        · have hnone : (min descriptor.limit holeStart).toNat ≤
              descriptor.physicalStart.toNat := by
            rw [toNat_min]
            omega
          rw [span_eq_nil hnone, List.length_nil, Nat.zero_add]
          exact length_span_le _ _ _
      · rw [parts_of_ne_ram hkind hram]
        exact length_span_le _ _ _

theorem length_parts_le (descriptor : Descriptor) : (parts descriptor).length ≤ 2 := by
  by_cases h : Straddles descriptor
  · simp [h.parts_eq]
  · exact (length_parts_le_of_not_straddles h).trans (Nat.le_succ 1)

/-- A region that the last entry touches needs no slot. -/
theorem Entry.length_place_of_touches {entries : List Entry} {last : Entry} {region : Region}
    (hlast : last ∈ entries.getLast?) (h : last.Touches (ofRegion region)) :
    (place entries region).length = entries.length := by
  obtain ⟨front, rfl⟩ := List.getLast?_eq_some_iff.1 hlast
  rw [place_concat, if_pos ((continuedBy_iff last region).2 h)]
  simp

namespace LegacyMap

/-- Whether a descriptor contributes anything to a map that has no slot left. -/
structure NoRoom (map : LegacyMap) (descriptor : Descriptor) : Prop where
  size_eq : map.size = capacity
  contributes : ∃ region ∈ pieces descriptor, region.size ≠ 0

/-- Whether a map has one slot left and a descriptor needs two: it has a part on both sides of
the legacy hole, and the lower one does not continue the last entry. -/
structure RoomForOne (map : LegacyMap) (descriptor : Descriptor) : Prop where
  size_eq : map.size + 1 = capacity
  straddles : Straddles descriptor
  apart : ∀ last ∈ map.last?, ¬ last.Touches (Entry.ofRegion (lowRegion descriptor))

variable {map : LegacyMap} {descriptor : Descriptor}

/-- Entering a descriptor is entering its parts. -/
theorem addDescriptor_eq_addRegions_parts (map : LegacyMap) (descriptor : Descriptor) :
    map.addDescriptor descriptor = map.addRegions (parts descriptor) := by
  rw [addDescriptor, ← addRegions_filter, filter_pieces]

theorem addRegions_cons_of_room {region : Region} (rest : List Region) (hsize : region.size ≠ 0)
    (hroom : map.size < capacity) :
    map.addRegions (region :: rest) =
      ({ map with entries := Entry.place map.entries region } : LegacyMap).addRegions rest := by
  rw [addRegions, addRegion_of_room hsize hroom]

theorem addRegions_cons_of_full {region : Region} (rest : List Region) (hsize : region.size ≠ 0)
    (hfull : capacity ≤ map.size) : map.addRegions (region :: rest) = (map, .error .mapFull) := by
  rw [addRegions, addRegion_of_full hsize hfull]

/-- Regions are entered if the map has a slot for each of them. -/
theorem addRegions_of_room {regions : List Region} (hsize : ∀ region ∈ regions, region.size ≠ 0)
    (hroom : map.size + regions.length ≤ capacity) : (map.addRegions regions).2 = .ok () := by
  induction regions generalizing map with
  | nil => rfl
  | cons region rest ih =>
      rw [List.length_cons] at hroom
      have hplaced := Entry.length_place_le map.entries region
      rw [addRegions_cons_of_room rest (hsize region List.mem_cons_self) (by omega)]
      apply ih (fun other hmem => hsize other (List.mem_cons_of_mem region hmem))
      simp only [size] at hroom ⊢
      omega

/-- With no slot left nothing changes. -/
theorem addDescriptor_of_noRoom (h : map.NoRoom descriptor) :
    map.addDescriptor descriptor = (map, .error .mapFull) := by
  have hparts := (exists_mem_pieces_iff descriptor).1 h.contributes
  rw [addDescriptor_eq_addRegions_parts]
  cases hlist : parts descriptor with
  | nil => exact (hparts hlist).elim
  | cons region rest =>
      have hsolid : region.Solid := solid_of_mem_parts (hlist ▸ List.mem_cons_self)
      exact addRegions_cons_of_full rest hsolid.size_ne_zero h.size_eq.ge

/-- With one slot left for two parts, the lower part gets it. -/
theorem addDescriptor_of_roomForOne (h : map.RoomForOne descriptor) :
    map.addDescriptor descriptor =
      ({ map with entries := map.entries ++ [Entry.ofRegion (lowRegion descriptor)] },
        .error .mapFull) := by
  obtain ⟨hlow, hhigh⟩ := h.straddles.size_ne_zero
  have hslot : map.size < capacity := by
    have hsize := h.size_eq
    omega
  have hfull : capacity ≤ ({ map with
      entries := map.entries ++ [Entry.ofRegion (lowRegion descriptor)] } : LegacyMap).size := by
    rw [← h.size_eq, size, size, List.length_append, List.length_singleton]
  rw [addDescriptor_eq_addRegions_parts, h.straddles.parts_eq,
    addRegions_cons_of_room _ hlow hslot, Entry.place_of_not_touches h.apart]
  exact addRegions_cons_of_full [] hhigh hfull

/-- In all other cases a descriptor is entered. -/
theorem addDescriptor_of_fits (hle : map.size ≤ capacity) (hroom : ¬ map.NoRoom descriptor)
    (htwo : ¬ map.RoomForOne descriptor) : (map.addDescriptor descriptor).2 = .ok () := by
  have hsize : ∀ region ∈ parts descriptor, region.size ≠ 0 :=
    fun _ hmem => (solid_of_mem_parts hmem).size_ne_zero
  have hlength := length_parts_le descriptor
  rw [addDescriptor_eq_addRegions_parts]
  -- a slot for each part, except when the last slot meets two parts or a full map meets one
  by_cases hfits : map.size + (parts descriptor).length ≤ capacity
  · exact addRegions_of_room hsize hfits
  · by_cases hfull : map.size = capacity
    · have hparts : parts descriptor ≠ [] := by
        intro hnil
        simp [hnil, hfull] at hfits
      exact (hroom ⟨hfull, (exists_mem_pieces_iff descriptor).2 hparts⟩).elim
    · have hstraddles : Straddles descriptor := by
        by_contra hnot
        have hone := length_parts_le_of_not_straddles hnot
        omega
      have hslot : map.size + 1 = capacity := by omega
      have hmerges : ∃ last ∈ map.last?,
          last.Touches (Entry.ofRegion (lowRegion descriptor)) := by
        by_contra hnone
        exact htwo ⟨hslot, hstraddles, fun last hlast htouch => hnone ⟨last, hlast, htouch⟩⟩
      obtain ⟨last, hlast, htouch⟩ := hmerges
      have hplaced := Entry.length_place_of_touches hlast htouch
      obtain ⟨hlow, hhigh⟩ := hstraddles.size_ne_zero
      rw [hstraddles.parts_eq, addRegions_cons_of_room _ hlow (Nat.lt_of_succ_le hslot.le)]
      apply addRegions_of_room
      · simpa using hhigh
      · rw [size, hplaced]
        exact hslot.le

/-- When a descriptor is refused, and what stays: a map without a free slot is left as it is,
and a map with one free slot keeps the part below the legacy hole of a descriptor that needs
two.  In every case, refused or not, the mark of truncation stays, the last entry may grow, at
most two entries follow it, and nothing else changes. -/
theorem addDescriptor_refusals (hreachable : map.Reachable) (descriptor : Descriptor) :
    (∀ after cause, map.addDescriptor descriptor = (after, .error cause) ↔
      cause = .mapFull ∧
        ((map.NoRoom descriptor ∧ after = map) ∨
          (map.RoomForOne descriptor ∧ after =
            { map with entries := map.entries ++
              [{ address := descriptor.physicalStart
                 size := holeStart - descriptor.physicalStart
                 code := Kind.ram.code }] }))) ∧
      (map.addDescriptor descriptor).1.truncated = map.truncated ∧
      Extends map.entries (map.addDescriptor descriptor).1.entries ∧
      (map.addDescriptor descriptor).1.size ≤ map.size + 2 := by
  constructor
  · intro after cause
    constructor
    · intro hrefused
      by_cases hroom : map.NoRoom descriptor
      · rw [addDescriptor_of_noRoom hroom] at hrefused
        cases hrefused
        exact ⟨rfl, Or.inl ⟨hroom, rfl⟩⟩
      · by_cases htwo : map.RoomForOne descriptor
        · rw [addDescriptor_of_roomForOne htwo] at hrefused
          cases hrefused
          exact ⟨rfl, Or.inr ⟨htwo, rfl⟩⟩
        · have hentered := addDescriptor_of_fits hreachable.isCanonical.length_le hroom htwo
          rw [hrefused] at hentered
          cases hentered
    · rintro ⟨rfl, ⟨hroom, rfl⟩ | ⟨htwo, rfl⟩⟩
      · exact addDescriptor_of_noRoom hroom
      · exact addDescriptor_of_roomForOne htwo
  · have hlength := length_parts_le descriptor
    rw [addDescriptor_eq_addRegions_parts]
    obtain ⟨hextends, htruncated, hsize⟩ := extends_addRegions map (parts descriptor)
    exact ⟨htruncated, hextends, by omega⟩

/-- With 127 ranges that are kept apart, free memory across the legacy hole is refused, and its
part below the hole is in the last slot. -/
theorem addDescriptor_refusals_last_slot :
    let fill := (List.range 127).map fun index => Operation.addRegion 0
      { start := 0x1000000 + 0x2000 * UInt64.ofNat index, size := 0x1000, kind := .reserved }
    let map := (runAll (fun _ => empty) fill).1 0
    let descriptor : Descriptor :=
      { typeCode := MemoryType.conventional.code, physicalStart := 0x90000, virtualStart := 0
        pages := 0x100, attributes := 0 }
    map.Reachable ∧ map.RoomForOne descriptor ∧
      map.addDescriptor descriptor =
        ({ map with entries := map.entries ++
            [{ address := 0x90000, size := 0x10000, code := 1 }] }, .error .mapFull) := by
  intro fill map descriptor
  have hreachable : map.Reachable := ⟨fill, 0, rfl⟩
  obtain ⟨hsize, hlast⟩ : map.size + 1 = capacity ∧
      map.last? = some { address := 0x10fc000, size := 0x1000, code := 2 } := by
    decide +kernel
  have hroom : map.RoomForOne descriptor := by
    refine ⟨hsize, ⟨rfl, by decide, by decide⟩, ?_⟩
    rw [hlast]
    rintro last ⟨⟩ ⟨hcode, -⟩
    exact absurd hcode (by decide)
  have hpart : ({ address := descriptor.physicalStart, size := holeStart - descriptor.physicalStart
                  code := Kind.ram.code } : Entry) =
      { address := 0x90000, size := 0x10000, code := 1 } := by
    decide
  have hrefused := ((addDescriptor_refusals hreachable descriptor).1 _ .mapFull).2
    ⟨rfl, Or.inr ⟨hroom, rfl⟩⟩
  rw [hpart] at hrefused
  exact ⟨hreachable, hroom, hrefused⟩

end LegacyMap

end BootMemory.E820
