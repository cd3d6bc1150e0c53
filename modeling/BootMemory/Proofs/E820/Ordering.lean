import BootMemory.Proofs.E820.Canonical
import BootMemory.Proofs.E820.Coverage

/-!
# The order of a converted map

A conversion takes the descriptors in the firmware's order and never sorts.  When the
descriptors that matter to a legacy kernel ascend, so do the entries, and then no two of them
could be one.  In any other order only neighbours are kept from touching: an entry can end
where one starts that was entered long before it, or right before it.

Main results:

- Definition {lit}`Ascending`: useful descriptors, each of which ends before the later ones
  start.
- Definition {lit}`InOrder`: the same said of the addresses that descriptors hold.
- Theorem {lit}`InOrder.pairwise_before_parts`: what descriptors in order contribute ascends.
- Theorem {lit}`pairwise_before_map_ofRun`: so do the entries of the runs of ascending regions.
- Theorem {lit}`LegacyMap.ascending_ofMemoryMap`: a converted map ascends if the firmware's does.
- Theorem {lit}`LegacyMap.not_touching_ofMemoryMap`: which entries of a converted map could be
  one.
-/

namespace BootMemory.E820

/-- Whether a descriptor has a size, and a kind for a legacy kernel. -/
def isUseful (descriptor : Descriptor) : Bool :=
  (kindOf? descriptor).isSome && descriptor.size != 0

/-- Of the useful descriptors each one ends at or before the start of every later one. -/
def Ascending (descriptors : List Descriptor) : Prop :=
  (descriptors.filter isUseful).Pairwise fun first second =>
    first.limit ≤ second.physicalStart

instance Ascending.decidable (descriptors : List Descriptor) : Decidable (Ascending descriptors) :=
  inferInstanceAs (Decidable (List.Pairwise _ _))

/-- Of the descriptors with a kind, each one lies below every later one, address by address. -/
def InOrder (descriptors : List Descriptor) : Prop :=
  descriptors.Pairwise fun first second =>
    (kindOf? first).isSome → (kindOf? second).isSome →
      ∀ low high, first.Holds low → second.Holds high → low < high

/-- Ascending descriptors are in order: one that holds an address has a size. -/
theorem Ascending.inOrder {descriptors : List Descriptor} (h : Ascending descriptors) :
    InOrder descriptors := by
  refine (List.pairwise_filter.1 h).imp ?_
  intro first second hordered hfirst hsecond low high hlow hhigh
  have huseful : ∀ (descriptor : Descriptor) (address : Nat), (kindOf? descriptor).isSome →
      descriptor.Holds address → isUseful descriptor = true := by
    intro descriptor address hkind hholds
    have hsize : descriptor.size ≠ 0 := by
      intro hzero
      have hlimit := hholds.2
      rw [Descriptor.limit, hzero, toNat_saturatingAdd, UInt64.toNat_zero] at hlimit
      exact absurd hholds.1 (by omega)
    simp [isUseful, hkind, hsize]
  have hbetween := UInt64.le_iff_toNat_le.1
    (hordered (huseful first low hfirst hlow) (huseful second high hsecond hhigh))
  exact Nat.lt_of_lt_of_le hlow.2 (hbetween.trans hhigh.1)

/-- Whether a region ends at or before the start of another one. -/
def Region.Before (first second : Region) : Prop := first.stop ≤ second.start.toNat

/-- Whether an entry, whose end is taken exactly, ends at or before the start of another one. -/
def Entry.Before (first second : Entry) : Prop :=
  first.address.toNat + first.size.toNat ≤ second.address.toNat

/-! ## Parts in order -/

theorem pairwise_span (start limit : UInt64) (kind : Kind) (R : Region → Region → Prop) :
    (span start limit kind).Pairwise R := by
  unfold span
  split
  next => exact List.pairwise_singleton R _
  next => exact .nil

/-- The part below the legacy hole comes before the part above it. -/
theorem pairwise_before_parts (descriptor : Descriptor) :
    (parts descriptor).Pairwise Region.Before := by
  cases hkind : kindOf? descriptor with
  | none =>
      rw [parts_of_none hkind]
      exact .nil
  | some kind =>
      by_cases hram : kind = .ram
      · rw [parts_of_ram (hram ▸ hkind)]
        refine List.pairwise_append.2 ⟨pairwise_span _ _ _ _, pairwise_span _ _ _ _, ?_⟩
        intro low hlow high hhigh
        have hholes : holeStart.toNat < holeLimit.toNat := by decide
        obtain ⟨-, -, -, hstop⟩ := stop_of_mem_span hlow
        obtain ⟨hstart, -, -, -⟩ := stop_of_mem_span hhigh
        rw [toNat_min] at hstop
        rw [Region.Before, hstop, hstart, toNat_max]
        omega
      · rw [parts_of_ne_ram hkind hram]
        exact pairwise_span _ _ _ _

/-- What descriptors in order contribute ascends, whatever lies between them. -/
theorem InOrder.pairwise_before_parts {descriptors : List Descriptor} (h : InOrder descriptors) :
    (descriptors.flatMap parts).Pairwise Region.Before := by
  refine List.pairwise_flatMap.2 ⟨fun descriptor _ => E820.pairwise_before_parts descriptor, ?_⟩
  refine h.imp ?_
  intro first second hordered low hlow high hhigh
  have hlowSize := (solid_of_mem_parts hlow).size_pos
  have hhighSize := (solid_of_mem_parts hhigh).size_pos
  -- the last address of the one part is compared with the first address of the other
  have hlast : low.Holds (low.stop - 1) := by
    constructor <;> rw [Region.stop] <;> omega
  have hfirst : high.Holds high.start.toNat :=
    ⟨Nat.le_refl _, Nat.lt_add_of_pos_right hhighSize⟩
  obtain ⟨hlowKind, hlowHolds⟩ := holds_of_mem_parts hlow hlast
  obtain ⟨hhighKind, hhighHolds⟩ := holds_of_mem_parts hhigh hfirst
  have hlt := hordered (by simp [hlowKind]) (by simp [hhighKind]) _ _ hlowHolds hhighHolds
  rw [Region.Before]
  omega

/-! ## Entries in order -/

/-- An entry that ends exactly where another one starts has no saturated limit. -/
theorem Entry.limit_eq_of_toNat_add_eq {first second : Entry}
    (h : first.address.toNat + first.size.toNat = second.address.toNat) :
    first.limit = second.address := by
  have hbound := toNat_le_wordMax second.address
  apply UInt64.toNat_inj.1
  rw [limit, toNat_saturatingAdd, h]
  exact Nat.min_eq_left hbound

/-- The entries of runs are in the order of the regions. -/
theorem pairwise_before_map_ofRun {all : List (List Region)} (hall : ∀ run ∈ all, SolidRun run)
    (h : all.flatten.Pairwise Region.Before) : (all.map Entry.ofRun).Pairwise Entry.Before := by
  rw [List.pairwise_map]
  refine (List.pairwise_flatten.1 h).2.imp_of_mem ?_
  intro first second hfirst hsecond hbefore
  have hne := (hall first hfirst).ne_nil
  have hlast := hbefore _ (List.getLast_mem hne)
  rw [Entry.Before, (hall first hfirst).address_add_size_eq]
  cases second with
  | nil => exact ((hall [] hsecond).ne_nil rfl).elim
  | cons head rest => exact hlast head List.mem_cons_self

/-- Descriptors in order give ascending entries, also in a table that is too short. -/
theorem InOrder.pairwise_before_entries {descriptors : List Descriptor} (h : InOrder descriptors) :
    (LegacyMap.ofDescriptors descriptors).entries.Pairwise Entry.Before := by
  obtain ⟨all, hall, hentries, hprefix, -⟩ := LegacyMap.exists_runs descriptors
  rw [hentries]
  exact pairwise_before_map_ofRun hall (h.pairwise_before_parts.sublist hprefix.sublist)

theorem Ascending.pairwise_before_entries {descriptors : List Descriptor}
    (h : Ascending descriptors) :
    (LegacyMap.ofDescriptors descriptors).entries.Pairwise Entry.Before :=
  h.inOrder.pairwise_before_entries

/-- Entries in order, each with a size, can only touch as neighbours. -/
theorem eq_add_one_of_pairwise_before {entries : List Entry}
    (hsize : ∀ entry ∈ entries, entry.size ≠ 0) (hordered : entries.Pairwise Entry.Before)
    {first second : Nat} (hfirst : first < entries.length) (hsecond : second < entries.length)
    (htouch : entries[first].address.toNat + entries[first].size.toNat =
      entries[second].address.toNat) :
    second = first + 1 := by
  have hpos : ∀ index (h : index < entries.length), 0 < entries[index].size.toNat := by
    intro index h
    apply Nat.pos_of_ne_zero
    intro hzero
    exact hsize _ (List.getElem_mem h) (UInt64.toNat_inj.1 hzero)
  have hbefore := List.pairwise_iff_getElem.1 hordered
  rcases Nat.lt_trichotomy second (first + 1) with hlt | heq | hgt
  · rcases Nat.eq_or_lt_of_le (Nat.le_of_lt_succ hlt) with rfl | hback
    · have hown := hpos second hfirst
      omega
    · have hreturn := hbefore second first hsecond hfirst hback
      have hown := hpos first hfirst
      have hother := hpos second hsecond
      rw [Entry.Before] at hreturn
      omega
  · exact heq
  · -- the entry in between has a size, and no room
    have hnext := hbefore first (first + 1) hfirst (by omega) (Nat.lt_succ_self first)
    have hlast := hbefore (first + 1) second (by omega) hsecond hgt
    have hown := hpos (first + 1) (by omega)
    rw [Entry.Before] at hnext hlast
    omega

namespace LegacyMap

/-- If the useful descriptors of the firmware's map ascend, with anything else in between, then
each entry of the converted map ends at or before the start of the next one.  So the addresses
of the entries ascend strictly, and no two entries hold one address. -/
theorem ascending_ofMemoryMap (bytes : List UInt8) {stride : UInt64} (hstride : 40 ≤ stride.toNat)
    (hordered : Ascending (wholeDescriptors bytes stride.toNat)) :
    ∃ map, ofMemoryMap bytes stride = .ok map ∧
      (∀ index (h : index + 1 < map.entries.length),
        map.entries[index].address.toNat + map.entries[index].size.toNat ≤
          map.entries[index + 1].address.toNat) ∧
      map.entries.Pairwise fun first second =>
        first.address < second.address ∧
          ∀ address, ¬ (first.Holds address ∧ second.Holds address) := by
  have hmap := ofMemoryMap_of_width_le bytes hstride
  have hentries := hordered.pairwise_before_entries
  refine ⟨_, hmap, ?_, ?_⟩
  · intro index h
    exact List.pairwise_iff_getElem.1 hentries index (index + 1) _ h (Nat.lt_succ_self index)
  · refine hentries.imp_of_mem ?_
    intro first second hfirst _ hbefore
    have hsize := (isCanonical_ofMemoryMap hmap).size_ne_zero first hfirst
    have hpos : first.size.toNat ≠ 0 := fun hzero => hsize (UInt64.toNat_inj.1 hzero)
    rw [Entry.Before] at hbefore
    refine ⟨UInt64.lt_iff_toNat_lt.2 (by omega), ?_⟩
    rintro address ⟨⟨-, hend⟩, hstart, -⟩
    omega

/-- Free memory across the legacy hole, persistent memory and no memory at other addresses, and
two pages at the last page of the address space. -/
theorem ascending_ofMemoryMap_up_to_the_top :
    let persistent := Descriptor.encode [0, 0, 0, 0] []
      { typeCode := MemoryType.persistent.code, physicalStart := 0x1000, virtualStart := 0
        pages := 0x10, attributes := 0 }
    let bytes := ramBlock 0x90000 0x100 ++ (persistent ++ (ramBlock 0 0 ++
      ramBlock 0xfffffffffffff000 2))
    Ascending (wholeDescriptors bytes 40) ∧
      ∃ map, ofMemoryMap bytes 40 = .ok map ∧
        map.entries.map Entry.address = [0x90000, 0x100000, 0xfffffffffffff000] ∧
        map.entries.Pairwise fun first second => first.address < second.address := by
  intro persistent bytes
  have hordered : Ascending (wholeDescriptors bytes 40) := by
    decide +kernel
  have hvalue : ofMemoryMap bytes 40 = .ok { entries :=
      [{ address := 0x90000, size := 0x10000, code := 1 },
        { address := 0x100000, size := 0x90000, code := 1 },
        { address := 0xfffffffffffff000, size := 0xfff, code := 1 }] } := by
    decide +kernel
  obtain ⟨map, hmap, -, hascends⟩ := @ascending_ofMemoryMap bytes 40 (by decide) hordered
  refine ⟨hordered, map, hmap, ?_, hascends.imp fun h => h.1⟩
  rw [← Except.ok.inj (hvalue.symm.trans hmap)]
  rfl

/-- Two entries of a converted map that could be one, of one kind and with the second one right
behind the first one, are never entered one after the other, and they only arise when the useful
descriptors of the firmware's map do not ascend. -/
theorem not_touching_ofMemoryMap (bytes : List UInt8) {stride : UInt64}
    (hstride : 40 ≤ stride.toNat) :
    ∃ map, ofMemoryMap bytes stride = .ok map ∧
      ∀ first second (hfirst : first < map.entries.length) (hsecond : second < map.entries.length),
        map.entries[first].code = map.entries[second].code →
        map.entries[first].address.toNat + map.entries[first].size.toNat =
          map.entries[second].address.toNat →
        second ≠ first + 1 ∧ ¬ Ascending (wholeDescriptors bytes stride.toNat) := by
  have hmap := ofMemoryMap_of_width_le bytes hstride
  have hcanonical := isCanonical_ofMemoryMap hmap
  refine ⟨_, hmap, ?_⟩
  intro first second hfirst hsecond hcode htouch
  have hnext : second ≠ first + 1 := by
    rintro rfl
    refine List.isChain_iff_getElem.1 hcanonical.separate first hsecond ⟨hcode, ?_⟩
    exact Entry.limit_eq_of_toNat_add_eq htouch
  refine ⟨hnext, fun hordered => hnext ?_⟩
  exact eq_add_one_of_pairwise_before hcanonical.size_ne_zero hordered.pairwise_before_entries
    hfirst hsecond htouch

/-- The upper half of some free memory in front of the lower half: the second entry ends where
the first one starts. -/
theorem not_touching_ofMemoryMap_upper_half_first :
    let bytes := ramBlock 0x200000 0x100 ++ ramBlock 0x100000 0x100
    ofMemoryMap bytes 40 = .ok { entries :=
        [{ address := 0x200000, size := 0x100000, code := 1 },
          { address := 0x100000, size := 0x100000, code := 1 }] } ∧
      ¬ Ascending (wholeDescriptors bytes 40) := by
  intro bytes
  have hvalue : ofMemoryMap bytes 40 = .ok { entries :=
      [{ address := 0x200000, size := 0x100000, code := 1 },
        { address := 0x100000, size := 0x100000, code := 1 }] } := by
    decide +kernel
  obtain ⟨map, hmap, htouching⟩ := @not_touching_ofMemoryMap bytes 40 (by decide)
  obtain rfl := Except.ok.inj (hvalue.symm.trans hmap)
  exact ⟨hvalue, (htouching 1 0 (by decide) (by decide) rfl rfl).2⟩

/-- So a converted map can hold two entries that could be one. -/
theorem not_forall_not_touching :
    ¬ ∀ (bytes : List UInt8) (stride : UInt64) (map : LegacyMap), 40 ≤ stride.toNat →
      ofMemoryMap bytes stride = .ok map →
        ∀ first second (hfirst : first < map.entries.length)
          (hsecond : second < map.entries.length), first ≠ second →
          ¬ (map.entries[first].code = map.entries[second].code ∧
            map.entries[first].address.toNat + map.entries[first].size.toNat =
              map.entries[second].address.toNat) := by
  intro h
  have hmap : ofMemoryMap (ramBlock 0x200000 0x100 ++ ramBlock 0x100000 0x100) 40 = .ok { entries :=
      [{ address := 0x200000, size := 0x100000, code := 1 },
        { address := 0x100000, size := 0x100000, code := 1 }] } := rfl
  exact h _ 40 _ (by decide) hmap 1 0 (by decide) (by decide) (by decide) ⟨rfl, rfl⟩

end LegacyMap

end BootMemory.E820
