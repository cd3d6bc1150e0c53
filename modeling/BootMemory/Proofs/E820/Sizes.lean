import Mathlib.Data.Finset.Card
import Mathlib.Order.Bounds.Basic
import Mathlib.Order.Interval.Finset.Nat
import BootMemory.E820.Extent
import BootMemory.Proofs.E820.Ordering

/-!
# The reported memory sizes

The two sizes are computed from the entries of a map, but they speak of the memory behind it.
The first one counts the free addresses below the legacy hole: descriptors that share no address
give entries that share none, so no address is counted twice.  The second one measures how far
free memory reaches from one mebibyte on: entries in order that touch are joined, so the entry
that holds the first address after the hole ends where free memory ends.

Main results:

- Definition {lit}`FreeAt`: the addresses of free memory.
- Definition {lit}`FreeApart`: descriptors of free memory that share no address.
- Theorem {lit}`LegacyMap.toNat_conventionalKib`: the first size counts the addresses that
  entries hold below the hole, if no address is held by two of them.
- Theorem {lit}`LegacyMap.isGreatest_extendedLimit`: the second size reaches up to the first
  address that is not free.
- Theorem {lit}`LegacyMap.sizes_ofMemoryMap`: both sizes of a converted map.
-/

namespace BootMemory.E820

/-- Whether some descriptor of free memory holds an address. -/
def FreeAt (descriptors : List Descriptor) (address : Nat) : Prop :=
  ∃ descriptor ∈ descriptors, kindOf? descriptor = some .ram ∧ descriptor.Holds address

instance FreeAt.decidable (descriptors : List Descriptor) : DecidablePred (FreeAt descriptors) :=
  fun address => inferInstanceAs (Decidable (∃ descriptor ∈ descriptors,
    kindOf? descriptor = some .ram ∧ descriptor.Holds address))

/-- Whether no two descriptors of free memory hold one address. -/
def FreeApart (descriptors : List Descriptor) : Prop :=
  descriptors.Pairwise fun first second =>
    kindOf? first = some .ram → kindOf? second = some .ram →
      ∀ address, ¬ (first.Holds address ∧ second.Holds address)

instance Entry.Holds.decidable (entry : Entry) : DecidablePred entry.Holds :=
  fun _ => inferInstanceAs (Decidable (_ ∧ _))

/-- Whether no address is held by two regions of free memory. -/
def Region.FreeApart (first second : Region) : Prop :=
  first.kind = .ram → second.kind = .ram →
    ∀ address, ¬ (first.Holds address ∧ second.Holds address)

/-- Whether no address is held by two entries of free memory. -/
def Entry.FreeApart (first second : Entry) : Prop :=
  first.kind? = some .ram → second.kind? = some .ram →
    ∀ address, ¬ (first.Holds address ∧ second.Holds address)

/-! ## Free memory in a map -/

/-- Descriptors in order hold no address twice. -/
theorem InOrder.freeApart {descriptors : List Descriptor} (h : InOrder descriptors) :
    FreeApart descriptors := by
  refine h.imp ?_
  rintro first second hordered hfirst hsecond address ⟨hlow, hhigh⟩
  exact Nat.lt_irrefl address
    (hordered (by simp [hfirst]) (by simp [hsecond]) address address hlow hhigh)

/-- Outside the legacy hole, what descriptors offer as free memory is what they hold. -/
theorem freeAt_iff {descriptors : List Descriptor} {address : Nat} (h : ¬ InHole address) :
    FreeAt descriptors address ↔ ∃ descriptor ∈ descriptors, Offers descriptor .ram address := by
  simp [FreeAt, Offers, Descriptor.Holds, h]

namespace LegacyMap

variable {descriptors : List Descriptor}

/-- A map that is not cut short covers what the descriptors offer. -/
theorem covers_iff_of_whole (hwhole : (ofDescriptors descriptors).truncated = false)
    (kind : Kind) (address : Nat) :
    (ofDescriptors descriptors).Covers kind address ↔
      ∃ descriptor ∈ descriptors, Offers descriptor kind address := by
  obtain ⟨all, hall, hentries, -, hflatten⟩ := exists_runs descriptors
  rw [Covers, hentries, exists_mem_map_ofRun_iff hall, hflatten hwhole,
    exists_mem_flatMap_parts_iff]

theorem covers_ram_iff_of_whole (hwhole : (ofDescriptors descriptors).truncated = false)
    {address : Nat} (h : ¬ InHole address) :
    (ofDescriptors descriptors).Covers .ram address ↔ FreeAt descriptors address := by
  rw [covers_iff_of_whole hwhole, freeAt_iff h]

/-- No entry of free memory reaches into the legacy hole. -/
theorem not_inHole_of_covers (hwhole : (ofDescriptors descriptors).truncated = false)
    {address : Nat} (h : (ofDescriptors descriptors).Covers .ram address) : ¬ InHole address := by
  obtain ⟨descriptor, -, -, -, houtside⟩ := (covers_iff_of_whole hwhole .ram address).1 h
  exact houtside rfl

/-- Every entry ends within the address space. -/
theorem fits_of_mem_entries {entry : Entry} (h : entry ∈ (ofDescriptors descriptors).entries) :
    entry.address.toNat + entry.size.toNat < 2 ^ 64 := by
  obtain ⟨all, hall, hentries, -⟩ := exists_runs descriptors
  rw [hentries] at h
  obtain ⟨run, hrun, rfl⟩ := List.mem_map.1 h
  exact (hall run hrun).address_add_size_lt

end LegacyMap

/-- The limit of an entry that ends within the address space is its exact end. -/
theorem Entry.toNat_limit {entry : Entry} (h : entry.address.toNat + entry.size.toNat < 2 ^ 64) :
    entry.limit.toNat = entry.address.toNat + entry.size.toNat := by
  rw [limit, toNat_saturatingAdd]
  omega

/-! ## Memory below the legacy hole -/

/-- What descriptors contribute holds no free address twice, if they do not. -/
theorem FreeApart.pairwise_parts {descriptors : List Descriptor} (h : FreeApart descriptors) :
    (descriptors.flatMap parts).Pairwise Region.FreeApart := by
  refine List.pairwise_flatMap.2 ⟨fun descriptor _ => ?_, h.imp ?_⟩
  · refine (pairwise_before_parts descriptor).imp ?_
    rintro first second hbefore - - address ⟨⟨-, hstop⟩, hstart, -⟩
    exact absurd (hstop.trans_le (hbefore.trans hstart)) (Nat.lt_irrefl address)
  · intro first second happart low hlow high hhigh hlowKind hhighKind address
    rintro ⟨hlowHolds, hhighHolds⟩
    obtain ⟨hfirstKind, hfirst⟩ := holds_of_mem_parts hlow hlowHolds
    obtain ⟨hsecondKind, hsecond⟩ := holds_of_mem_parts hhigh hhighHolds
    exact happart (hlowKind ▸ hfirstKind) (hhighKind ▸ hsecondKind) address ⟨hfirst, hsecond⟩

/-- The entries of runs hold no free address twice, if the regions of the runs do not. -/
theorem pairwise_freeApart_map_ofRun {all : List (List Region)} (hall : ∀ run ∈ all, SolidRun run)
    (h : all.flatten.Pairwise Region.FreeApart) :
    (all.map Entry.ofRun).Pairwise Entry.FreeApart := by
  rw [List.pairwise_map]
  refine (List.pairwise_flatten.1 h).2.imp_of_mem ?_
  intro first second hfirst hsecond happart hfirstKind hsecondKind address
  rintro ⟨hfirstHolds, hsecondHolds⟩
  obtain ⟨low, hlow, hlowKind, hlowHolds⟩ :=
    ((hall first hfirst).holds_ofRun_iff .ram address).1 ⟨hfirstKind, hfirstHolds⟩
  obtain ⟨high, hhigh, hhighKind, hhighHolds⟩ :=
    ((hall second hsecond).holds_ofRun_iff .ram address).1 ⟨hsecondKind, hsecondHolds⟩
  exact happart low hlow high hhigh hlowKind hhighKind address ⟨hlowHolds, hhighHolds⟩

/-- So neither does a converted map, also in a table that is too short. -/
theorem FreeApart.pairwise_entries {descriptors : List Descriptor} (h : FreeApart descriptors) :
    (LegacyMap.ofDescriptors descriptors).entries.Pairwise Entry.FreeApart := by
  obtain ⟨all, hall, hentries, hprefix, -⟩ := LegacyMap.exists_runs descriptors
  rw [hentries]
  exact pairwise_freeApart_map_ofRun hall (h.pairwise_parts.sublist hprefix.sublist)

/-- The low bytes of an entry are its addresses below the legacy hole. -/
theorem Entry.toNat_lowBytes {entry : Entry} (hlow : entry.address < holeStart)
    (hfits : entry.address.toNat + entry.size.toNat < 2 ^ 64) :
    entry.lowBytes.toNat = ((Finset.range holeStart.toNat).filter entry.Holds).card := by
  rw [UInt64.lt_iff_toNat_lt] at hlow
  have hset : (Finset.range holeStart.toNat).filter entry.Holds =
      Finset.Ico entry.address.toNat (min entry.limit holeStart).toNat := by
    ext address
    simp only [Finset.mem_filter, Finset.mem_range, Finset.mem_Ico, Entry.Holds, toNat_min,
      toNat_limit hfits]
    omega
  have hle : entry.address.toNat ≤ (min entry.limit holeStart).toNat := by
    rw [toNat_min, toNat_limit hfits]
    omega
  rw [hset, Nat.card_Ico, lowBytes, toNat_sub_of_toNat_le hle]

/-- The low bytes of entries that share no address are the addresses below the legacy hole that
one of them holds. -/
theorem sum_lowBytes {entries : List Entry}
    (happart : entries.Pairwise fun first second =>
      ∀ address, ¬ (first.Holds address ∧ second.Holds address))
    (hlow : ∀ entry ∈ entries, entry.address < holeStart)
    (hfits : ∀ entry ∈ entries, entry.address.toNat + entry.size.toNat < 2 ^ 64) :
    (entries.map fun entry => entry.lowBytes.toNat).sum =
      ((Finset.range holeStart.toNat).filter fun address =>
        ∃ entry ∈ entries, entry.Holds address).card := by
  induction entries with
  | nil => simp
  | cons entry rest ih =>
      rw [List.pairwise_cons] at happart
      rw [List.forall_mem_cons] at hlow hfits
      have hdisjoint : Disjoint ((Finset.range holeStart.toNat).filter entry.Holds)
          ((Finset.range holeStart.toNat).filter fun address =>
            ∃ other ∈ rest, other.Holds address) := by
        rw [Finset.disjoint_filter]
        rintro address - hfirst ⟨other, hmem, hother⟩
        exact happart.1 other hmem address ⟨hfirst, hother⟩
      simp only [List.exists_mem_cons_iff, Finset.filter_or]
      rw [Finset.card_union_of_disjoint hdisjoint, List.map_cons, List.sum_cons,
        Entry.toNat_lowBytes hlow.1 hfits.1, ih happart.2 hlow.2 hfits.2]

/-- A sum of low bytes that is a word is added up without wrapping. -/
theorem toNat_foldl_lowBytes (entries : List Entry) (total : UInt64)
    (h : total.toNat + (entries.map fun entry => entry.lowBytes.toNat).sum < 2 ^ 64) :
    (entries.foldl (fun total entry => total + entry.lowBytes) total).toNat =
      total.toNat + (entries.map fun entry => entry.lowBytes.toNat).sum := by
  induction entries generalizing total with
  | nil => simp
  | cons entry rest ih =>
      rw [List.map_cons, List.sum_cons] at h ⊢
      have hadd : (total + entry.lowBytes).toNat = total.toNat + entry.lowBytes.toNat := by
        rw [UInt64.toNat_add]
        omega
      rw [List.foldl_cons, ih _ (by omega), hadd, Nat.add_assoc]

theorem toNat_shiftRight_ten (bytes : UInt64) : (bytes >>> 10).toNat = bytes.toNat / 1024 := by
  simp [UInt64.toNat_shiftRight, Nat.shiftRight_eq_div_pow]

namespace LegacyMap

variable {map : LegacyMap}

theorem mem_lowEntries_iff {entry : Entry} :
    entry ∈ map.lowEntries ↔
      entry ∈ map.entries ∧ entry.kind? = some .ram ∧ entry.address < holeStart := by
  simp [lowEntries, Entry.isRam]

/-- The first size counts the addresses below the legacy hole that an entry of free memory
holds. -/
theorem toNat_conventionalKib (happart : map.entries.Pairwise Entry.FreeApart)
    (hfits : ∀ entry ∈ map.entries, entry.address.toNat + entry.size.toNat < 2 ^ 64) :
    map.conventionalKib.toNat =
      ((Finset.range holeStart.toNat).filter fun address =>
        ∃ entry ∈ map.lowEntries, entry.Holds address).card / 1024 := by
  have hpairwise : map.lowEntries.Pairwise fun first second =>
      ∀ address, ¬ (first.Holds address ∧ second.Holds address) := by
    refine List.pairwise_filter.2 (happart.imp ?_)
    intro first second hapart hfirst hsecond
    simp only [Entry.isRam, Bool.and_eq_true, beq_iff_eq] at hfirst hsecond
    exact hapart hfirst.1 hsecond.1
  have hsum := sum_lowBytes hpairwise (fun entry hmem => (mem_lowEntries_iff.1 hmem).2.2)
    (fun entry hmem => hfits entry (mem_lowEntries_iff.1 hmem).1)
  have hbound := Finset.card_filter_le (Finset.range holeStart.toNat) fun address =>
    ∃ entry ∈ map.lowEntries, entry.Holds address
  have hhole : holeStart.toNat < 2 ^ 64 := holeStart.toNat_lt
  rw [Finset.card_range, ← hsum] at hbound
  rw [conventionalKib, toNat_shiftRight_ten, toNat_foldl_lowBytes _ _ (by simp; omega), hsum]
  simp

/-- The addresses of free memory below the legacy hole are those of the low entries. -/
theorem exists_mem_lowEntries_iff {address : Nat} (h : address < holeStart.toNat) :
    (∃ entry ∈ map.lowEntries, entry.Holds address) ↔ map.Covers .ram address := by
  constructor
  · rintro ⟨entry, hmem, hholds⟩
    obtain ⟨hentry, hkind, -⟩ := mem_lowEntries_iff.1 hmem
    exact ⟨entry, hentry, hkind, hholds⟩
  · rintro ⟨entry, hentry, hkind, hholds⟩
    have hlow : entry.address < holeStart := UInt64.lt_iff_toNat_lt.2 (hholds.1.trans_lt h)
    exact ⟨entry, mem_lowEntries_iff.2 ⟨hentry, hkind, hlow⟩, hholds⟩

/-- The first size of a converted map counts the free addresses below the legacy hole. -/
theorem toNat_conventionalKib_ofDescriptors {descriptors : List Descriptor}
    (hwhole : (ofDescriptors descriptors).truncated = false) (happart : FreeApart descriptors) :
    (ofDescriptors descriptors).conventionalKib.toNat =
      ((Finset.range holeStart.toNat).filter (FreeAt descriptors)).card / 1024 := by
  have hlow : ∀ address ∈ Finset.range holeStart.toNat,
      ((∃ entry ∈ (ofDescriptors descriptors).lowEntries, entry.Holds address) ↔
        FreeAt descriptors address) := by
    intro address hmem
    have hbelow := Finset.mem_range.1 hmem
    rw [exists_mem_lowEntries_iff hbelow]
    exact covers_ram_iff_of_whole hwhole fun hhole => absurd hhole.1 (Nat.not_le.2 hbelow)
  rw [toNat_conventionalKib happart.pairwise_entries fun entry => fits_of_mem_entries,
    Finset.filter_congr hlow]

end LegacyMap

/-! ## Memory from one mebibyte on -/

/-- Where a stretch without a gap ends, if it ends at some number. -/
theorem isGreatest_stretch {P : Nat → Prop} {start limit : Nat} (hle : start ≤ limit)
    (hstretch : ∀ number, start ≤ number → number < limit → P number) (hend : ¬ P limit) :
    IsGreatest {limit | ∀ number, start ≤ number → number < limit → P number} limit := by
  refine ⟨hstretch, ?_⟩
  intro other hother
  exact Nat.le_of_not_lt fun hlt => hend (hother limit hle hlt)

/-- Two entries of the same kind have the same number. -/
theorem Canonical.code_eq {entries : List Entry} (h : Canonical entries) {first second : Entry}
    (hfirst : first ∈ entries) (hsecond : second ∈ entries) (hkind : first.kind? = second.kind?) :
    first.code = second.code := by
  obtain ⟨low, rfl⟩ := h.known first hfirst
  obtain ⟨high, rfl⟩ := h.known second hsecond
  simp only [Entry.kind?_ofRegion, Option.some.injEq] at hkind
  simp [Entry.ofRegion, hkind]

/-- Where an entry of ascending entries ends, no entry of its kind goes on. -/
theorem Canonical.not_holds_end {entries : List Entry} (h : Canonical entries)
    (hordered : entries.Pairwise Entry.Before) {first second : Entry} (hfirst : first ∈ entries)
    (hsecond : second ∈ entries) (hkind : first.kind? = second.kind?) :
    ¬ second.Holds (first.address.toNat + first.size.toNat) := by
  rintro ⟨hstart, hend⟩
  have hcode := h.code_eq hfirst hsecond hkind
  obtain ⟨place, hplace, rfl⟩ := List.mem_iff_getElem.1 hfirst
  obtain ⟨other, hother, rfl⟩ := List.mem_iff_getElem.1 hsecond
  have hbefore := List.pairwise_iff_getElem.1 hordered
  rcases Nat.lt_trichotomy place other with hlt | rfl | hgt
  · -- the other entry starts right there, so the two are neighbours that could be one
    have hle := hbefore place other hplace hother hlt
    have htouch := Nat.le_antisymm hle hstart
    obtain rfl := eq_add_one_of_pairwise_before h.size_ne_zero hordered hplace hother htouch
    exact List.isChain_iff_getElem.1 h.separate place hother
      ⟨hcode, Entry.limit_eq_of_toNat_add_eq htouch⟩
  · exact Nat.lt_irrefl _ hend
  · have hle := hbefore other place hother hplace hgt
    rw [Entry.Before] at hle
    omega

namespace LegacyMap

variable {descriptors : List Descriptor}

/-- An entry covers the first address after the legacy hole if it is free memory and holds it. -/
theorem coversHoleLimit_iff {entry : Entry}
    (hfits : entry.address.toNat + entry.size.toNat < 2 ^ 64) :
    entry.coversHoleLimit = true ↔ entry.kind? = some .ram ∧ entry.Holds holeLimit.toNat := by
  simp [Entry.coversHoleLimit, Entry.isRam, Entry.Holds, UInt64.le_iff_toNat_le,
    UInt64.lt_iff_toNat_lt, Entry.toNat_limit hfits, and_assoc]

/-- An entry of free memory that holds the first address after the legacy hole starts there. -/
theorem address_eq_of_holds_holeLimit (hwhole : (ofDescriptors descriptors).truncated = false)
    {entry : Entry} (hmem : entry ∈ (ofDescriptors descriptors).entries)
    (hkind : entry.kind? = some .ram) (hholds : entry.Holds holeLimit.toNat) :
    entry.address.toNat = holeLimit.toNat := by
  have hholes : holeStart.toNat < holeLimit.toNat := by decide
  apply Nat.le_antisymm hholds.1
  by_contra hlt
  -- otherwise it would hold the last address of the hole
  have hlast : entry.Holds (holeLimit.toNat - 1) := ⟨by omega, by have := hholds.2; omega⟩
  exact not_inHole_of_covers hwhole ⟨entry, hmem, hkind, hlast⟩ ⟨by omega, by omega⟩

/-- The second size reaches from the end of the legacy hole up to the first address that is not
free memory. -/
theorem isGreatest_extendedLimit (hwhole : (ofDescriptors descriptors).truncated = false)
    (hordered : InOrder descriptors) :
    ∃ limit, IsGreatest {limit | ∀ address, holeLimit.toNat ≤ address → address < limit →
        FreeAt descriptors address} limit ∧
      (ofDescriptors descriptors).extendedKib.toNat = (limit - holeLimit.toNat) / 1024 := by
  have hfree : ∀ address, holeLimit.toNat ≤ address →
      ((ofDescriptors descriptors).Covers .ram address ↔ FreeAt descriptors address) :=
    fun address hle => covers_ram_iff_of_whole hwhole fun hhole => absurd hhole.2 (by omega)
  have hfits := fun entry => @fits_of_mem_entries descriptors entry
  cases hfound : (ofDescriptors descriptors).entries.find? Entry.coversHoleLimit with
  | none =>
      have hnot : ¬ FreeAt descriptors holeLimit.toNat := by
        rw [← hfree _ (Nat.le_refl _)]
        rintro ⟨entry, hmem, hcovers⟩
        exact List.find?_eq_none.1 hfound entry hmem
          ((coversHoleLimit_iff (hfits entry hmem)).2 hcovers)
      refine ⟨holeLimit.toNat, isGreatest_stretch (Nat.le_refl _) ?_ hnot, ?_⟩
      · intro address hle hlt
        omega
      · simp [extendedKib, hfound]
  | some entry =>
      have hmem := List.mem_of_find?_eq_some hfound
      obtain ⟨hkind, hholds⟩ := (coversHoleLimit_iff (hfits entry hmem)).1
        (List.find?_some hfound)
      have hstart := address_eq_of_holds_holeLimit hwhole hmem hkind hholds
      have hlimit := Entry.toNat_limit (hfits entry hmem)
      have hle : holeLimit.toNat ≤ entry.limit.toNat := by omega
      refine ⟨entry.limit.toNat, isGreatest_stretch hle ?_ ?_, ?_⟩
      · intro address hfrom hto
        rw [← hfree address hfrom]
        exact ⟨entry, hmem, hkind, by omega, by omega⟩
      · rw [← hfree _ hle, hlimit]
        rintro ⟨other, hother, hotherKind, hotherHolds⟩
        exact (isCanonical_ofDescriptors descriptors).not_holds_end
          hordered.pairwise_before_entries hmem hother (hkind.trans hotherKind.symm) hotherHolds
      · rw [extendedKib, hfound, toNat_shiftRight_ten, toNat_sub_of_toNat_le hle]

/-- The sizes of a converted map that is not cut short.  If no two descriptors of free memory
share an address, the first size counts the free addresses below the legacy hole.  If the
descriptors that matter to a legacy kernel are in order, the second size measures the stretch of
free memory from one mebibyte on, up to the first address that is not free. -/
theorem sizes_ofMemoryMap (bytes : List UInt8) {stride : UInt64} (hstride : 40 ≤ stride.toNat) :
    ∃ map, ofMemoryMap bytes stride = .ok map ∧ (map.truncated = false →
      let descriptors := wholeDescriptors bytes stride.toNat
      (FreeApart descriptors → map.conventionalKib.toNat =
        ((Finset.range 0xa0000).filter (FreeAt descriptors)).card / 1024) ∧
      (InOrder descriptors → ∃ limit,
        IsGreatest {limit | ∀ address, 0x100000 ≤ address → address < limit →
          FreeAt descriptors address} limit ∧
        map.extendedKib.toNat = (limit - 0x100000) / 1024)) := by
  refine ⟨_, ofMemoryMap_of_width_le bytes hstride, ?_⟩
  intro hwhole descriptors
  constructor
  · exact toNat_conventionalKib_ofDescriptors hwhole
  · exact isGreatest_extendedLimit hwhole

/-- Free memory in three descriptors, of which the second one lies across the legacy hole and the
third one continues it, with persistent memory in between.  The map is whole, and its sizes are
those of the descriptors: 576 kibibytes of free addresses below the hole, and 584 from one
mebibyte on. -/
theorem sizes_ofMemoryMap_across_hole :
    let persistent := Descriptor.encode [0, 0, 0, 0] []
      { typeCode := MemoryType.persistent.code, physicalStart := 0x1000, virtualStart := 0
        pages := 0x10, attributes := 0 }
    let bytes := ramBlock 0 0x80 ++ (ramBlock 0x90000 0x100 ++ (persistent ++ ramBlock 0x190000 2))
    let descriptors := wholeDescriptors bytes 40
    ∃ map, ofMemoryMap bytes 40 = .ok map ∧ map.truncated = false ∧
      FreeApart descriptors ∧ InOrder descriptors ∧
      map.conventionalKib = 576 ∧
      ((Finset.range 0xa0000).filter (FreeAt descriptors)).card / 1024 = 576 ∧
      map.extendedKib = 584 ∧
      ∃ limit, IsGreatest {limit | ∀ address, 0x100000 ≤ address → address < limit →
        FreeAt descriptors address} limit ∧ (limit - 0x100000) / 1024 = 584 := by
  intro persistent bytes descriptors
  have hascending : Ascending descriptors := by
    decide +kernel
  have hvalue : ofMemoryMap bytes 40 = .ok { entries :=
      [{ address := 0, size := 0x80000, code := 1 },
        { address := 0x90000, size := 0x10000, code := 1 },
        { address := 0x100000, size := 0x92000, code := 1 }] } := by
    decide +kernel
  have horder := hascending.inOrder
  obtain ⟨map, hmap, hsizes⟩ := @sizes_ofMemoryMap bytes 40 (by decide)
  obtain rfl := Except.ok.inj (hvalue.symm.trans hmap)
  obtain ⟨hlow, hextended⟩ := hsizes rfl
  obtain ⟨limit, hgreatest, hlimit⟩ := hextended horder
  refine ⟨_, hmap, rfl, horder.freeApart, horder, by decide, ?_, by decide, limit, hgreatest, ?_⟩
  · exact (hlow horder.freeApart).symm.trans (by decide)
  · exact hlimit.symm.trans (by decide)

end LegacyMap

end BootMemory.E820
