import Mathlib.Logic.Relation
import BootMemory.Proofs.E820.Coverage

/-!
# Splitting a descriptor

When the firmware carves an allocation out of a descriptor it replaces one descriptor
by two that follow each other and stand for the same pages.  The legacy map does not
show this: the pieces join again, with each other and with their neighbours, wherever
the cut lies.

Main results:

- Theorem {lit}`foldl_place_span_append`: entering the two halves of a span is
  entering the span.
- Theorem {lit}`SplitsInto.foldl_place_parts`: the same for the halves of a descriptor.
- Theorem {lit}`LegacyMap.ofMemoryMap_of_splits`: no chain of splits changes a
  converted map that has a free slot.
-/

namespace BootMemory.E820

/-! ## Halves of a span -/

/-- What lies between two addresses leads from the first one to the second one. -/
theorem saturatingAdd_sub {start limit : UInt64} (h : start.toNat ≤ limit.toNat) :
    saturatingAdd start (limit - start) = limit := by
  have hbound := limit.toNat_lt
  apply UInt64.toNat_inj.1
  rw [toNat_saturatingAdd, toNat_sub_of_toNat_le h]
  omega

theorem saturatingAdd_sub_sub {start middle limit : UInt64}
    (hfirst : start.toNat ≤ middle.toNat) (hsecond : middle.toNat ≤ limit.toNat) :
    saturatingAdd (middle - start) (limit - middle) = limit - start := by
  have hbound := limit.toNat_lt
  apply UInt64.toNat_inj.1
  rw [toNat_saturatingAdd, toNat_sub_of_toNat_le hfirst, toNat_sub_of_toNat_le hsecond,
    toNat_sub_of_toNat_le (Nat.le_trans hfirst hsecond)]
  omega

namespace Entry

theorem grow_grow (entry : Entry) (first second : UInt64) :
    (entry.grow first).grow second = entry.grow (saturatingAdd first second) := by
  rw [grow, grow, grow, saturatingAdd_assoc]

/-- A region of the same kind joins the entry that ends where it starts. -/
theorem place_concat_of_limit {front : List Entry} {last : Entry} {region : Region}
    (hcode : last.code = region.kind.code) (hlimit : last.limit = region.start) :
    place (front ++ [last]) region = front ++ [last.grow region.size] := by
  have hcontinued : last.continuedBy region = true := by
    rw [continuedBy, hcode, hlimit, beq_self_eq_true, beq_self_eq_true, Bool.and_self]
  rw [place_concat, if_pos hcontinued]

/-- Placing the two halves of a region is placing the region: the second half always
joins the entry that ends with the first one. -/
theorem place_place_halves (entries : List Entry) {first second whole : Region}
    (hstart : whole.start = first.start)
    (hcut : saturatingAdd first.start first.size = second.start)
    (hsize : saturatingAdd first.size second.size = whole.size)
    (hfirst : first.kind = whole.kind) (hsecond : second.kind = whole.kind) :
    place (place entries first) second = place entries whole := by
  have hlimit : (ofRegion first).limit = second.start := by
    rw [Entry.limit, ofRegion, hcut]
  have hcode : (ofRegion first).code = second.kind.code := by
    rw [ofRegion, hfirst, hsecond]
  have hgrown : (ofRegion first).grow second.size = ofRegion whole := by
    rw [grow, ofRegion, ofRegion, hsize, hstart, hfirst]
  rcases List.eq_nil_or_concat entries with rfl | ⟨front, last, rfl⟩
  · have hjoined := @place_concat_of_limit [] (ofRegion first) second hcode hlimit
    rw [List.nil_append, List.nil_append, hgrown] at hjoined
    rw [place_nil, place_nil, hjoined]
  · rw [List.concat_eq_append, place_concat, place_concat]
    have hsame : last.continuedBy first = last.continuedBy whole := by
      rw [continuedBy, continuedBy, hstart, hfirst]
    rw [hsame]
    by_cases hcontinued : last.continuedBy whole = true
    · have hparts : last.code = whole.kind.code ∧ last.limit = whole.start := by
        simpa only [continuedBy, Bool.and_eq_true, beq_iff_eq] using hcontinued
      have hcodeGrown : (last.grow first.size).code = second.kind.code := by
        rw [hsecond, ← hparts.1, grow]
      have hlimitGrown : (last.grow first.size).limit = second.start := by
        rw [limit_grow, hparts.2, hstart, hcut]
      rw [if_pos hcontinued, if_pos hcontinued, place_concat_of_limit hcodeGrown hlimitGrown,
        grow_grow, hsize]
    · rw [if_neg hcontinued, if_neg hcontinued, place_concat_of_limit hcode hlimit, hgrown]

end Entry

/-- Entering the two halves of a span is entering the span. -/
theorem foldl_place_span_append (entries : List Entry) {start middle limit : UInt64}
    (hfirst : start.toNat ≤ middle.toNat) (hsecond : middle.toNat ≤ limit.toNat) (kind : Kind) :
    (span start middle kind ++ span middle limit kind).foldl Entry.place entries =
      (span start limit kind).foldl Entry.place entries := by
  rcases Nat.eq_or_lt_of_le hfirst with heq | hlt
  · obtain rfl := UInt64.toNat_inj.1 heq
    rw [span_eq_nil (Nat.le_refl _), List.nil_append]
  · rcases Nat.eq_or_lt_of_le hsecond with heq | hltSecond
    · obtain rfl := UInt64.toNat_inj.1 heq
      rw [span_eq_nil (Nat.le_refl _), List.append_nil]
    · rw [span_eq_singleton hlt, span_eq_singleton hltSecond,
        span_eq_singleton (Nat.lt_trans hlt hltSecond)]
      exact Entry.place_place_halves entries rfl (saturatingAdd_sub hfirst)
        (saturatingAdd_sub_sub hfirst hsecond) rfl rfl

/-- The same for what lies outside the legacy hole, wherever the cut is. -/
theorem foldl_place_outsideHole (entries : List Entry) {start middle limit : UInt64}
    (hfirst : start.toNat ≤ middle.toNat) (hsecond : middle.toNat ≤ limit.toNat) :
    ((span start (min middle holeStart) .ram ++ span (max start holeLimit) middle .ram) ++
        (span middle (min limit holeStart) .ram ++ span (max middle holeLimit) limit .ram)).foldl
          Entry.place entries =
      (span start (min limit holeStart) .ram ++ span (max start holeLimit) limit .ram).foldl
          Entry.place entries := by
  have hholes : holeStart.toNat < holeLimit.toNat := by decide
  -- the cut lies below the hole, inside it or above it; only one half crosses the hole
  rcases Nat.lt_or_ge holeStart.toNat middle.toNat with habove | hbelow
  · rw [min_of_toNat_ge (Nat.le_of_lt habove),
      min_of_toNat_ge (by omega : holeStart.toNat ≤ limit.toNat),
      span_eq_nil (Nat.le_of_lt habove), List.nil_append, List.append_assoc, List.foldl_append]
    rcases Nat.lt_or_ge holeLimit.toNat middle.toNat with hover | hinside
    · have hmax : (max start holeLimit).toNat ≤ middle.toNat := by
        rw [toNat_max]
        omega
      rw [max_of_toNat_ge (Nat.le_of_lt hover), foldl_place_span_append _ hmax hsecond,
        ← List.foldl_append]
    · rw [max_of_toNat_le (by omega : start.toNat ≤ holeLimit.toNat), max_of_toNat_le hinside,
        span_eq_nil hinside, List.nil_append, ← List.foldl_append]
  · have hmin : middle.toNat ≤ (min limit holeStart).toNat := by
      rw [toNat_min]
      omega
    rw [min_of_toNat_le hbelow, max_of_toNat_le (by omega : start.toNat ≤ holeLimit.toNat),
      max_of_toNat_le (by omega : middle.toNat ≤ holeLimit.toNat),
      span_eq_nil (by omega : middle.toNat ≤ holeLimit.toNat), List.append_nil,
      ← List.append_assoc, List.foldl_append, foldl_place_span_append entries hfirst hmin,
      ← List.foldl_append]

/-! ## Halves of a descriptor -/

/-- Two descriptors that follow each other and together stand for the pages of one, all
under the same kind. -/
structure SplitsInto (whole low high : Descriptor) : Prop where
  start_eq : low.physicalStart = whole.physicalStart
  cut_eq : high.physicalStart.toNat = whole.physicalStart.toNat + 4096 * low.pages.toNat
  pages_eq : low.pages.toNat + high.pages.toNat = whole.pages.toNat
  kind_low : kindOf? low = kindOf? whole
  kind_high : kindOf? high = kindOf? whole

namespace SplitsInto

variable {whole low high : Descriptor}

/-- The first half ends where the second one starts. -/
theorem limit_low (h : SplitsInto whole low high) : low.limit = high.physicalStart := by
  have hbound := high.physicalStart.toNat_lt
  apply UInt64.toNat_inj.1
  rw [low.toNat_limit, h.start_eq, h.cut_eq]
  have hcut := h.cut_eq
  omega

/-- The second half ends where the whole ends, also beyond the address space. -/
theorem limit_high (h : SplitsInto whole low high) : high.limit = whole.limit := by
  have hcut := h.cut_eq
  have hpages := h.pages_eq
  apply UInt64.toNat_inj.1
  rw [high.toNat_limit, whole.toNat_limit, hcut, ← hpages]
  omega

/-- Entering the parts of the halves is entering the parts of the whole.  For free
memory the cut may lie below, inside or above the legacy hole. -/
theorem foldl_place_parts (h : SplitsInto whole low high) (entries : List Entry) :
    (parts low ++ parts high).foldl Entry.place entries =
      (parts whole).foldl Entry.place entries := by
  have hfirst : whole.physicalStart.toNat ≤ high.physicalStart.toNat := by
    rw [h.cut_eq]
    omega
  have hsecond : high.physicalStart.toNat ≤ whole.limit.toNat := by
    rw [← h.limit_high]
    exact high.physicalStart_le_limit
  cases hkind : kindOf? whole with
  | none =>
      rw [parts_of_none hkind, parts_of_none (h.kind_low.trans hkind),
        parts_of_none (h.kind_high.trans hkind), List.append_nil]
  | some kind =>
      by_cases hram : kind = .ram
      · subst hram
        rw [parts_of_ram hkind, parts_of_ram (h.kind_low.trans hkind),
          parts_of_ram (h.kind_high.trans hkind), h.start_eq, h.limit_low, h.limit_high]
        exact foldl_place_outsideHole entries hfirst hsecond
      · rw [parts_of_ne_ram hkind hram, parts_of_ne_ram (h.kind_low.trans hkind) hram,
          parts_of_ne_ram (h.kind_high.trans hkind) hram, h.start_eq, h.limit_low, h.limit_high]
        exact foldl_place_span_append entries hfirst hsecond kind

/-- The same in the middle of other descriptors. -/
theorem foldl_place_flatMap_parts (h : SplitsInto whole low high)
    (front back : List Descriptor) :
    ((front ++ low :: high :: back).flatMap parts).foldl Entry.place [] =
      ((front ++ whole :: back).flatMap parts).foldl Entry.place [] := by
  have hhalves : (low :: high :: back).flatMap parts =
      (parts low ++ parts high) ++ back.flatMap parts := by
    rw [List.flatMap_cons, List.flatMap_cons, List.append_assoc]
  rw [List.flatMap_append, List.flatMap_append, List.foldl_append, List.foldl_append, hhalves,
    List.flatMap_cons, List.foldl_append, h.foldl_place_parts, ← List.foldl_append]

end SplitsInto

/-! ## Splits in the bytes of a map -/

/-- Whether bytes are one block of a map and hold a descriptor. -/
structure IsBlock (stride : Nat) (block : List UInt8) (descriptor : Descriptor) : Prop where
  length_eq : block.length = stride
  parse_eq : Descriptor.parse block = some descriptor

/-- One block of a map replaced by the blocks of two halves of its descriptor. -/
inductive SplitOnce (stride : Nat) : List UInt8 → List UInt8 → Prop
  | replace {front block lowBlock highBlock : List UInt8} {whole low high : Descriptor}
      (hfront : stride ∣ front.length) (hblock : IsBlock stride block whole)
      (hlow : IsBlock stride lowBlock low) (hhigh : IsBlock stride highBlock high)
      (hsplit : SplitsInto whole low high) (back : List UInt8) :
      SplitOnce stride (front ++ (block ++ back)) (front ++ (lowBlock ++ (highBlock ++ back)))

/-- A block in front of a map gives its descriptor in front of the others. -/
theorem IsBlock.wholeDescriptors_append {stride : Nat} {block : List UInt8}
    {descriptor : Descriptor} (h : IsBlock stride block descriptor)
    (hstride : Descriptor.width ≤ stride) (rest : List UInt8) :
    wholeDescriptors (block ++ rest) stride = descriptor :: wholeDescriptors rest stride := by
  rw [BootMemory.wholeDescriptors_append hstride (h.length_eq ▸ Nat.dvd_refl _),
    wholeDescriptors_of_parse h.length_eq h.parse_eq, List.singleton_append]

namespace LegacyMap

/-- A map that has a free slot shows all parts. -/
theorem ofDescriptors_of_length_lt {descriptors : List Descriptor}
    (h : ((descriptors.flatMap parts).foldl Entry.place []).length < capacity) :
    ofDescriptors descriptors =
      { entries := (descriptors.flatMap parts).foldl Entry.place [] } := by
  have hentries : (descriptors.flatMap parts).foldl Entry.place [] =
      (runs (descriptors.flatMap parts)).map Entry.ofRun :=
    foldl_place_eq_map_ofRun fun _ => solid_of_mem_flatMap_parts
  rw [hentries, List.length_map] at h
  rw [ofDescriptors_eq, shownRuns_of_length_lt h, flatten_runs, hentries,
    decide_eq_false (Nat.lt_irrefl _)]

theorem size_ofDescriptors (descriptors : List Descriptor) :
    (ofDescriptors descriptors).size =
      min ((descriptors.flatMap parts).foldl Entry.place []).length capacity := by
  rw [foldl_place_eq_map_ofRun fun _ => solid_of_mem_flatMap_parts, ofDescriptors_eq, size,
    List.length_map, List.length_map, length_shownRuns]

/-- Descriptors whose parts are entered alike give the same map, if it has a free
slot. -/
theorem ofDescriptors_congr {descriptors others : List Descriptor}
    (h : (others.flatMap parts).foldl Entry.place [] =
      (descriptors.flatMap parts).foldl Entry.place [])
    (hroom : (ofDescriptors descriptors).size < capacity) :
    ofDescriptors others = ofDescriptors descriptors := by
  rw [size_ofDescriptors] at hroom
  have hlength : ((descriptors.flatMap parts).foldl Entry.place []).length < capacity := by
    omega
  rw [ofDescriptors_of_length_lt hlength, ofDescriptors_of_length_lt (h ▸ hlength), h]

/-- One split does not change a converted map that has a free slot. -/
theorem ofMemoryMap_of_splitOnce {stride : UInt64} {before after : List UInt8} {map : LegacyMap}
    (hsplit : SplitOnce stride.toNat before after) (hmap : ofMemoryMap before stride = .ok map)
    (hroom : map.size < capacity) : ofMemoryMap after stride = .ok map := by
  have hstride : Descriptor.width ≤ stride.toNat := by
    apply Nat.le_of_not_lt
    intro hshort
    have herror := (ofMemoryMap_eq_error_iff before stride _).2 ⟨hshort, rfl⟩
    rw [hmap] at herror
    cases herror
  obtain ⟨hfront, hblock, hlow, hhigh, hhalves, back⟩ := hsplit
  rw [ofMemoryMap_of_width_le _ hstride, BootMemory.wholeDescriptors_append hstride hfront,
    hblock.wholeDescriptors_append hstride] at hmap
  rw [ofMemoryMap_of_width_le _ hstride, BootMemory.wholeDescriptors_append hstride hfront,
    hlow.wholeDescriptors_append hstride, hhigh.wholeDescriptors_append hstride]
  obtain rfl := Except.ok.inj hmap
  rw [ofDescriptors_congr (hhalves.foldl_place_flatMap_parts _ _) hroom]

/-- No chain of splits changes a converted map that has a free slot. -/
theorem ofMemoryMap_of_splits {stride : UInt64} {before after : List UInt8} {map : LegacyMap}
    (hsplits : Relation.ReflTransGen (SplitOnce stride.toNat) before after)
    (hmap : ofMemoryMap before stride = .ok map) (hroom : map.size < capacity) :
    ofMemoryMap after stride = .ok map := by
  induction hsplits with
  | refl => exact hmap
  | tail _ hstep ih => exact ofMemoryMap_of_splitOnce hstep ih hroom

/-- Free memory across the legacy hole, split below the hole and then inside it. -/
theorem ofMemoryMap_of_splits_across_hole :
    ofMemoryMap (ramBlock 0x90000 0x08 ++ (ramBlock 0x98000 0x28 ++ ramBlock 0xc0000 0xd0)) 40 =
      .ok { entries := [{ address := 0x90000, size := 0x10000, code := 1 },
        { address := 0x100000, size := 0x90000, code := 1 }] } := by
  have hbelow : SplitOnce 40 (ramBlock 0x90000 0x100)
      (ramBlock 0x90000 0x08 ++ ramBlock 0x98000 0xf8) :=
    @SplitOnce.replace 40 [] (ramBlock 0x90000 0x100) (ramBlock 0x90000 0x08)
      (ramBlock 0x98000 0xf8) _ _ _ (Nat.dvd_zero 40) ⟨rfl, rfl⟩ ⟨rfl, rfl⟩ ⟨rfl, rfl⟩
      ⟨rfl, rfl, rfl, rfl, rfl⟩ []
  have hinside : SplitOnce 40 (ramBlock 0x90000 0x08 ++ ramBlock 0x98000 0xf8)
      (ramBlock 0x90000 0x08 ++ (ramBlock 0x98000 0x28 ++ ramBlock 0xc0000 0xd0)) :=
    @SplitOnce.replace 40 (ramBlock 0x90000 0x08) (ramBlock 0x98000 0xf8)
      (ramBlock 0x98000 0x28) (ramBlock 0xc0000 0xd0) _ _ _ (Nat.dvd_refl 40) ⟨rfl, rfl⟩
      ⟨rfl, rfl⟩ ⟨rfl, rfl⟩ ⟨rfl, rfl, rfl, rfl, rfl⟩ []
  exact @ofMemoryMap_of_splits 40 _ _ _ ((Relation.ReflTransGen.single hbelow).tail hinside) rfl
    (by decide)

end LegacyMap

end BootMemory.E820
