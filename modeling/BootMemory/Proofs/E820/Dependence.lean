import BootMemory.Proofs.E820.Coverage

/-!
# What a conversion depends on

Of each whole block a conversion uses the kind that stands behind the type, the physical start
and the number of pages.  Two types of one kind, the padding, the virtual start, the attributes,
what fills a block up to the stride and the bytes behind the last whole block make no difference,
and neither does the stride: two maps that agree on what is used are converted alike.

Main results:

- Definition {lit}`SeenAlike`: what two descriptors have to agree on.
- Theorem {lit}`SeenAlike.pieces_eq`: descriptors that agree on it contribute the same.
- Theorem {lit}`LegacyMap.ofMemoryMap_seenAlike`: maps whose blocks agree on it are converted
  alike.
-/

namespace BootMemory.E820

/-- Whether two descriptors agree on all that a conversion uses. -/
structure SeenAlike (first second : Descriptor) : Prop where
  kind_eq : kindOf? first = kindOf? second
  start_eq : first.physicalStart = second.physicalStart
  pages_eq : first.pages = second.pages

instance SeenAlike.decidable (first second : Descriptor) : Decidable (SeenAlike first second) :=
  decidable_of_iff (kindOf? first = kindOf? second ∧
      first.physicalStart = second.physicalStart ∧ first.pages = second.pages)
    ⟨fun ⟨hkind, hstart, hpages⟩ => ⟨hkind, hstart, hpages⟩,
      fun ⟨hkind, hstart, hpages⟩ => ⟨hkind, hstart, hpages⟩⟩

namespace SeenAlike

variable {first second : Descriptor}

theorem limit_eq (h : SeenAlike first second) : first.limit = second.limit := by
  simp only [Descriptor.limit, Descriptor.size, h.start_eq, h.pages_eq]

/-- Descriptors that agree on what is used contribute the same. -/
theorem pieces_eq (h : SeenAlike first second) : pieces first = pieces second := by
  simp only [pieces, h.kind_eq, h.start_eq, h.limit_eq]

end SeenAlike

/-- The descriptors of two maps contribute the same if they agree block by block. -/
theorem flatMap_pieces_congr {bytes others : List UInt8} {stride otherStride : Nat}
    (hcount : bytes.length / stride = others.length / otherStride)
    (halike : ∀ block < bytes.length / stride,
      SeenAlike (Descriptor.readAt bytes (block * stride))
        (Descriptor.readAt others (block * otherStride))) :
    (wholeDescriptors bytes stride).flatMap pieces =
      (wholeDescriptors others otherStride).flatMap pieces := by
  simp only [wholeDescriptors, List.flatMap_map, ← hcount]
  apply List.flatMap_congr
  intro block hblock
  exact (halike block (List.mem_range.1 hblock)).pieces_eq

namespace LegacyMap

theorem ofDescriptors_congr_pieces {descriptors others : List Descriptor}
    (h : descriptors.flatMap pieces = others.flatMap pieces) :
    ofDescriptors descriptors = ofDescriptors others := by
  simp only [ofDescriptors, h]

/-- Two maps of the firmware, of any strides, with the same number of whole blocks, of which
every two at the same place agree on the kind, the physical start and the number of pages, are
converted to the same map. -/
theorem ofMemoryMap_seenAlike {bytes others : List UInt8} {stride otherStride : UInt64}
    (hstride : 40 ≤ stride.toNat) (hother : 40 ≤ otherStride.toNat)
    (hcount : bytes.length / stride.toNat = others.length / otherStride.toNat)
    (halike : ∀ block < bytes.length / stride.toNat,
      SeenAlike (Descriptor.readAt bytes (block * stride.toNat))
        (Descriptor.readAt others (block * otherStride.toNat))) :
    ∃ map, ofMemoryMap bytes stride = .ok map ∧ ofMemoryMap others otherStride = .ok map := by
  refine ⟨_, ofMemoryMap_of_width_le bytes hstride, ?_⟩
  rw [ofMemoryMap_of_width_le others hother,
    ofDescriptors_congr_pieces (flatMap_pieces_congr hcount halike)]

/-- Two descriptors of free memory, packed and with eight bytes more between them; the types, the
padding, the virtual starts, the attributes and the bytes behind the last block differ. -/
theorem ofMemoryMap_seenAlike_other_stride :
    let wide := Descriptor.encode [1, 2, 3, 4] [5, 6, 7, 8, 9, 10, 11, 12]
      { typeCode := MemoryType.loaderData.code, physicalStart := 0x90000, virtualStart := 0x7000
        pages := 0x100, attributes := 0xf } ++
      (Descriptor.encode [0xff, 0, 0xff, 0] [1, 1, 1, 1, 1, 1, 1, 1]
        { typeCode := MemoryType.bootServicesCode.code, physicalStart := 0x190000
          virtualStart := 0, pages := 2, attributes := 1 } ++ [1, 2, 3])
    let packed := ramBlock 0x90000 0x100 ++ ramBlock 0x190000 2
    (∀ block < packed.length / 40, SeenAlike (Descriptor.readAt packed (block * 40))
        (Descriptor.readAt wide (block * 48))) ∧
      ofMemoryMap wide 48 = .ok { entries :=
        [{ address := 0x90000, size := 0x10000, code := 1 },
          { address := 0x100000, size := 0x92000, code := 1 }] } := by
  intro wide packed
  have halike : ∀ block < packed.length / 40, SeenAlike (Descriptor.readAt packed (block * 40))
      (Descriptor.readAt wide (block * 48)) := by
    decide +kernel
  have hvalue : ofMemoryMap packed 40 = .ok { entries :=
      [{ address := 0x90000, size := 0x10000, code := 1 },
        { address := 0x100000, size := 0x92000, code := 1 }] } := by
    decide +kernel
  obtain ⟨map, hpacked, hwide⟩ := @ofMemoryMap_seenAlike packed wide 40 48 (by decide)
    (by decide) (by decide) halike
  obtain rfl := Except.ok.inj (hvalue.symm.trans hpacked)
  exact ⟨halike, hwide⟩

end LegacyMap

end BootMemory.E820
