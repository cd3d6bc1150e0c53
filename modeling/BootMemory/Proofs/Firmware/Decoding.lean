import BootMemory.Proofs.Firmware.WholeBlocks

/-!
# Decoding what was encoded

A memory map that is written block by block is read back descriptor by descriptor, whatever
stands in the padding, behind the attributes and in a last block that is not whole.  The number
that a stream reports counts the descriptors that it still has to give, since a whole block
always holds one.

Main results:

- Definition {lit}`Block`: a descriptor with any padding and filler that make up a stride.
- Theorem {lit}`Descriptor.parse_encode`: the descriptor of an encoded block is parsed again.
- Theorem {lit}`wholeDescriptors_flatMap_bytes`: so are those of many blocks.
- Theorem {lit}`DescriptorStream.Reads.length_add_remaining`: the reported number goes down by
  one with each descriptor.
- Theorem {lit}`DescriptorStream.yields_encoded`: decoding undoes encoding, and every stream
  gives as many descriptors as it reports.
-/

namespace BootMemory

/-! ## One block -/

namespace Descriptor

/-- A word behind some bytes is found in what follows them. -/
theorem wordAt_append {front : List UInt8} {offset : Nat} (h : front.length ≤ offset)
    (back : List UInt8) : wordAt (front ++ back) offset = wordAt back (offset - front.length) := by
  rw [wordAt, wordAt, List.drop_append, List.drop_of_length_le h, List.nil_append]

/-- A word is read back where it was written. -/
theorem wordAt_encodeLittle_append (value : UInt64) (back : List UInt8) :
    wordAt (encodeLittle 8 value.toNat ++ back) 0 = value := by
  have hvalue : value.toNat < Nat.pow 256 8 := value.toNat_lt
  rw [wordAt, List.drop_zero, List.take_left' (length_encodeLittle 8 value.toNat),
    decodeLittle_encodeLittle hvalue, UInt64.ofNat_toNat]

/-- An encoded block holds its descriptor at its front. -/
theorem readAt_encode {padding : List UInt8} (hpadding : padding.length = 4)
    (filler : List UInt8) (descriptor : Descriptor) :
    readAt (encode padding filler descriptor) 0 = descriptor := by
  have hcode : descriptor.typeCode.toNat < Nat.pow 256 4 := descriptor.typeCode.toNat_lt
  have htype : ((encode padding filler descriptor).drop 0).take 4 =
      encodeLittle 4 descriptor.typeCode.toNat := by
    simp [encode]
  rw [readAt, htype, decodeLittle_encodeLittle hcode, UInt32.ofNat_toNat]
  -- each word stands behind the fields before it, whose widths add up to its offset
  simp [encode, wordAt_append, wordAt_encodeLittle_append, hpadding]

/-- The descriptor of an encoded block is parsed again. -/
theorem parse_encode {padding : List UInt8} (hpadding : padding.length = 4)
    (filler : List UInt8) (descriptor : Descriptor) :
    parse (encode padding filler descriptor) = some descriptor := by
  rw [parse_eq_some_iff, length_encode descriptor hpadding]
  exact ⟨Nat.le_add_right width filler.length, readAt_encode hpadding filler descriptor⟩

end Descriptor

/-! ## Many blocks -/

/-- A block of one stride: a descriptor, its padding, and what stands behind its attributes. -/
structure Block (stride : Nat) where
  descriptor : Descriptor
  padding : List UInt8
  filler : List UInt8
  length_padding : padding.length = 4
  width_add_length_filler : Descriptor.width + filler.length = stride

/-- The bytes of a block. -/
def Block.bytes {stride : Nat} (block : Block stride) : List UInt8 :=
  Descriptor.encode block.padding block.filler block.descriptor

@[simp] theorem Block.length_bytes {stride : Nat} (block : Block stride) :
    block.bytes.length = stride := by
  rw [bytes, Descriptor.length_encode _ block.length_padding, block.width_add_length_filler]

/-- The whole descriptors of a map are those that its blocks were made of. -/
theorem wholeDescriptors_flatMap_bytes {stride : Nat} (hstride : Descriptor.width ≤ stride)
    (blocks : List (Block stride)) {tail : List UInt8} (htail : tail.length < stride) :
    wholeDescriptors (blocks.flatMap Block.bytes ++ tail) stride =
      blocks.map Block.descriptor := by
  induction blocks with
  | nil => exact wholeDescriptors_of_length_lt htail
  | cons block rest ih =>
      have hparse : Descriptor.parse block.bytes = some block.descriptor :=
        Descriptor.parse_encode block.length_padding block.filler block.descriptor
      have hfront : stride ∣ block.bytes.length := ⟨1, by rw [block.length_bytes, Nat.mul_one]⟩
      rw [List.flatMap_cons, List.append_assoc, wholeDescriptors_append hstride hfront, ih,
        wholeDescriptors_of_parse block.length_bytes hparse, List.map_cons, List.singleton_append]

/-! ## What a reader gets -/

namespace DescriptorStream

variable {stream rest : DescriptorStream} {descriptors others : List Descriptor}

/-- A call finds no descriptor just when the stream reports none. -/
theorem next?_eq_none_iff (hstride : Descriptor.width ≤ stream.stride) :
    stream.next? = none ↔ stream.remaining = 0 := by
  rcases next?_cases hstride with ⟨hend, hnone, -⟩ | ⟨_, _, hnext, -, hmore, -⟩
  · exact iff_of_true hend hnone
  · exact iff_of_false (by simp [hnext]) (by omega)

/-- A call that gets a descriptor takes one block off the stream. -/
theorem remaining_of_next? {descriptor : Descriptor} (hstride : Descriptor.width ≤ stream.stride)
    (h : stream.next? = some (descriptor, rest)) :
    rest.stride = stream.stride ∧ stream.remaining = rest.remaining + 1 := by
  rcases next?_cases hstride with ⟨hend, -, -⟩ | ⟨_, _, hnext, hsame, hmore, -⟩
  · cases hend.symm.trans h
  · cases hnext.symm.trans h
    exact ⟨hsame, hmore⟩

/-- The reported number goes down by one with each descriptor. -/
theorem Reads.length_add_remaining (h : stream.Reads descriptors rest)
    (hstride : Descriptor.width ≤ stream.stride) :
    rest.stride = stream.stride ∧ descriptors.length + rest.remaining = stream.remaining := by
  induction h with
  | nothing => exact ⟨rfl, Nat.zero_add _⟩
  | block hnext _ ih =>
      obtain ⟨hsame, hcount⟩ := remaining_of_next? hstride hnext
      obtain ⟨hrest, hlength⟩ := ih (hsame.symm ▸ hstride)
      refine ⟨hrest.trans hsame, ?_⟩
      rw [List.length_cons, hcount, ← hlength]
      omega

/-- A stream gives as many descriptors as it reports. -/
theorem Yields.length_eq (h : stream.Yields descriptors)
    (hstride : Descriptor.width ≤ stream.stride) : descriptors.length = stream.remaining := by
  obtain ⟨rest, hreads, hend⟩ := h
  obtain ⟨hsame, hlength⟩ := hreads.length_add_remaining hstride
  rw [next?_eq_none_iff (hsame.symm ▸ hstride)] at hend
  rw [← hlength, hend, Nat.add_zero]

/-- Two readers of one stream get the same. -/
theorem Yields.unique (h : stream.Yields descriptors) (hother : stream.Yields others) :
    descriptors = others := by
  have hdrained := h.drain_eq (Nat.le_max_left descriptors.length others.length)
  rw [← hdrained, hother.drain_eq (Nat.le_max_right descriptors.length others.length)]

/-- Blocks of one stride, with any padding and filler, and a tail that is no whole block: a
reader gets exactly the descriptors of the blocks.  And whatever bytes are read, the number that
the stream reports is at first that of the whole blocks, goes down by one with each descriptor,
and is always the number of descriptors that are still to come. -/
theorem yields_encoded {stride : UInt64} (hstride : 40 ≤ stride.toNat) :
    (∀ (blocks : List (Block stride.toNat)) (tail : List UInt8), tail.length < stride.toNat →
      ∃ stream, ofBytes? (blocks.flatMap Block.bytes ++ tail) stride = some stream ∧
        ∀ descriptors, stream.Yields descriptors ↔ descriptors = blocks.map Block.descriptor) ∧
      ∀ bytes, ∃ stream, ofBytes? bytes stride = some stream ∧
        stream.remaining = bytes.length / stride.toNat ∧
        ∀ read rest, stream.Reads read rest →
          read.length + rest.remaining = bytes.length / stride.toNat ∧
          (rest.next? = none ↔ rest.remaining = 0) ∧
          rest.Yields rest.toList ∧
          ∀ descriptors, rest.Yields descriptors → descriptors.length = rest.remaining := by
  have haccepted : ∀ bytes, ofBytes? bytes stride = some { bytes, stride := stride.toNat } :=
    fun _ => if_neg (Nat.not_lt.2 hstride)
  constructor
  · intro blocks tail htail
    refine ⟨_, haccepted _, ?_⟩
    have hyields : ({ bytes := blocks.flatMap Block.bytes ++ tail, stride := stride.toNat } :
        DescriptorStream).Yields _ := yields_wholeDescriptors hstride
    rw [wholeDescriptors_flatMap_bytes hstride blocks htail] at hyields
    intro descriptors
    constructor
    · exact fun h => h.unique hyields
    · rintro rfl
      exact hyields
  · intro bytes
    refine ⟨_, haccepted bytes, rfl, ?_⟩
    intro read rest hreads
    obtain ⟨hsame, hlength⟩ := hreads.length_add_remaining hstride
    have hrest : Descriptor.width ≤ rest.stride := hsame.symm ▸ hstride
    exact ⟨hlength, next?_eq_none_iff hrest, yields_toList hrest,
      fun descriptors h => h.length_eq hrest⟩

/-- Two blocks of 48 bytes with garbage in the padding and the filler, and a tail that lacks one
byte. -/
theorem yields_encoded_wide_stride :
    let low : Descriptor :=
      { typeCode := 0x80000001, physicalStart := 0xffffffffffffffff, virtualStart := 1
        pages := 0xfedcba9876543210, attributes := 0xf }
    let high : Descriptor :=
      { typeCode := 7, physicalStart := 0x100000, virtualStart := 0, pages := 0, attributes := 2 }
    let block (descriptor : Descriptor) : List UInt8 :=
      Descriptor.encode [1, 2, 3, 4] [0xff, 6, 7, 8, 9, 10, 11, 12] descriptor
    40 ≤ (48 : UInt64).toNat ∧ (List.replicate 47 (0xa5 : UInt8)).length < (48 : UInt64).toNat ∧
      ∃ stream, ofBytes? (block low ++ (block high ++ .replicate 47 0xa5)) 48 = some stream ∧
        stream.Yields [low, high] := by
  intro low high block
  let written (descriptor : Descriptor) : Block 48 :=
    { descriptor, padding := [1, 2, 3, 4], filler := [0xff, 6, 7, 8, 9, 10, 11, 12]
      length_padding := rfl, width_add_length_filler := rfl }
  obtain ⟨stream, hstream, hyields⟩ := (@yields_encoded 48 (by decide)).1
    [written low, written high] (.replicate 47 0xa5) (by decide)
  exact ⟨by decide, by decide, stream, hstream, (hyields _).2 rfl⟩

end DescriptorStream

end BootMemory
