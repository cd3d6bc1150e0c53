import BootMemory.Firmware.Descriptor

/-!
# Whole blocks of a memory map

Every descriptor of a memory map has its place: block number {lit}`i` starts
{lit}`i` strides into the buffer.  This module reads the descriptors by their place
and shows that reading the blocks one after the other finds the same ones.

Main results:

- Theorem {lit}`Descriptor.parse_eq_some_iff`: a block with enough bytes holds
  exactly the descriptor at its front.
- Definition {lit}`DescriptorStream.Reads`: what a reader gets from a stream, and what is left.
- Theorem {lit}`DescriptorStream.yields_wholeDescriptors`: a reader gets all whole blocks.
- Theorem {lit}`DescriptorStream.toList_eq_wholeDescriptors`: the stream reads all
  whole blocks, each at its place.
- Theorem {lit}`wholeDescriptors_append`: a map can be cut between two blocks.
-/

namespace BootMemory

/-! ## Reading by place -/

/-- The descriptor whose block starts at an offset. -/
def Descriptor.readAt (bytes : List UInt8) (offset : Nat) : Descriptor where
  typeCode := UInt32.ofNat (decodeLittle ((bytes.drop offset).take 4))
  physicalStart := wordAt bytes (offset + 8)
  virtualStart := wordAt bytes (offset + 16)
  pages := wordAt bytes (offset + 24)
  attributes := wordAt bytes (offset + 32)

/-- The descriptors of all whole blocks, each read at its place. -/
def wholeDescriptors (bytes : List UInt8) (stride : Nat) : List Descriptor :=
  (List.range (bytes.length / stride)).map fun block => Descriptor.readAt bytes (block * stride)

namespace Descriptor

theorem wordAt_take (bytes : List UInt8) {offset count : Nat} (h : offset + 8 ≤ count) :
    wordAt (bytes.take count) offset = wordAt bytes offset := by
  have hcut : ((bytes.take count).drop offset).take 8 = (bytes.drop offset).take 8 := by
    rw [List.drop_take, List.take_take, Nat.min_eq_left (by omega)]
  simp only [wordAt, hcut]

theorem readAt_drop (bytes : List UInt8) (skipped offset : Nat) :
    readAt (bytes.drop skipped) offset = readAt bytes (skipped + offset) := by
  simp only [readAt, wordAt, List.drop_drop, Nat.add_assoc]

/-- Bytes behind a block do not change the descriptor in it. -/
theorem readAt_take (bytes : List UInt8) {offset count : Nat} (h : offset + width ≤ count) :
    readAt (bytes.take count) offset = readAt bytes offset := by
  have htype : ((bytes.take count).drop offset).take 4 = (bytes.drop offset).take 4 := by
    rw [List.drop_take, List.take_take, Nat.min_eq_left (by simp only [width] at h; omega)]
  simp only [width] at h
  simp only [readAt, htype, wordAt_take bytes (show offset + 8 + 8 ≤ count by omega),
    wordAt_take bytes (show offset + 16 + 8 ≤ count by omega),
    wordAt_take bytes (show offset + 24 + 8 ≤ count by omega),
    wordAt_take bytes (show offset + 32 + 8 ≤ count by omega)]

/-- Parsing forty bytes or more reads the descriptor at their front. -/
theorem parse_of_width_le {bytes : List UInt8} (h : width ≤ bytes.length) :
    parse bytes = some (readAt bytes 0) := by
  have hlength : ¬ (bytes.take width).length < width := by
    rw [List.length_take]
    omega
  have hread : readAt bytes 0 = readAt (bytes.take width) 0 :=
    (readAt_take bytes (Nat.le_of_eq (Nat.zero_add _))).symm
  rw [hread]
  simp only [parse, if_neg hlength, readAt, Nat.zero_add, List.drop_zero]

/-- Parsing succeeds exactly on forty bytes or more, with the descriptor at their
front. -/
theorem parse_eq_some_iff (bytes : List UInt8) (descriptor : Descriptor) :
    parse bytes = some descriptor ↔ width ≤ bytes.length ∧ readAt bytes 0 = descriptor := by
  by_cases h : width ≤ bytes.length
  · simp [parse_of_width_le h, h]
  · have hshort : (bytes.take width).length < width := by
      rw [List.length_take]
      omega
    have hnone : parse bytes = none := if_pos hshort
    simp [hnone, h]

end Descriptor

/-! ## Reading one block after the other -/

theorem wholeDescriptors_of_length_lt {bytes : List UInt8} {stride : Nat}
    (h : bytes.length < stride) : wholeDescriptors bytes stride = [] := by
  simp [wholeDescriptors, Nat.div_eq_of_lt h]

/-- The first whole block stands in front of those one stride further on. -/
theorem wholeDescriptors_cons {bytes : List UInt8} {stride : Nat} (hpos : 0 < stride)
    (h : stride ≤ bytes.length) :
    wholeDescriptors bytes stride =
      Descriptor.readAt bytes 0 :: wholeDescriptors (bytes.drop stride) stride := by
  have hcount : bytes.length / stride = (bytes.drop stride).length / stride + 1 := by
    rw [List.length_drop, Nat.div_eq_sub_div hpos h]
  simp only [wholeDescriptors, hcount, List.range_succ_eq_map, List.map_cons, List.map_map,
    Nat.zero_mul, Descriptor.readAt_drop]
  congr 1
  apply List.map_congr_left
  intro block _
  simp only [Function.comp_apply, Nat.succ_eq_add_one, Nat.succ_mul, Nat.add_comm stride]

/-- A map can be cut between two blocks. -/
theorem wholeDescriptors_append {front : List UInt8} {stride : Nat}
    (hstride : Descriptor.width ≤ stride) (hfront : stride ∣ front.length) (rest : List UInt8) :
    wholeDescriptors (front ++ rest) stride =
      wholeDescriptors front stride ++ wholeDescriptors rest stride := by
  have hpos : 0 < stride := Nat.lt_of_lt_of_le (by decide) hstride
  obtain ⟨count, hcount⟩ := hfront
  induction count generalizing front with
  | zero =>
      have hnil : front = [] := List.length_eq_zero_iff.1 (by simpa using hcount)
      have hnone : wholeDescriptors [] stride = [] := wholeDescriptors_of_length_lt hpos
      rw [hnil, hnone, List.nil_append, List.nil_append]
  | succ count ih =>
      have hlong : stride ≤ front.length := by
        rw [hcount, Nat.mul_succ]
        omega
      have hdrop : (front ++ rest).drop stride = front.drop stride ++ rest :=
        List.drop_append_of_le_length hlong
      have hrest : (front.drop stride).length = stride * count := by
        rw [List.length_drop, hcount, Nat.mul_succ, Nat.add_sub_cancel]
      have hblock : (front ++ rest).take stride = front.take stride :=
        List.take_append_of_le_length hlong
      have hfits : 0 + Descriptor.width ≤ stride := (Nat.zero_add _).symm ▸ hstride
      have hhead : Descriptor.readAt (front ++ rest) 0 = Descriptor.readAt front 0 := by
        rw [← Descriptor.readAt_take (front ++ rest) hfits, hblock,
          Descriptor.readAt_take front hfits]
      rw [wholeDescriptors_cons hpos (by rw [List.length_append]; omega),
        wholeDescriptors_cons hpos hlong, hdrop, ih hrest, hhead, List.cons_append]

/-- A block of one stride holds the descriptor that is parsed from it. -/
theorem wholeDescriptors_of_parse {block : List UInt8} {stride : Nat} {descriptor : Descriptor}
    (hlength : block.length = stride) (hparse : Descriptor.parse block = some descriptor) :
    wholeDescriptors block stride = [descriptor] := by
  obtain ⟨hwidth, hread⟩ := (Descriptor.parse_eq_some_iff block descriptor).1 hparse
  have hpos : 0 < stride := Nat.lt_of_lt_of_le (by decide) (hlength ▸ hwidth)
  have hnone : wholeDescriptors (block.drop stride) stride = [] := by
    apply wholeDescriptors_of_length_lt
    rw [List.length_drop]
    omega
  rw [wholeDescriptors_cons hpos (Nat.le_of_eq hlength.symm), hnone, hread]

namespace DescriptorStream

/-- A whole block is read as the descriptor at the front, and the rest starts one
stride further on. -/
theorem next?_of_le {stream : DescriptorStream} (hstride : Descriptor.width ≤ stream.stride)
    (h : stream.stride ≤ stream.bytes.length) :
    stream.next? = some (Descriptor.readAt stream.bytes 0,
      { stream with bytes := stream.bytes.drop stream.stride }) := by
  have hlength : (stream.bytes.take stream.stride).length = stream.stride := by
    rw [List.length_take, Nat.min_eq_left h]
  have hparse : Descriptor.parse (stream.bytes.take stream.stride) =
      some (Descriptor.readAt stream.bytes 0) := by
    have hfits : 0 + Descriptor.width ≤ stream.stride := (Nat.zero_add _).symm ▸ hstride
    rw [Descriptor.parse_of_width_le (by rw [hlength]; exact hstride),
      Descriptor.readAt_take _ hfits]
  simp only [next?, hlength, Nat.lt_irrefl, if_false, hparse]

theorem next?_of_lt {stream : DescriptorStream} (h : stream.bytes.length < stream.stride) :
    stream.next? = none := by
  have hshort : (stream.bytes.take stream.stride).length < stream.stride := by
    rw [List.length_take]
    omega
  rw [next?, if_pos hshort]

/-- A call finds nothing if no whole block is left, and else takes one block off the stream. -/
theorem next?_cases {stream : DescriptorStream} (hstride : Descriptor.width ≤ stream.stride) :
    (stream.next? = none ∧ stream.remaining = 0 ∧
        wholeDescriptors stream.bytes stream.stride = []) ∨
      ∃ descriptor rest, stream.next? = some (descriptor, rest) ∧ rest.stride = stream.stride ∧
        stream.remaining = rest.remaining + 1 ∧
        wholeDescriptors stream.bytes stream.stride =
          descriptor :: wholeDescriptors rest.bytes stream.stride := by
  have hpos : 0 < stream.stride := Nat.lt_of_lt_of_le (by decide) hstride
  rcases Nat.lt_or_ge stream.bytes.length stream.stride with hshort | hlong
  · exact Or.inl ⟨next?_of_lt hshort, Nat.div_eq_of_lt hshort, wholeDescriptors_of_length_lt hshort⟩
  · refine Or.inr ⟨_, _, next?_of_le hstride hlong, rfl, ?_, wholeDescriptors_cons hpos hlong⟩
    rw [remaining, remaining, List.length_drop, Nat.div_eq_sub_div hpos hlong]

/-- The descriptors that a reader gets with some calls, and the stream after them. -/
inductive Reads : DescriptorStream → List Descriptor → DescriptorStream → Prop
  | nothing (stream : DescriptorStream) : Reads stream [] stream
  | block {stream next rest : DescriptorStream} {descriptor : Descriptor}
      {descriptors : List Descriptor} (hnext : stream.next? = some (descriptor, next))
      (hrest : Reads next descriptors rest) : Reads stream (descriptor :: descriptors) rest

/-- What a reader gets up to the first call without a descriptor. -/
def Yields (stream : DescriptorStream) (descriptors : List Descriptor) : Prop :=
  ∃ rest, stream.Reads descriptors rest ∧ rest.next? = none

/-- A reader gets all whole descriptors. -/
theorem yields_wholeDescriptors {stream : DescriptorStream}
    (hstride : Descriptor.width ≤ stream.stride) :
    stream.Yields (wholeDescriptors stream.bytes stream.stride) := by
  -- by induction on the number of whole blocks that are left
  generalize hcount : stream.remaining = count
  induction count generalizing stream with
  | zero =>
      rcases next?_cases hstride with ⟨hend, -, hnone⟩ | ⟨_, rest, -, -, hmore, -⟩
      · exact ⟨stream, hnone ▸ .nothing stream, hend⟩
      · omega
  | succ count ih =>
      rcases next?_cases hstride with ⟨-, hnone, -⟩ | ⟨_, rest, hnext, hsame, hmore, hblocks⟩
      · omega
      · obtain ⟨last, hreads, hend⟩ := ih (hsame.symm ▸ hstride) (by omega)
        rw [hsame] at hreads
        exact ⟨last, hblocks ▸ .block hnext hreads, hend⟩

/-- Draining a stream gives what a reader gets, if there is time for that many calls. -/
theorem Yields.drain_eq {stream : DescriptorStream} {descriptors : List Descriptor}
    (h : stream.Yields descriptors) {count : Nat} (hcount : descriptors.length ≤ count) :
    drain count stream [] = descriptors := by
  obtain ⟨rest, hreads, hend⟩ := h
  induction hreads generalizing count with
  | nothing =>
      cases count with
      | zero => rfl
      | succ count => simp only [drain, hend, List.reverse_nil]
  | block hnext _ ih =>
      cases count with
      | zero => cases hcount
      | succ count =>
          simp only [drain, hnext]
          rw [drain_eq_append, ih (Nat.le_of_succ_le_succ hcount) hend, List.reverse_singleton,
            List.singleton_append]

/-- Reading all blocks of a stream finds each whole descriptor at its place. -/
theorem toList_eq_wholeDescriptors {stream : DescriptorStream}
    (hstride : Descriptor.width ≤ stream.stride) :
    stream.toList = wholeDescriptors stream.bytes stream.stride := by
  have hlength : (wholeDescriptors stream.bytes stream.stride).length = stream.remaining := by
    rw [wholeDescriptors, List.length_map, List.length_range, remaining]
  exact (yields_wholeDescriptors hstride).drain_eq (Nat.le_of_eq hlength)

/-- So they are all that a reader gets. -/
theorem yields_toList {stream : DescriptorStream} (hstride : Descriptor.width ≤ stream.stride) :
    stream.Yields stream.toList := by
  rw [toList_eq_wholeDescriptors hstride]
  exact yields_wholeDescriptors hstride

end DescriptorStream

end BootMemory
