import BootMemory.Proofs.E820.Coverage

/-!
# Entries that stay

What a map has captured stays captured.  Only its last entry can still grow, and it grows at
its end; every other entry keeps its place and its value, whatever is entered later.  So the
map of the first descriptors can be read off the map of all descriptors, up to the size of
the entry that was the last one at the time.

Main results:

- Definition {lit}`Extends`: what some entries can become.
- Theorem {lit}`Extends.place`: placing a region extends the entries.
- Theorem {lit}`LegacyMap.extends_addRegions`: so does entering regions, refused or not.
- Theorem {lit}`LegacyMap.ofDescriptors_append`: a conversion goes on where it stopped, unless
  it was cut short.
- Theorem {lit}`LegacyMap.extends_ofMemoryMap_append`: how the map of some bytes appears in the
  map of more bytes.
-/

namespace BootMemory.E820

/-- Whether an entry is another one with more bytes, or none, at its end. -/
structure Entry.GrowsInto (entry grown : Entry) : Prop where
  address_eq : grown.address = entry.address
  code_eq : grown.code = entry.code
  size_le : entry.size ≤ grown.size

/-- What some entries can become: the last one may grow, and entries may follow. -/
inductive Extends : List Entry → List Entry → Prop
  /-- Where there was no entry, any may follow. -/
  | nil (added : List Entry) : Extends [] added
  /-- The last entry grows. -/
  | last {entry grown : Entry} (hgrows : entry.GrowsInto grown) (added : List Entry) :
      Extends [entry] (grown :: added)
  /-- An entry before the last one stays as it is. -/
  | cons (entry : Entry) {next : Entry} {rest after : List Entry}
      (hrest : Extends (next :: rest) after) : Extends (entry :: next :: rest) (entry :: after)

/-! ## Entries that grow -/

namespace Entry.GrowsInto

theorem refl (entry : Entry) : entry.GrowsInto entry where
  address_eq := rfl
  code_eq := rfl
  size_le := UInt64.le_refl entry.size

theorem trans {first second third : Entry} (hfirst : first.GrowsInto second)
    (hsecond : second.GrowsInto third) : first.GrowsInto third where
  address_eq := hsecond.address_eq.trans hfirst.address_eq
  code_eq := hsecond.code_eq.trans hfirst.code_eq
  size_le := UInt64.le_trans hfirst.size_le hsecond.size_le

theorem grow (entry : Entry) (size : UInt64) : entry.GrowsInto (entry.grow size) where
  address_eq := by rw [Entry.grow]
  code_eq := by rw [Entry.grow]
  size_le := by
    simp only [Entry.grow]
    exact le_saturatingAdd entry.size size

end Entry.GrowsInto

namespace Extends

variable {before middle after : List Entry}

theorem refl (entries : List Entry) : Extends entries entries := by
  induction entries with
  | nil => exact .nil []
  | cons entry rest ih =>
      cases rest with
      | nil => exact .last (.refl entry) []
      | cons next rest => exact .cons entry ih

theorem trans (hfirst : Extends before middle) (hsecond : Extends middle after) :
    Extends before after := by
  induction hfirst generalizing after with
  | nil => exact .nil after
  | last hgrows added =>
      -- the entry that was the last one may have entries behind it by now
      cases hsecond with
      | last hlater added => exact .last (hgrows.trans hlater) added
      | cons _ _ => exact .last hgrows _
  | cons entry hrest ih =>
      cases hsecond with
      | last _ _ => cases hrest
      | cons _ hlater => exact .cons entry (ih hlater)

theorem append (entries added : List Entry) : Extends entries (entries ++ added) := by
  induction entries with
  | nil => exact .nil added
  | cons entry rest ih =>
      cases rest with
      | nil => exact .last (.refl entry) added
      | cons next rest => exact .cons entry ih

/-- The last entry may grow behind any others. -/
theorem append_last (front : List Entry) {last grown : Entry} (hgrows : last.GrowsInto grown) :
    Extends (front ++ [last]) (front ++ [grown]) := by
  induction front with
  | nil => exact .last hgrows []
  | cons entry rest ih =>
      cases rest with
      | nil => exact .cons entry ih
      | cons next rest => exact .cons entry ih

/-- Placing a region extends the entries. -/
theorem place (entries : List Entry) (region : Region) :
    Extends entries (Entry.place entries region) := by
  rcases List.eq_nil_or_concat entries with rfl | ⟨front, last, rfl⟩
  · exact .nil _
  · rw [List.concat_eq_append, Entry.place_concat]
    split
    next => exact append_last front (.grow last region.size)
    next => exact append (front ++ [last]) _

theorem length_le (h : Extends before after) : before.length ≤ after.length := by
  induction h with
  | nil => simp
  | last => simp
  | cons => simpa

/-- Every entry is found again at its place, and unchanged if it was not the last one. -/
theorem exists_getElem? (h : Extends before after) :
    ∀ index (hindex : index < before.length), ∃ grown, after[index]? = some grown ∧
      before[index].GrowsInto grown ∧ (index + 1 < before.length → grown = before[index]) := by
  induction h with
  | nil => simp
  | @last entry grown hgrows added =>
      intro index hindex
      obtain rfl : index = 0 := by simpa using hindex
      exact ⟨grown, rfl, hgrows, by simp⟩
  | cons entry hrest ih =>
      intro index hindex
      cases index with
      | zero => exact ⟨entry, rfl, .refl entry, fun _ => rfl⟩
      | succ index => simpa using ih index (by simpa using hindex)

end Extends

/-- A region needs at most one slot more. -/
theorem Entry.length_place_le (entries : List Entry) (region : Region) :
    (place entries region).length ≤ entries.length + 1 := by
  rcases List.eq_nil_or_concat entries with rfl | ⟨front, last, rfl⟩
  · simp [place_nil]
  · rw [List.concat_eq_append, place_concat]
    split <;> simp

namespace LegacyMap

/-! ## Entering regions -/

/-- One region, refused or not, extends the entries and leaves the mark of truncation. -/
theorem extends_addRegion {map grown : LegacyMap} {region : Region}
    (h : map.addRegion region = .ok grown) :
    Extends map.entries grown.entries ∧ grown.truncated = map.truncated ∧
      grown.size ≤ map.size + 1 := by
  rcases addRegion_eq_ok h with ⟨-, rfl⟩ | ⟨-, -, rfl⟩
  · exact ⟨.refl grown.entries, rfl, Nat.le_succ grown.size⟩
  · exact ⟨.place map.entries region, rfl, Entry.length_place_le map.entries region⟩

/-- Regions extend the entries by at most one entry each, also when one of them is refused. -/
theorem extends_addRegions (map : LegacyMap) (regions : List Region) :
    Extends map.entries (map.addRegions regions).1.entries ∧
      (map.addRegions regions).1.truncated = map.truncated ∧
      (map.addRegions regions).1.size ≤ map.size + regions.length := by
  induction regions generalizing map with
  | nil => exact ⟨.refl map.entries, rfl, Nat.le_refl map.size⟩
  | cons region rest ih =>
      rw [addRegions]
      cases hgrown : map.addRegion region with
      | error cause => exact ⟨.refl map.entries, rfl, Nat.le_add_right map.size _⟩
      | ok grown =>
          obtain ⟨hentries, htruncated, hsize⟩ := extends_addRegion hgrown
          obtain ⟨hlater, htruncatedLater, hsizeLater⟩ := ih grown
          refine ⟨hentries.trans hlater, htruncatedLater.trans htruncated, ?_⟩
          simp only [List.length_cons]
          omega

/-! ## Converting more -/

/-- Some more descriptors are entered into the map of the first ones, unless that was cut
short. -/
theorem ofDescriptors_append (front back : List Descriptor) :
    ofDescriptors (front ++ back) =
      if (ofDescriptors front).truncated then ofDescriptors front
      else
        match (ofDescriptors front).addRegions (back.flatMap pieces) with
        | (map, .ok _) => map
        | (map, .error _) => { map with truncated := true } := by
  have hflag := (extends_addRegions empty (front.flatMap pieces)).2.1
  rcases hfront : empty.addRegions (front.flatMap pieces) with ⟨map, cause | taken⟩
  · simp [ofDescriptors, addRegions_append, hfront]
  · rw [hfront] at hflag
    have htruncated : map.truncated = false := hflag
    simp only [ofDescriptors, List.flatMap_append, addRegions_append, hfront, htruncated]
    rfl

/-- The map of the first descriptors is extended by more of them, if it was not cut short. -/
theorem extends_ofDescriptors_append {front : List Descriptor} (back : List Descriptor)
    (hwhole : (ofDescriptors front).truncated = false) :
    Extends (ofDescriptors front).entries (ofDescriptors (front ++ back)).entries := by
  have hentered := (extends_addRegions (ofDescriptors front) (back.flatMap pieces)).1
  rw [ofDescriptors_append, hwhole]
  simp only [Bool.false_eq_true, if_false]
  split
  next heq => simpa [heq] using hentered
  next heq => simpa [heq] using hentered

/-- Reading more of the firmware's map behind some whole descriptors.  A map that was cut short
stays what it is.  Any other map keeps all its entries but the last one, and that one keeps its
place, address and kind and loses no byte. -/
theorem extends_ofMemoryMap_append {stride : UInt64} (hstride : 40 ≤ stride.toNat)
    {front : List UInt8} (hfront : stride.toNat ∣ front.length) (rest : List UInt8) :
    ∃ first all, ofMemoryMap front stride = .ok first ∧
      ofMemoryMap (front ++ rest) stride = .ok all ∧
      (first.truncated = true → all = first) ∧
      (first.truncated = false →
        first.entries.length ≤ all.entries.length ∧
        ∀ index (h : index < first.entries.length), ∃ grown, all.entries[index]? = some grown ∧
          grown.address = first.entries[index].address ∧
          grown.code = first.entries[index].code ∧ first.entries[index].size ≤ grown.size ∧
          (index + 1 < first.entries.length → grown = first.entries[index])) := by
  refine ⟨_, _, ofMemoryMap_of_width_le front hstride, ofMemoryMap_of_width_le _ hstride, ?_⟩
  rw [wholeDescriptors_append hstride hfront]
  constructor
  · intro hcut
    rw [ofDescriptors_append, hcut]
    rfl
  · intro hwhole
    have hextends := extends_ofDescriptors_append (wholeDescriptors rest stride.toNat) hwhole
    refine ⟨hextends.length_le, ?_⟩
    intro index h
    obtain ⟨grown, hfound, hgrows, hkept⟩ := hextends.exists_getElem? index h
    exact ⟨grown, hfound, hgrows.address_eq, hgrows.code_eq, hgrows.size_le, hkept⟩

/-- One page far below, then free memory that the next descriptor continues: the first entry
stays, and the second one may only have grown. -/
theorem extends_ofMemoryMap_append_last_grows :
    let front := ramBlock 0x1000 1 ++ ramBlock 0x100000 0x10
    40 ∣ front.length ∧ ∃ all, ofMemoryMap (front ++ ramBlock 0x110000 0x10) 40 = .ok all ∧
      all.entries[0]? = some { address := 0x1000, size := 0x1000, code := 1 } ∧
      ∃ grown, all.entries[1]? = some grown ∧ grown.address = 0x100000 ∧ 0x10000 ≤ grown.size := by
  intro front
  have hvalue : ofMemoryMap front 40 = .ok { entries :=
      [{ address := 0x1000, size := 0x1000, code := 1 },
        { address := 0x100000, size := 0x10000, code := 1 }] } := by
    decide +kernel
  obtain ⟨first, all, hfirst, hall, -, hextends⟩ :=
    @extends_ofMemoryMap_append 40 (by decide) front (by decide) (ramBlock 0x110000 0x10)
  obtain rfl := Except.ok.inj (hvalue.symm.trans hfirst)
  obtain ⟨-, hentries⟩ := hextends rfl
  obtain ⟨kept, hkept, -, -, -, hsame⟩ := hentries 0 (by decide)
  obtain ⟨grown, hgrown, haddress, -, hsize, -⟩ := hentries 1 (by decide)
  rw [hsame (by decide)] at hkept
  exact ⟨by decide, all, hall, hkept, grown, hgrown, haddress, hsize⟩

end LegacyMap

end BootMemory.E820
