import Mathlib.Algebra.Ring.Nat
import BootMemory.E820.Conversion

/-!
# What a descriptor contributes

A descriptor stands for the addresses from its physical start up to its limit.  The
legacy map gets them under the kind of the descriptor, except that free memory
leaves out the legacy hole.  This module says so without a case split: free memory
is what lies below the hole and what lies above it, and parts without bytes are left
out.

Main results:

- Theorem {lit}`filter_pieces`: the pieces of a descriptor that have a size are
  exactly its parts.
- Theorem {lit}`solid_of_mem_parts`: every part has bytes and ends within the
  address space.
- Theorem {lit}`exists_mem_parts_iff`: the parts hold exactly the addresses that the
  descriptor offers.
-/

namespace BootMemory

/-- The limit of a descriptor is the exact end of its pages, cut at the largest
word. -/
theorem Descriptor.toNat_limit (descriptor : Descriptor) :
    descriptor.limit.toNat =
      min (descriptor.physicalStart.toNat + 4096 * descriptor.pages.toNat) (2 ^ 64 - 1) := by
  rw [limit, toNat_saturatingAdd, size, toNat_pagesToBytes]
  omega

/-- No descriptor ends before it starts. -/
theorem Descriptor.physicalStart_le_limit (descriptor : Descriptor) :
    descriptor.physicalStart.toNat ≤ descriptor.limit.toNat := by
  have hstart := toNat_le_wordMax descriptor.physicalStart
  rw [toNat_limit]
  omega

/-- Whether an address lies in the range of a descriptor. -/
def Descriptor.Holds (descriptor : Descriptor) (address : Nat) : Prop :=
  descriptor.physicalStart.toNat ≤ address ∧ address < descriptor.limit.toNat

instance Descriptor.Holds.decidable (descriptor : Descriptor) (address : Nat) :
    Decidable (descriptor.Holds address) :=
  inferInstanceAs (Decidable (_ ∧ _))

namespace E820

/-! ## Regions on exact numbers -/

namespace Region

/-- The first number after a region, which need not be a word. -/
def stop (region : Region) : Nat := region.start.toNat + region.size.toNat

/-- Whether an address lies in a region. -/
def Holds (region : Region) (address : Nat) : Prop :=
  region.start.toNat ≤ address ∧ address < region.stop

/-- A region that has bytes and whose end is an address. -/
structure Solid (region : Region) : Prop where
  size_pos : 0 < region.size.toNat
  stop_lt : region.stop < 2 ^ 64

theorem Solid.size_ne_zero {region : Region} (h : region.Solid) : region.size ≠ 0 := by
  intro hzero
  have hpos := h.size_pos
  simp [hzero] at hpos

end Region

/-- Whether an address lies in the legacy hole. -/
def InHole (address : Nat) : Prop := holeStart.toNat ≤ address ∧ address < holeLimit.toNat

theorem min_of_toNat_le {a b : UInt64} (h : a.toNat ≤ b.toNat) : min a b = a :=
  if_pos (UInt64.le_iff_toNat_le.2 h)

theorem min_of_toNat_ge {a b : UInt64} (h : b.toNat ≤ a.toNat) : min a b = b := by
  by_cases heq : a.toNat = b.toNat
  · obtain rfl := UInt64.toNat_inj.1 heq
    exact min_of_toNat_le h
  · exact if_neg fun hle => heq (Nat.le_antisymm (UInt64.le_iff_toNat_le.1 hle) h)

theorem max_of_toNat_ge {a b : UInt64} (h : b.toNat ≤ a.toNat) : max a b = a := by
  by_cases heq : a.toNat = b.toNat
  · obtain rfl := UInt64.toNat_inj.1 heq
    exact if_pos (UInt64.le_iff_toNat_le.2 h)
  · exact if_neg fun hle => heq (Nat.le_antisymm (UInt64.le_iff_toNat_le.1 hle) h)

theorem max_of_toNat_le {a b : UInt64} (h : a.toNat ≤ b.toNat) : max a b = b :=
  if_pos (UInt64.le_iff_toNat_le.2 h)

theorem toNat_min (a b : UInt64) : (min a b).toNat = min a.toNat b.toNat := by
  rcases Nat.le_total a.toNat b.toNat with h | h
  · rw [min_of_toNat_le h, Nat.min_eq_left h]
  · rw [min_of_toNat_ge h, Nat.min_eq_right h]

theorem toNat_max (a b : UInt64) : (max a b).toNat = max a.toNat b.toNat := by
  rcases Nat.le_total a.toNat b.toNat with h | h
  · rw [max_of_toNat_le h, Nat.max_eq_right h]
  · rw [max_of_toNat_ge h, Nat.max_eq_left h]

/-! ## Spans -/

/-- The region between two addresses, if there is anything between them. -/
def span (start limit : UInt64) (kind : Kind) : List Region :=
  if start < limit then [{ start, size := limit - start, kind }] else []

theorem span_eq_nil {start limit : UInt64} (h : limit.toNat ≤ start.toNat) (kind : Kind) :
    span start limit kind = [] := by
  have hnot : ¬ start < limit := by
    rw [UInt64.lt_iff_toNat_lt]
    omega
  rw [span, if_neg hnot]

theorem span_eq_singleton {start limit : UInt64} (h : start.toNat < limit.toNat) (kind : Kind) :
    span start limit kind = [{ start, size := limit - start, kind }] :=
  if_pos (UInt64.lt_iff_toNat_lt.2 h)

theorem toNat_sub_of_toNat_le {start limit : UInt64} (h : start.toNat ≤ limit.toNat) :
    (limit - start).toNat = limit.toNat - start.toNat :=
  UInt64.toNat_sub_of_le _ _ (UInt64.le_iff_toNat_le.2 h)

/-- The region of a span ends at the limit of the span. -/
theorem stop_of_mem_span {start limit : UInt64} {kind : Kind} {region : Region}
    (h : region ∈ span start limit kind) :
    region.start = start ∧ region.kind = kind ∧ start.toNat < limit.toNat ∧
      region.stop = limit.toNat := by
  unfold span at h
  split at h
  next hlt =>
    rw [UInt64.lt_iff_toNat_lt] at hlt
    have hsize := toNat_sub_of_toNat_le (Nat.le_of_lt hlt)
    obtain rfl := List.mem_singleton.1 h
    refine ⟨rfl, rfl, hlt, ?_⟩
    simp only [Region.stop, hsize]
    omega
  next => cases h

theorem solid_of_mem_span {start limit : UInt64} {kind : Kind} {region : Region}
    (h : region ∈ span start limit kind) : region.Solid := by
  obtain ⟨hstart, _, hlt, hstop⟩ := stop_of_mem_span h
  have hlimit := limit.toNat_lt
  rw [Region.stop, hstart] at hstop
  exact ⟨by omega, by rw [Region.stop, hstart]; omega⟩

/-- A span holds the addresses from its start up to its limit, under its kind. -/
theorem exists_mem_span_iff (start limit : UInt64) (kind wanted : Kind) (address : Nat) :
    (∃ region ∈ span start limit kind, region.kind = wanted ∧ region.Holds address) ↔
      kind = wanted ∧ start.toNat ≤ address ∧ address < limit.toNat := by
  constructor
  · rintro ⟨region, hmem, hkind, hholds⟩
    obtain ⟨hstart, hkindOf, _, hstop⟩ := stop_of_mem_span hmem
    rw [Region.Holds, hstart, hstop] at hholds
    exact ⟨hkindOf.symm.trans hkind, hholds⟩
  · rintro ⟨hkind, hfrom, hto⟩
    have hmem : ({ start, size := limit - start, kind } : Region) ∈ span start limit kind := by
      rw [span_eq_singleton (by omega)]
      exact List.mem_singleton_self _
    obtain ⟨_, _, _, hstop⟩ := stop_of_mem_span hmem
    exact ⟨_, hmem, hkind, hfrom, by rw [hstop]; exact hto⟩

/-! ## The parts of a descriptor -/

/-- What a descriptor contributes, without empty parts: its whole range, or for free
memory what lies below and what lies above the legacy hole. -/
def parts (descriptor : Descriptor) : List Region :=
  let start := descriptor.physicalStart
  let limit := descriptor.limit
  match kindOf? descriptor with
  | none => []
  | some .ram => span start (min limit holeStart) .ram ++ span (max start holeLimit) limit .ram
  | some kind => span start limit kind

/-- The addresses that a descriptor gives to the legacy map under some kind. -/
def Offers (descriptor : Descriptor) (kind : Kind) (address : Nat) : Prop :=
  kindOf? descriptor = some kind ∧
    (descriptor.physicalStart.toNat ≤ address ∧ address < descriptor.limit.toNat) ∧
    (kind = .ram → ¬ InHole address)

theorem parts_of_none {descriptor : Descriptor} (h : kindOf? descriptor = none) :
    parts descriptor = [] := by
  simp only [parts, h]

/-- Free memory contributes what lies below and what lies above the legacy hole. -/
theorem parts_of_ram {descriptor : Descriptor} (h : kindOf? descriptor = some .ram) :
    parts descriptor =
      span descriptor.physicalStart (min descriptor.limit holeStart) .ram ++
        span (max descriptor.physicalStart holeLimit) descriptor.limit .ram := by
  simp only [parts, h]

/-- Memory of any other kind contributes its whole range. -/
theorem parts_of_ne_ram {descriptor : Descriptor} {kind : Kind}
    (h : kindOf? descriptor = some kind) (hkind : kind ≠ .ram) :
    parts descriptor = span descriptor.physicalStart descriptor.limit kind := by
  cases kind with
  | ram => exact (hkind rfl).elim
  | reserved => simp only [parts, h]
  | acpi => simp only [parts, h]
  | nvs => simp only [parts, h]

/-- A region with its exact bytes between two addresses is a span, unless it is empty. -/
theorem filter_singleton_eq_span {start limit : UInt64} (h : start.toNat ≤ limit.toNat)
    (kind : Kind) :
    [({ start, size := limit - start, kind } : Region)].filter (fun region => region.size ≠ 0) =
      span start limit kind := by
  have hsize := toNat_sub_of_toNat_le h
  rcases Nat.eq_or_lt_of_le h with heq | hlt
  · have hzero : limit - start = 0 := UInt64.toNat_inj.1 (by rw [hsize]; simp [heq])
    rw [span_eq_nil (Nat.le_of_eq heq.symm)]
    simp [hzero]
  · have hne : limit - start ≠ 0 := by
      intro hzero
      rw [hzero] at hsize
      simp only [UInt64.toNat_zero] at hsize
      omega
    rw [span_eq_singleton hlt]
    simp [hne]

theorem filter_span (start limit : UInt64) (kind : Kind) :
    (span start limit kind).filter (fun region => region.size ≠ 0) = span start limit kind := by
  apply List.filter_eq_self.2
  intro region hmem
  exact decide_eq_true (solid_of_mem_span hmem).size_ne_zero

theorem lowPiece_eq_span (start : UInt64) : lowPiece start = span start holeStart .ram := rfl

theorem highPiece_eq_span (limit : UInt64) : highPiece limit = span holeLimit limit .ram := rfl

/-- The pieces of a descriptor that have a size are exactly its parts. -/
theorem filter_pieces (descriptor : Descriptor) :
    (pieces descriptor).filter (fun region => region.size ≠ 0) = parts descriptor := by
  have hle := descriptor.physicalStart_le_limit
  cases hkind : kindOf? descriptor with
  | none => simp [pieces, hkind, parts_of_none hkind]
  | some kind =>
      simp only [pieces, hkind]
      by_cases hram : kind = .ram
      · subst hram
        have hholes : holeStart.toNat < holeLimit.toNat := by decide
        simp only [UInt64.le_iff_toNat_le, ne_eq, not_true_eq_false, false_or]
        rw [parts_of_ram hkind]
        -- the range ends below the hole, starts above it, or reaches into it
        by_cases hbelow : descriptor.limit.toNat ≤ holeStart.toNat
        · rw [if_pos (Or.inl hbelow), min_of_toNat_le hbelow, max_of_toNat_le (by omega),
            span_eq_nil (Nat.le_of_lt (Nat.lt_of_le_of_lt hbelow hholes)), List.append_nil]
          exact filter_singleton_eq_span hle .ram
        · by_cases habove : holeLimit.toNat ≤ descriptor.physicalStart.toNat
          · rw [if_pos (Or.inr habove), min_of_toNat_ge (by omega), max_of_toNat_ge habove,
              span_eq_nil (Nat.le_of_lt (Nat.lt_of_lt_of_le hholes habove)), List.nil_append]
            exact filter_singleton_eq_span hle .ram
          · have hcut : ¬ (descriptor.limit.toNat ≤ holeStart.toNat ∨
                holeLimit.toNat ≤ descriptor.physicalStart.toNat) := by omega
            rw [if_neg hcut, min_of_toNat_ge (by omega), max_of_toNat_le (by omega),
              lowPiece_eq_span, highPiece_eq_span, List.filter_append, filter_span, filter_span]
      · rw [if_pos (Or.inl hram), parts_of_ne_ram hkind hram]
        exact filter_singleton_eq_span hle kind

/-- Every part has bytes and ends within the address space. -/
theorem solid_of_mem_parts {descriptor : Descriptor} {region : Region}
    (h : region ∈ parts descriptor) : region.Solid := by
  cases hkind : kindOf? descriptor with
  | none => simp [parts_of_none hkind] at h
  | some kind =>
      by_cases hram : kind = .ram
      · rw [parts_of_ram (hram ▸ hkind), List.mem_append] at h
        rcases h with hlow | hhigh
        · exact solid_of_mem_span hlow
        · exact solid_of_mem_span hhigh
      · rw [parts_of_ne_ram hkind hram] at h
        exact solid_of_mem_span h

/-- The parts of a descriptor hold exactly the addresses that it offers. -/
theorem exists_mem_parts_iff (descriptor : Descriptor) (kind : Kind) (address : Nat) :
    (∃ region ∈ parts descriptor, region.kind = kind ∧ region.Holds address) ↔
      Offers descriptor kind address := by
  cases hkind : kindOf? descriptor with
  | none => simp [parts_of_none hkind, Offers, hkind]
  | some found =>
      by_cases hram : found = .ram
      · subst hram
        have hholes : holeStart.toNat < holeLimit.toNat := by decide
        rw [parts_of_ram hkind]
        simp only [List.mem_append, or_and_right, exists_or, exists_mem_span_iff, toNat_min,
          toNat_max, Offers, hkind, InHole, Option.some.injEq]
        constructor
        · rintro (⟨rfl, hfrom, hto⟩ | ⟨rfl, hfrom, hto⟩)
          · exact ⟨rfl, by omega, fun _ => by omega⟩
          · exact ⟨rfl, by omega, fun _ => by omega⟩
        · rintro ⟨rfl, hrange, houtside⟩
          have hout := houtside rfl
          rcases Nat.lt_or_ge address holeStart.toNat with hlow | hhigh
          · exact Or.inl ⟨rfl, by omega, by omega⟩
          · exact Or.inr ⟨rfl, by omega, by omega⟩
      · rw [parts_of_ne_ram hkind hram, exists_mem_span_iff]
        simp only [Offers, hkind, Option.some.injEq]
        constructor
        · rintro ⟨rfl, hrange⟩
          exact ⟨rfl, hrange, fun h => (hram h).elim⟩
        · rintro ⟨rfl, hrange, _⟩
          exact ⟨rfl, hrange⟩

/-- What a part holds, its descriptor holds under the same kind. -/
theorem holds_of_mem_parts {descriptor : Descriptor} {region : Region} {address : Nat}
    (h : region ∈ parts descriptor) (hholds : region.Holds address) :
    kindOf? descriptor = some region.kind ∧ descriptor.Holds address := by
  obtain ⟨hkind, hrange, -⟩ := (exists_mem_parts_iff descriptor region.kind address).1
    ⟨region, h, rfl, hholds⟩
  exact ⟨hkind, hrange⟩

end E820

end BootMemory
