/-!
# Saturating arithmetic on 64-bit words

Sizes and addresses come from firmware and may be absurd, so sums and products
stop at the largest word and differences stop at zero.  No operation here wraps.

Main results:

- Theorems {lit}`toNat_saturatingAdd`, {lit}`toNat_saturatingSub` and
  {lit}`toNat_saturatingMul`: each operation is the exact one on natural
  numbers, clamped to the range of a word.
-/

namespace BootMemory

/-- The largest 64-bit word. -/
def wordMax : UInt64 := 0xffffffffffffffff

/-- The sum of two words, or the largest word when the sum does not fit. -/
def saturatingAdd (a b : UInt64) : UInt64 :=
  if wordMax - a < b then wordMax else a + b

/-- The difference of two words, or zero when the second one is larger. -/
def saturatingSub (a b : UInt64) : UInt64 :=
  if a < b then 0 else a - b

/-- The product of two words, or the largest word when the product does not fit. -/
def saturatingMul (a b : UInt64) : UInt64 :=
  if b ≠ 0 ∧ wordMax / b < a then wordMax else a * b

/-! ## The operations on natural numbers -/

/-- The largest word is one less than the number of words. -/
@[simp] theorem toNat_wordMax : wordMax.toNat = 0xffffffffffffffff := rfl

/-- No word exceeds the largest one. -/
theorem toNat_le_wordMax (a : UInt64) : a.toNat ≤ 0xffffffffffffffff := by
  have h := a.toNat_lt
  omega

/-- A saturating sum is the exact sum cut at the largest word. -/
theorem toNat_saturatingAdd (a b : UInt64) :
    (saturatingAdd a b).toNat = min (a.toNat + b.toNat) (0xffffffffffffffff) := by
  have ha := a.toNat_lt
  have hb := b.toNat_lt
  have hle : a ≤ wordMax := UInt64.le_iff_toNat_le.2 (by rw [toNat_wordMax]; omega)
  have hsub : (wordMax - a).toNat = 0xffffffffffffffff - a.toNat := by
    rw [UInt64.toNat_sub_of_le _ _ hle, toNat_wordMax]
  unfold saturatingAdd
  split
  next h =>
    rw [UInt64.lt_iff_toNat_lt, hsub] at h
    rw [toNat_wordMax]
    omega
  next h =>
    rw [UInt64.lt_iff_toNat_lt, hsub] at h
    rw [UInt64.toNat_add]
    omega

/-- A saturating sum is no smaller than its first part. -/
theorem le_saturatingAdd (a b : UInt64) : a ≤ saturatingAdd a b := by
  have hbound := toNat_le_wordMax a
  rw [UInt64.le_iff_toNat_le, toNat_saturatingAdd]
  omega

/-- Sums of three words stop at the largest word, however they are grouped. -/
theorem saturatingAdd_assoc (a b c : UInt64) :
    saturatingAdd (saturatingAdd a b) c = saturatingAdd a (saturatingAdd b c) := by
  apply UInt64.toNat_inj.1
  rw [toNat_saturatingAdd, toNat_saturatingAdd, toNat_saturatingAdd, toNat_saturatingAdd]
  omega

/-- A saturating difference is the truncated difference of natural numbers. -/
theorem toNat_saturatingSub (a b : UInt64) :
    (saturatingSub a b).toNat = a.toNat - b.toNat := by
  unfold saturatingSub
  split
  next h =>
    rw [UInt64.lt_iff_toNat_lt] at h
    simp
    omega
  next h =>
    have hle : b ≤ a := by
      rw [UInt64.lt_iff_toNat_lt] at h
      rw [UInt64.le_iff_toNat_le]
      omega
    exact UInt64.toNat_sub_of_le _ _ hle

/-- A saturating product is the exact product cut at the largest word. -/
theorem toNat_saturatingMul (a b : UInt64) :
    (saturatingMul a b).toNat = min (a.toNat * b.toNat) (0xffffffffffffffff) := by
  by_cases hb : b.toNat = 0
  · have hzero : b = 0 := UInt64.toNat_inj.1 (by simpa using hb)
    subst hzero
    simp [saturatingMul]
  · have hne : b ≠ 0 := by
      intro h
      exact hb (by simp [h])
    have hpos : 0 < b.toNat := Nat.pos_of_ne_zero hb
    unfold saturatingMul
    split
    next h =>
      have hlt := h.2
      rw [UInt64.lt_iff_toNat_lt, UInt64.toNat_div, toNat_wordMax,
        Nat.div_lt_iff_lt_mul hpos] at hlt
      rw [toNat_wordMax]
      omega
    next h =>
      have hle : ¬ wordMax / b < a := fun hlt => h ⟨hne, hlt⟩
      rw [UInt64.lt_iff_toNat_lt, UInt64.toNat_div, toNat_wordMax,
        Nat.div_lt_iff_lt_mul hpos] at hle
      rw [UInt64.toNat_mul, Nat.mod_eq_of_lt (by omega)]
      omega

end BootMemory
