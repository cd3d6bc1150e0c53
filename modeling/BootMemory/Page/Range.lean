import BootMemory.Word.Saturating

/-!
# Pages and page ranges

Memory is granted in pages of 4096 bytes.  Byte counts round up to pages, and
page counts become bytes again without ever wrapping.

Main results:

- Theorem {lit}`toNat_bytesToPages`: byte counts round up exactly.
- Theorem {lit}`toNat_pagesToBytes`: page counts become bytes, cut at the
  largest word.
- Theorem {lit}`bytesToPages_le_iff`: the two conversions belong together, also where
  the second one is cut.
-/

namespace BootMemory

/-- Bytes in a page. -/
def pageSize : UInt64 := 4096

/-- How many pages hold that many bytes. -/
def bytesToPages (bytes : UInt64) : UInt64 :=
  if bytes % pageSize = 0 then bytes / pageSize else bytes / pageSize + 1

/-- How many bytes that many pages hold, at most the largest word. -/
def pagesToBytes (pages : UInt64) : UInt64 :=
  saturatingMul pages pageSize

/-- Pages that are requested as storage for some bytes: at least one. -/
def storagePages (bytes : UInt64) : UInt64 :=
  max 1 (bytesToPages bytes)

/-- A run of pages that starts at a physical address. -/
structure PageRange where
  base : UInt64
  pages : UInt64
deriving DecidableEq, Repr, Inhabited

/-! ## The conversions on natural numbers -/

/-- A byte count needs its quotient by the page size, rounded up. -/
theorem toNat_bytesToPages (bytes : UInt64) :
    (bytesToPages bytes).toNat = (bytes.toNat + 4095) / 4096 := by
  have hlt := bytes.toNat_lt
  have hsize : pageSize.toNat = 4096 := rfl
  have hzero : bytes % pageSize = 0 ↔ bytes.toNat % 4096 = 0 := by
    rw [← UInt64.toNat_inj, UInt64.toNat_mod, hsize]
    simp
  unfold bytesToPages
  split
  next h =>
    rw [hzero] at h
    rw [UInt64.toNat_div, hsize]
    omega
  next h =>
    rw [hzero] at h
    rw [UInt64.toNat_add, UInt64.toNat_div, hsize]
    simp
    omega

/-- A page count holds 4096 times as many bytes, cut at the largest word. -/
theorem toNat_pagesToBytes (pages : UInt64) :
    (pagesToBytes pages).toNat = min (4096 * pages.toNat) (0xffffffffffffffff) := by
  have hsize : pageSize.toNat = 4096 := rfl
  rw [pagesToBytes, toNat_saturatingMul, hsize, Nat.mul_comm]

/-- Some bytes need no more than some pages exactly if these pages hold them. -/
theorem bytesToPages_le_iff (bytes pages : UInt64) :
    bytesToPages bytes ≤ pages ↔ bytes ≤ pagesToBytes pages := by
  have hbytes := toNat_le_wordMax bytes
  rw [UInt64.le_iff_toNat_le, UInt64.le_iff_toNat_le, toNat_bytesToPages, toNat_pagesToBytes]
  omega

/-- No page count gives more bytes than its pages have. -/
theorem toNat_pagesToBytes_le (pages : UInt64) :
    (pagesToBytes pages).toNat ≤ 4096 * pages.toNat := by
  rw [toNat_pagesToBytes]
  exact Nat.min_le_left _ _

/-- As many pages are requested as the bytes need, and at least one. -/
theorem toNat_storagePages (bytes : UInt64) :
    (storagePages bytes).toNat = max 1 (bytesToPages bytes).toNat := by
  have hmax : storagePages bytes = if 1 ≤ bytesToPages bytes then bytesToPages bytes else 1 := rfl
  rw [hmax]
  split
  next h =>
    rw [UInt64.le_iff_toNat_le, UInt64.toNat_one] at h
    exact (Nat.max_eq_right h).symm
  next h =>
    rw [UInt64.le_iff_toNat_le, UInt64.toNat_one] at h
    exact (Nat.max_eq_left (Nat.le_of_not_le h)).symm

/-- The pages that are requested for some bytes hold them. -/
theorem le_pagesToBytes_storagePages (bytes : UInt64) :
    bytes ≤ pagesToBytes (storagePages bytes) := by
  rw [← bytesToPages_le_iff, UInt64.le_iff_toNat_le, toNat_storagePages]
  exact Nat.le_max_right _ _

/-- So many bytes lie in those pages. -/
theorem toNat_le_storagePages (bytes : UInt64) :
    bytes.toNat ≤ 4096 * (storagePages bytes).toNat := by
  have hfits := le_pagesToBytes_storagePages bytes
  rw [UInt64.le_iff_toNat_le] at hfits
  exact Nat.le_trans hfits (toNat_pagesToBytes_le _)

/-- For the largest byte count, the size of the pages is cut by one byte. -/
example : storagePages 0xffffffffffffffff = 0x10000000000000 ∧
    pagesToBytes 0x10000000000000 = 0xffffffffffffffff := by decide

end BootMemory
