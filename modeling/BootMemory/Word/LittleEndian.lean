/-!
# Little-endian numbers

Tables of the firmware and of the kernel hold numbers as bytes, the least
significant byte first.

Main results:

- Theorem {lit}`decodeLittle_encodeLittle`: a number that fits its width is read
  back.
- Theorem {lit}`encodeLittle_decodeLittle`: bytes are the only encoding of the
  number that they hold.
-/

namespace BootMemory

/-- The lowest bytes of a number, least significant first. -/
def encodeLittle : (width : Nat) → (value : Nat) → List UInt8
  | 0, _ => []
  | width + 1, value => UInt8.ofNat value :: encodeLittle width (value / 256)

/-- The number that bytes hold, least significant first. -/
def decodeLittle : List UInt8 → Nat
  | [] => 0
  | byte :: rest => byte.toNat + 256 * decodeLittle rest

/-- An encoding is as long as its width. -/
@[simp] theorem length_encodeLittle (width value : Nat) :
    (encodeLittle width value).length = width := by
  induction width generalizing value with
  | zero => rfl
  | succ width ih => simp [encodeLittle, ih]

/-- Bytes hold a number below the matching power of 256. -/
theorem decodeLittle_lt (bytes : List UInt8) : decodeLittle bytes < Nat.pow 256 bytes.length := by
  induction bytes with
  | nil => exact Nat.one_pos
  | cons byte rest ih =>
      have hbyte := byte.toNat_lt
      have hpower : Nat.pow 256 (rest.length + 1) = Nat.pow 256 rest.length * 256 := rfl
      rw [decodeLittle, List.length_cons, hpower]
      omega

/-- A number that fits its width is read back. -/
theorem decodeLittle_encodeLittle {width value : Nat} (h : value < Nat.pow 256 width) :
    decodeLittle (encodeLittle width value) = value := by
  induction width generalizing value with
  | zero => exact (Nat.lt_one_iff.1 h).symm
  | succ width ih =>
      have hpower : Nat.pow 256 (width + 1) = Nat.pow 256 width * 256 := rfl
      rw [hpower] at h
      have hrest : value / 256 < Nat.pow 256 width := Nat.div_lt_of_lt_mul (by omega)
      simp only [encodeLittle, decodeLittle, ih hrest, UInt8.toNat_ofNat']
      omega

/-- Bytes are the only encoding of the number that they hold. -/
theorem encodeLittle_decodeLittle (bytes : List UInt8) :
    encodeLittle bytes.length (decodeLittle bytes) = bytes := by
  induction bytes with
  | nil => rfl
  | cons byte rest ih =>
      have hbyte := byte.toNat_lt
      have hhead : UInt8.ofNat (byte.toNat + 256 * decodeLittle rest) = byte := by
        rw [← UInt8.toNat_inj, UInt8.toNat_ofNat']
        omega
      have htail : (byte.toNat + 256 * decodeLittle rest) / 256 = decodeLittle rest := by
        omega
      simp only [List.length_cons, encodeLittle, decodeLittle, hhead, htail, ih]

end BootMemory
