/-!
# Hexadecimal text

Addresses and unknown status codes are shown in base sixteen: lower-case digits,
no leading zeros, after the mark {lit}`0x`.
-/

namespace BootMemory

/-- A word in base sixteen, such as {lit}`0x7fffffff`; zero is {lit}`0x0`. -/
def hexText (value : UInt64) : String :=
  "0x" ++ String.ofList (Nat.toDigits 16 value.toNat)

end BootMemory
