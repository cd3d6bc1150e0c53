/-!
# Exact arithmetic on words

Plain sums and differences of words wrap around.  Those of this module are taken of
the numbers that the words stand for, and there is no result when the exact one is
not a word.  What they give is therefore what plain arithmetic gives without wrapping.

Main results:

- Theorems {lit}`exactAdd?_eq_some_iff` and {lit}`exactSub?_eq_some_iff`: a result is
  the word of the exact number.
- Theorems {lit}`exactAdd?_of_lt` and {lit}`exactSub?_of_le`: when there is a result,
  plain arithmetic gives it.
-/

namespace BootMemory

/-- The word for a number, if there is one. -/
def wordOf? (number : Int) : Option UInt64 :=
  if 0 ≤ number ∧ number < UInt64.size then some (UInt64.ofNat number.toNat) else none

/-- The signed word for a number, if there is one. -/
def signedWordOf? (number : Int) : Option Int32 :=
  if Int32.minValue.toInt ≤ number ∧ number ≤ Int32.maxValue.toInt then some (Int32.ofInt number)
  else none

/-- The sum of two words, if it is a word. -/
def exactAdd? (a b : UInt64) : Option UInt64 := wordOf? (a.toNat + b.toNat)

/-- The difference of two words, if it is a word. -/
def exactSub? (a b : UInt64) : Option UInt64 := wordOf? (a.toNat - b.toNat)

/-- The next signed word, if there is one. -/
def exactSucc? (a : Int32) : Option Int32 := signedWordOf? (a.toInt + 1)

/-! ## Results are exact -/

/-- A number has a word exactly if the word stands for it. -/
theorem wordOf?_eq_some_iff {number : Int} {word : UInt64} :
    wordOf? number = some word ↔ (word.toNat : Int) = number := by
  have hword : word.toNat < UInt64.size := word.toNat_lt
  unfold wordOf?
  split
  next h =>
    have hnat : (UInt64.ofNat number.toNat).toNat = number.toNat :=
      UInt64.toNat_ofNat_of_lt' (by omega)
    rw [Option.some.injEq, ← UInt64.toNat_inj, hnat]
    omega
  next h =>
    simp only [reduceCtorEq, false_iff]
    omega

theorem signedWordOf?_eq_some_iff {number : Int} {word : Int32} :
    signedWordOf? number = some word ↔ word.toInt = number := by
  have hlow : Int32.minValue.toInt ≤ word.toInt := word.minValue_le_toInt
  have hhigh : word.toInt ≤ Int32.maxValue.toInt := word.toInt_le
  unfold signedWordOf?
  split
  next h =>
    have hint : (Int32.ofInt number).toInt = number :=
      Int32.toInt_ofInt_of_le h.1 (Int.lt_add_one_of_le h.2)
    rw [Option.some.injEq, ← Int32.toInt_inj, hint]
    exact eq_comm
  next h =>
    simp only [reduceCtorEq, false_iff]
    rintro rfl
    exact h ⟨hlow, hhigh⟩

theorem exactAdd?_eq_some_iff {a b sum : UInt64} :
    exactAdd? a b = some sum ↔ sum.toNat = a.toNat + b.toNat := by
  rw [exactAdd?, wordOf?_eq_some_iff]
  omega

theorem exactSub?_eq_some_iff {a b difference : UInt64} :
    exactSub? a b = some difference ↔ b.toNat + difference.toNat = a.toNat := by
  rw [exactSub?, wordOf?_eq_some_iff]
  omega

/-- Below zero there is no word. -/
example : exactSub? 0xa0000 0xfffffffffffff000 = none := by decide

theorem exactSucc?_eq_some_iff {a next : Int32} :
    exactSucc? a = some next ↔ next.toInt = a.toInt + 1 :=
  signedWordOf?_eq_some_iff

/-! ## Plain arithmetic gives the results -/

/-- A sum that is a word is the plain sum. -/
theorem exactAdd?_of_lt {a b : UInt64} (h : a.toNat + b.toNat < UInt64.size) :
    exactAdd? a b = some (a + b) := by
  rw [exactAdd?_eq_some_iff, UInt64.toNat_add, Nat.mod_eq_of_lt h]

/-- A difference that is a word is the plain difference. -/
theorem exactSub?_of_le {a b : UInt64} (h : b ≤ a) : exactSub? a b = some (a - b) := by
  have hle := UInt64.le_iff_toNat_le.1 h
  rw [exactSub?_eq_some_iff, UInt64.toNat_sub_of_le _ _ h]
  omega

end BootMemory
