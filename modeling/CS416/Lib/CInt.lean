import Mathlib

/-!
# C integer conversions

The machine integers of the three programs are `Int`s; a conversion to a
narrower or an unsigned type is written out where it can change the value.
Each conversion is the identity on the values its type can hold.
-/

namespace CInt

/-- Conversion to a 16-bit `short`. -/
def toShort (x : Int) : Int := Int.bmod x 65536

/-- Conversion to a 32-bit `int`. -/
def toInt (x : Int) : Int := Int.bmod x 4294967296

/-- Conversion to a 64-bit signed integer (`long`, `off_t`). -/
def toInt64 (x : Int) : Int := Int.bmod x 18446744073709551616

/-- Conversion to a 64-bit unsigned integer (`size_t`, `uint64_t`). -/
def toU64 (x : Int) : Int := x % 18446744073709551616

/-- A number that a `short` can hold. -/
theorem toShort_of_range {x : Int} (h₀ : -32768 ≤ x) (h₁ : x < 32768) :
    toShort x = x :=
  Int.bmod_eq_of_le (by simpa using h₀) (by simpa using h₁)

/-- A number that an `int` can hold. -/
theorem toInt_of_range {x : Int} (h₀ : -2147483648 ≤ x) (h₁ : x < 2147483648) :
    toInt x = x :=
  Int.bmod_eq_of_le (by simpa using h₀) (by simpa using h₁)

/-- A number that a signed 64-bit type can hold. -/
theorem toInt64_of_range {x : Int} (h₀ : -9223372036854775808 ≤ x)
    (h₁ : x < 9223372036854775808) : toInt64 x = x :=
  Int.bmod_eq_of_le (by simpa using h₀) (by simpa using h₁)

/-- A number that an unsigned 64-bit type can hold. -/
theorem toU64_of_range {x : Int} (h₀ : 0 ≤ x) (h₁ : x < 18446744073709551616) :
    toU64 x = x :=
  Int.emod_eq_of_lt h₀ h₁

theorem toU64_nonneg (x : Int) : 0 ≤ toU64 x :=
  Int.emod_nonneg x (by decide)

theorem toShort_range (x : Int) : -32768 ≤ toShort x ∧ toShort x < 32768 := by
  have hlo := Int.le_bmod (x := x) (m := 65536) (by decide)
  have hhi := Int.bmod_lt (x := x) (m := 65536) (by decide)
  unfold toShort
  omega

theorem toInt_range (x : Int) : -2147483648 ≤ toInt x ∧ toInt x < 2147483648 := by
  have hlo := Int.le_bmod (x := x) (m := 4294967296) (by decide)
  have hhi := Int.bmod_lt (x := x) (m := 4294967296) (by decide)
  unfold toInt
  omega

theorem toInt64_range (x : Int) :
    -9223372036854775808 ≤ toInt64 x ∧ toInt64 x < 9223372036854775808 := by
  have hlo := Int.le_bmod (x := x) (m := 18446744073709551616) (by decide)
  have hhi := Int.bmod_lt (x := x) (m := 18446744073709551616) (by decide)
  unfold toInt64
  omega

/-- A 64-bit field reads the same signed and unsigned where it is small. -/
theorem toInt64_eq_toU64 {x : Int} (h : toU64 x < 9223372036854775808) :
    toInt64 x = toU64 x := by
  have h₀ := toU64_nonneg x
  unfold toU64 at h h₀ ⊢
  rw [toInt64, Int.bmod_def, if_pos (by omega)]
  rfl

/-- A small number that has been stored in an unsigned 64-bit field. -/
theorem toInt64_toU64 {x : Int} (h₀ : -2147483648 ≤ x) (h₁ : x < 2147483648) :
    toInt64 (toU64 x) = x := by
  rw [toInt64, toU64, Int.bmod_def]
  split <;> omega

/-- An `int` goes through an unsigned 64-bit field unchanged. -/
theorem toInt_toU64 {x : Int} (h₀ : -2147483648 ≤ x) (h₁ : x < 2147483648) :
    toInt (toU64 x) = x := by
  rw [toInt, toU64, Int.bmod_def]
  split <;> omega

end CInt
