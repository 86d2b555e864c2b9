import Sketchlog.Python.Basic

/-!
# Machine integers of the C++ sources

An `int64_t` or `size_t` object is an integer, and an arithmetic expression of that type is reduced
modulo `2^64` where it is evaluated: `i64` to the signed range, `u64` to the unsigned one. Hashes,
which are made of bit operations, are `UInt64`. A `double` that is kept in a sketch is finite
(`Binary64`).

Exceptions are what the Python caller sees: `std::invalid_argument` is raised as a `ValueError`,
`std::overflow_error` as an `OverflowError`, and an argument no overload accepts as a `TypeError`.
-/

namespace Sketchlog.Cpp

/-- The value of a `uint64_t` or `size_t` expression. -/
def u64 (x : ℤ) : ℤ := x % 2 ^ 64

/-- The value of an `int64_t` expression. -/
def i64 (x : ℤ) : ℤ := x.bmod (2 ^ 64)

theorem u64_eq {x : ℤ} (h0 : 0 ≤ x) (h : x ≤ maxUInt64) : u64 x = x := by
  unfold maxUInt64 at h
  exact Int.emod_eq_of_lt h0 (by omega)

theorem i64_eq {x : ℤ} (h0 : 0 ≤ x) (h : x ≤ maxInt64) : i64 x = x := by
  unfold maxInt64 at h
  exact Int.bmod_eq_of_le (by omega) (by omega)

/-- `0.0`. -/
def zero : Binary64 := .ofInt 0 Binary64.abs_zero_lt

@[simp] theorem zero_val : zero.val = 0 := rfl

end Sketchlog.Cpp
