import Sketchlog.Lib.Nearest

/-!
# Values, errors and constants of the Python sources

Python's `int` is `ℤ`. A `float` argument is `PyFloat`; a float that a sketch keeps or returns is
never `nan`, and is an extended rational `ERat` with `float('inf')` as `⊤` and `float('-inf')` as
`⊥`. Numbers are kept by value, as Python compares them: `5` and `5.0` are equal.

`IndexMapping` stands for the two floating-point functions of a sketch that are computed by libm,
`key` (`math.ceil(math.log(value) * multiplier)`) and `bucket_value`; both depend on the accuracy
`alpha` alone. Everything proved here holds for every such pair of functions; where monotonicity of
the logarithm matters it is the hypothesis `IndexMapping.Monotone`.
-/

namespace Sketchlog

/-- A Python exception: its class and its text. -/
inductive PyError where
  | valueError (msg : String)
  | overflowError (msg : String)
  | typeError (msg : String)
  | keyError (msg : String)
  | zeroDivisionError (msg : String)
  | runtimeError (msg : String)
  deriving DecidableEq, Repr

/-- The text an exception is interpolated as (`f"{e}"`). -/
def PyError.text : PyError → String
  | .valueError msg | .overflowError msg | .typeError msg | .keyError msg
  | .zeroDivisionError msg | .runtimeError msg => msg

/-- A `float` argument. -/
inductive PyFloat where
  | nan
  | inf (negative : Bool)
  | fin (x : Binary64)

/-- `math.isfinite`. -/
def PyFloat.isFinite : PyFloat → Bool
  | .fin _ => true
  | _ => false

/-- A float that is not `nan`. -/
abbrev ERat := WithBot (WithTop ℚ)

/-- `(1 << 63) - 1`. -/
def maxInt64 : ℕ := 2 ^ 63 - 1

/-- `(1 << 64) - 1`. -/
def maxUInt64 : ℕ := 2 ^ 64 - 1

/-- `0xFFFFFFFFFFFFFFFF`. -/
def mask64 : ℕ := 0xFFFFFFFFFFFFFFFF

/-- The ints that `float()` converts are those below this magnitude; it and larger ones round to an
infinity, and raise. -/
def floatLimit : ℕ := (2 ^ 54 - 1) * 2 ^ 970

/-- The literal `1e-6`, by the exact value of the double it denotes. -/
def oneMicro : ℚ := 4722366482869645 / 2 ^ 72

/-- `core/stats.py`: `EventKey = Union[str, bytes, int]`. -/
inductive EventKey where
  | str (s : String)
  | bytes (b : List UInt8)
  | int (n : ℤ)
  deriving DecidableEq

/-- What `HyperLogLog.add` accepts: a key, or any other object by its `str()`. -/
inductive UniqueItem where
  | key (k : EventKey)
  | other (shown : String)
  deriving DecidableEq

/-- `s.encode('utf-8')`. -/
def utf8 (s : String) : List UInt8 := s.toUTF8.data.toList

/-- The libm-computed functions of a sketch, by its `alpha`. -/
structure IndexMapping where
  key : ℚ → ℚ → ℤ
  bucketValue : ℚ → ℤ → ℚ

/-- `key` is monotone on positive values. -/
def IndexMapping.Monotone (M : IndexMapping) : Prop :=
  ∀ alpha v w, 0 < v → v ≤ w → M.key alpha v ≤ M.key alpha w

/-- `bucket_value` returns a float. -/
def IndexMapping.Floats (M : IndexMapping) : Prop := ∀ alpha i, IsBinary64 (M.bucketValue alpha i)

/-- The add-time accuracy check passes: `abs(rep - abs_v) / abs_v > alpha` is false. The difference and
the quotient are rounded to doubles; a quotient that overflows is over `alpha` either way. -/
def IndexMapping.Accurate (M : IndexMapping) (alpha absV : ℚ) : Prop :=
  Binary64.nearest (|Binary64.nearest (M.bucketValue alpha (M.key alpha absV) - absV)| / absV) ≤ alpha

instance (M : IndexMapping) (alpha absV : ℚ) : Decidable (M.Accurate alpha absV) :=
  inferInstanceAs (Decidable (_ ≤ _))

/-- The mapping of accuracy `1/2`, for which `gamma` is 3: `key` is the ceiling of the logarithm to
base 3 and `bucket_value(i)` is `(2 / (1 + 3)) * 3 ** i`. -/
def IndexMapping.ternary : IndexMapping where
  key _ v := Int.clog 3 v
  bucketValue _ i := 1 / 2 * 3 ^ i

/-- A mapping to powers of two, which are doubles: `key` is the ceiling of the logarithm to base 2,
within the exponents of the normal range. -/
def IndexMapping.binary : IndexMapping where
  key _ v := max (-900) (min (Int.clog 2 v) 900)
  bucketValue _ i := 2 ^ max (-900) (min i 900)

theorem IndexMapping.binary_monotone : IndexMapping.binary.Monotone := fun _ _ _ hv hvw =>
  max_le_max le_rfl (min_le_min (Int.clog_mono_right hv hvw) le_rfl)

theorem IndexMapping.binary_floats : IndexMapping.binary.Floats := fun _ i =>
  ⟨1, max (-900) (min i 900), by norm_num, by omega, by omega, by
    rw [Int.cast_one, one_mul]
    rfl⟩

theorem IndexMapping.ternary_monotone : IndexMapping.ternary.Monotone :=
  fun _ _ _ hv hvw => Int.clog_mono_right hv hvw

end Sketchlog
