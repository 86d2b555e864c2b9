import Sketchlog.Lib.Nearest
import Sketchlog.Python.Basic

/-!
# `float64` and Python's `float`

A double with the infinities and `NaN`; the two zeros are one value. Every operation is the exact
one, rounded to the nearest double.
-/

namespace Sketchlog.Otel

open Binary64

/-- `float64`: a double, with the infinities and `NaN`. The two zeros are one value. -/
abbrev Float64 := PyFloat

namespace Float64

/-- The float nearest to an exact result; beyond the largest double it is an infinity. -/
def ofRat (q : ℚ) : Float64 :=
  if h : IsBinary64 (nearest q) then .fin ⟨nearest q, h⟩ else .inf (decide (q < 0))

theorem ofRat_of_nearest {q : ℚ} (h : IsBinary64 (nearest q)) : ofRat q = .fin ⟨nearest q, h⟩ :=
  dif_pos h

theorem ofRat_of_isBinary64 {q : ℚ} (h : IsBinary64 q) : ofRat q = .fin ⟨q, h⟩ := by
  have hnearest := nearest_of_isBinary64 h
  have h' : IsBinary64 (nearest q) := hnearest.symm ▸ h
  unfold ofRat
  simp only [h', dite_true]
  congr 1
  exact Binary64.ext hnearest

@[simp] theorem val_ofInt (n : ℤ) (h : |n| < 2 ^ 53) : (Binary64.ofInt n h).val = n := rfl

/-- A small integer is a float. -/
theorem ofRat_intCast (n : ℤ) (h : |n| < 2 ^ 53) : ofRat n = .fin (.ofInt n h) :=
  ofRat_of_isBinary64 (Binary64.ofInt n h).isBinary64

def zero : Float64 := .fin (Binary64.ofInt 0 Binary64.abs_zero_lt)

def one : Float64 := .fin (Binary64.ofInt 1 Binary64.abs_one_lt)

def add : Float64 → Float64 → Float64
  | .nan, _ => .nan
  | _, .nan => .nan
  | .inf a, .inf b => if a = b then .inf a else .nan
  | .inf a, .fin _ => .inf a
  | .fin _, .inf b => .inf b
  | .fin x, .fin y => ofRat (x.val + y.val)

def sub : Float64 → Float64 → Float64
  | .nan, _ => .nan
  | _, .nan => .nan
  | .inf a, .inf b => if a = b then .nan else .inf a
  | .inf a, .fin _ => .inf a
  | .fin _, .inf b => .inf (!b)
  | .fin x, .fin y => ofRat (x.val - y.val)

def mul : Float64 → Float64 → Float64
  | .nan, _ => .nan
  | _, .nan => .nan
  | .inf a, .inf b => .inf (a != b)
  | .inf a, .fin y => if y.val = 0 then .nan else .inf (a != decide (y.val < 0))
  | .fin x, .inf b => if x.val = 0 then .nan else .inf (decide (x.val < 0) != b)
  | .fin x, .fin y => ofRat (x.val * y.val)

def div : Float64 → Float64 → Float64
  | .nan, _ => .nan
  | _, .nan => .nan
  | .inf _, .inf _ => .nan
  | .inf a, .fin y => .inf (a != decide (y.val < 0))
  | .fin _, .inf _ => zero
  | .fin x, .fin y =>
    if y.val = 0 then if x.val = 0 then .nan else .inf (decide (x.val < 0)) else ofRat (x.val / y.val)

theorem fin_add_fin (x y : Binary64) : add (.fin x) (.fin y) = ofRat (x.val + y.val) := rfl

theorem fin_sub_fin (x y : Binary64) : sub (.fin x) (.fin y) = ofRat (x.val - y.val) := rfl

theorem fin_mul_fin (x y : Binary64) : mul (.fin x) (.fin y) = ofRat (x.val * y.val) := rfl

theorem fin_div_fin (x : Binary64) {y : Binary64} (hy : y.val ≠ 0) :
    div (.fin x) (.fin y) = ofRat (x.val / y.val) :=
  if_neg hy

theorem ofRat_zero : ofRat 0 = zero := by
  rw [← Int.cast_zero, ofRat_intCast 0 Binary64.abs_zero_lt, zero]

theorem ofRat_one : ofRat 1 = one := by
  rw [← Int.cast_one, ofRat_intCast 1 Binary64.abs_one_lt, one]

/-- `x < y`. -/
def lt : Float64 → Float64 → Bool
  | .nan, _ => false
  | _, .nan => false
  | .inf a, .inf b => a && !b
  | .inf a, .fin _ => a
  | .fin _, .inf b => !b
  | .fin x, .fin y => decide (x.val < y.val)

@[simp] theorem fin_lt_fin (x y : Binary64) : lt (.fin x) (.fin y) = decide (x.val < y.val) := rfl

@[simp] theorem zero_lt_fin (x : Binary64) : lt zero (.fin x) = decide (0 < x.val) := by
  show decide (((0 : ℤ) : ℚ) < x.val) = _
  rw [Int.cast_zero]

/-- `x == 0`. -/
def isZero : Float64 → Bool
  | .fin x => decide (x.val = 0)
  | _ => false

end Float64

/-- `x >= y`. -/
def floatGe : Float64 → Float64 → Bool
  | .nan, _ => false
  | _, .nan => false
  | x, y => !x.lt y

/-- `max(x, y)`. -/
def floatMax (x y : Float64) : Float64 := if x.lt y then y else x

/-- `-x`. -/
def floatNeg (x : Float64) : Float64 := Float64.zero.sub x

/-- `abs(x)`. -/
def floatAbs (x : Float64) : Float64 := if x.lt .zero then floatNeg x else x

end Sketchlog.Otel
