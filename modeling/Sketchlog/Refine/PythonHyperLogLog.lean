import Sketchlog.Lib.Tabulate
import Sketchlog.Python.HyperLogLog
import Sketchlog.Spec.Contents

/-!
# The Python `HyperLogLog` implements `RegisterMax`

An item's hash is below `2^64`, so its upper `p` bits are an index into the `2^p` registers and the
rank of the remaining bits is at most `64 - p + 1`: `itemMax p` is the content of a sketch of that
one item, and `add` is addition of it (`add_guarded`).
-/

namespace Sketchlog

open Imperative

namespace HyperLogLog

/-- The sketch that holds the register maxima `a`. -/
def ofRegisters {p : ℕ} (a : RegisterMax p) : HyperLogLog := ⟨p, List.ofFn a.register⟩

theorem ofRegisters_injective {p : ℕ} {a b : RegisterMax p} (h : ofRegisters a = ofRegisters b) :
    a = b :=
  RegisterMax.ext (List.ofFn_injective (congrArg registers h))

theorem ofRegisters_zero (p : ℕ) : ofRegisters (0 : RegisterMax p) = empty p := by
  have hconst : (0 : RegisterMax p).register = fun _ => 0 := rfl
  rw [ofRegisters, empty, hconst, List.ofFn_const, Nat.one_shiftLeft]

/-! ## Hashes, indexes and ranks -/

theorem and_mask64 (h : ℕ) : h &&& mask64 = h % 2 ^ 64 :=
  Nat.and_two_pow_sub_one_eq_mod h 64

theorem and_mask64_lt (h : ℕ) : h &&& mask64 < 2 ^ 64 := by
  rw [and_mask64]
  exact Nat.mod_lt h (by norm_num)

/-- `h ^ (h >> k)` stays below `2^64`. -/
theorem xor_shiftRight_lt {h : ℕ} (hh : h < 2 ^ 64) (k : ℕ) : h ^^^ (h >>> k) < 2 ^ 64 :=
  Nat.xor_lt_two_pow hh (lt_of_le_of_lt (Nat.shiftRight_le h k) hh)

theorem hashBytes_lt (data : List UInt8) : hashBytes data < 2 ^ 64 :=
  xor_shiftRight_lt (and_mask64_lt _) 33

theorem indexOf_lt {p h : ℕ} (hp : p ≤ 64) (hh : h < 2 ^ 64) : indexOf p h < 2 ^ p := by
  rw [indexOf, Nat.shiftRight_eq_div_pow, Nat.div_lt_iff_lt_mul (by positivity), ← pow_add]
  rwa [show p + (64 - p) = 64 by omega]

/-- The shifted word is a multiple of `2^p`, so it has more than `p` bits unless it is zero. -/
theorem rankOf_le {p : ℕ} (hp : p ≤ 64) (h : ℕ) : rankOf p h ≤ 64 - p + 1 := by
  unfold rankOf rho
  split
  · exact le_rfl
  · next hw =>
    set w := (h <<< p) &&& mask64 with hw_def
    have hdvd : 2 ^ p ∣ w := by
      rw [hw_def, and_mask64, Nat.shiftLeft_eq]
      exact (Nat.dvd_mod_iff (pow_dvd_pow 2 hp)).mpr (dvd_mul_left _ _)
    have hle : 2 ^ p ≤ w := Nat.le_of_dvd (Nat.pos_of_ne_zero hw) hdvd
    have hsize : p < w.size := Nat.lt_size.mpr hle
    omega

/-- The content of a sketch that was given the one item `item`. -/
def itemMax (p : ℕ) (hp : p ≤ 64) (item : UniqueItem) : RegisterMax p :=
  RegisterMax.single
    ⟨indexOf p (hashBytes (itemBytes item)), indexOf_lt hp (hashBytes_lt _)⟩
    (rankOf p (hashBytes (itemBytes item))) (rankOf_le hp _)

/-! ## `add`

The register is written if the new rank is larger, which is the maximum of the two. -/

/-- The sketch after the write of `add`. -/
def written (self : HyperLogLog) (item : UniqueItem) : HyperLogLog :=
  let h := hashBytes (itemBytes item)
  if rankOf self.p h > self.registers.getD (indexOf self.p h) 0 then
    { self with registers := self.registers.set (indexOf self.p h) (min (rankOf self.p h) 255) }
  else self

theorem written_ofRegisters {p : ℕ} (hp : p ≤ 64) (a : RegisterMax p) (item : UniqueItem) :
    written (ofRegisters a) item = ofRegisters (a + itemMax p hp item) := by
  set h := hashBytes (itemBytes item) with hh
  set i : Fin (2 ^ p) := ⟨indexOf p h, indexOf_lt hp (hashBytes_lt _)⟩ with hi
  have hrank : rankOf p h ≤ 64 - p + 1 := rankOf_le hp h
  have hget : (List.ofFn a.register).getD (indexOf p h) 0 = a.register i :=
    List.getD_ofFn a.register i 0
  -- adding the item raises register `i` to the maximum and leaves the others
  have hreg : ∀ j, (a + itemMax p hp item).register j
      = if j = i then max (a.register i) (rankOf p h) else a.register j := by
    intro j
    show max (a.register j) (if j = i then rankOf p h else 0) = _
    split
    · next hj => rw [hj]
    · exact max_eq_left (Nat.zero_le _)
  show (if rankOf p h > (List.ofFn a.register).getD (indexOf p h) 0 then
    (⟨p, (List.ofFn a.register).set (indexOf p h) (min (rankOf p h) 255)⟩ : HyperLogLog)
    else ⟨p, List.ofFn a.register⟩) = ⟨p, List.ofFn (a + itemMax p hp item).register⟩
  rw [hget]
  split
  · next hgt =>
    rw [show min (rankOf p h) 255 = rankOf p h by omega]
    rw [show (List.ofFn a.register).set (indexOf p h) (rankOf p h)
      = List.ofFn (Function.update a.register i (rankOf p h)) from List.set_ofFn _ i _]
    congr 2
    funext j
    rw [hreg, Function.update_apply, max_eq_right hgt.le]
  · next hle =>
    congr 2
    funext j
    rw [hreg, max_eq_left (not_lt.mp hle)]
    split
    · next hj => rw [hj]
    · rfl

/-- **`add` is addition of the item**, accepted unless the item is an out-of-range integer. -/
theorem add_guarded {p : ℕ} (hp : p ≤ 64) (a : RegisterMax p) (item : UniqueItem) :
    Guarded (add item) (ofRegisters a) (¬ intOutOfRange item)
      (· = ofRegisters (a + itemMax p hp item)) := by
  refine (Guarded.raiseIf.bind_ok fun s' _ hs => ⟨written s' item, rfl, ?_⟩)
  rw [hs, written_ofRegisters hp]

end HyperLogLog

end Sketchlog
