import Sketchlog.Cpp.HyperLogLog
import Sketchlog.Refine.PythonHyperLogLog

/-!
# The C++ `HyperLogLog` implements `RegisterMax`

Word for word the two backends hash alike: a `uint64_t` operation is the Python operation followed by
its mask (`murmur3Fmix64_toNat`, `fnv1a_toNat`), and the index and rank of a hash are the same
(`indexOf_eq`, `rankOf_eq`). So `add` is addition of the item and `merge` addition of the registers.
-/

namespace Sketchlog.Cpp

open Imperative

namespace HyperLogLog

/-! ## Hashes

The native hashes on 64-bit words agree with the Python ones, which mask after every product. -/

theorem murmur3Fmix64_toNat (h : UInt64) :
    (murmur3Fmix64 h).toNat = Sketchlog.HyperLogLog.murmurFinalizer h.toNat := by
  have hmod : h.toNat % 2 ^ 64 = h.toNat := Nat.mod_eq_of_lt h.toNat_lt
  have h33 : (33 : UInt64).toNat % 64 = 33 := rfl
  have hm1 : (0xff51afd7ed558ccd : UInt64).toNat = 0xff51afd7ed558ccd := rfl
  have hm2 : (0xc4ceb9fe1a85ec53 : UInt64).toNat = 0xc4ceb9fe1a85ec53 := rfl
  simp only [murmur3Fmix64, Sketchlog.HyperLogLog.murmurFinalizer, UInt64.toNat_xor,
    UInt64.toNat_shiftRight, UInt64.toNat_mul, Sketchlog.HyperLogLog.and_mask64, hmod, h33, hm1, hm2]

theorem fnv1a_toNat (data : List UInt8) : (fnv1a data).toNat = Sketchlog.HyperLogLog.fnv1a data := by
  have hstep : ∀ (l : List UInt8) (h : UInt64),
      (l.foldl (fun h b => (h ^^^ b.toUInt64) * 1099511628211) h).toNat
        = l.foldl (fun h b => ((h ^^^ b.toNat) * 0x100000001b3) &&& mask64) h.toNat := by
    intro l
    induction l with
    | nil => exact fun _ => rfl
    | cons b l ih =>
      intro h
      have hprime : (1099511628211 : UInt64).toNat = 0x100000001b3 := rfl
      rw [List.foldl_cons, List.foldl_cons, ih, UInt64.toNat_mul, UInt64.toNat_xor,
        UInt8.toNat_toUInt64, hprime, Sketchlog.HyperLogLog.and_mask64]
  exact hstep data 14695981039346656037

theorem hashBytes_toNat (data : List UInt8) :
    (hashBytes data).toNat = Sketchlog.HyperLogLog.hashBytes data := by
  rw [hashBytes, murmur3Fmix64_toNat, fnv1a_toNat]
  rfl

/-! ## Indexes and ranks

The index is taken by a shift and the rank by counting leading zeros; both agree with the Python
arithmetic for precisions from 4 to 18. -/

section

variable {p : ℕ} (hp4 : 4 ≤ p) (hp18 : p ≤ 18) (hash : UInt64)

include hp4 hp18

theorem indexOf_eq : indexOf p hash = Sketchlog.HyperLogLog.indexOf p hash.toNat := by
  have hshift : (UInt64.ofNat (64 - p)).toNat % 64 = 64 - p := by
    rw [UInt64.toNat_ofNat']
    omega
  have hlt : Sketchlog.HyperLogLog.indexOf p hash.toNat < 2 ^ p :=
    Sketchlog.HyperLogLog.indexOf_lt (by omega) hash.toNat_lt
  have hpow : 2 ^ p ≤ 2 ^ 32 := Nat.pow_le_pow_right (by norm_num) (by omega)
  rw [indexOf, UInt64.toNat_shiftRight, hshift]
  exact Nat.mod_eq_of_lt (lt_of_lt_of_le hlt hpow)

theorem rankOf_eq : rankOf p hash = Sketchlog.HyperLogLog.rankOf p hash.toNat := by
  have hshift : (UInt64.ofNat p).toNat % 64 = p := by
    rw [UInt64.toNat_ofNat']
    omega
  have hw : (hash <<< UInt64.ofNat p).toNat = (hash.toNat <<< p) &&& mask64 := by
    rw [UInt64.toNat_shiftLeft, hshift, Sketchlog.HyperLogLog.and_mask64]
  have hzero : hash <<< UInt64.ofNat p = 0 ↔ (hash.toNat <<< p) &&& mask64 = 0 := by
    rw [← hw, ← UInt64.toNat_inj]
    rfl
  unfold rankOf Sketchlog.HyperLogLog.rankOf Sketchlog.HyperLogLog.rho
  simp only [hzero]
  split
  · -- no working bit is set
    omega
  · next hne =>
    -- the leading one of a nonzero word is at its binary logarithm
    set w := (hash.toNat <<< p) &&& mask64 with hw_def
    have hsize : w.size = w.log2 + 1 :=
      le_antisymm (Nat.size_le.mpr Nat.lt_log2_self) (Nat.lt_size.mpr (Nat.log2_self_le hne))
    have hlt : w.size ≤ 64 := Nat.size_le.mpr (Sketchlog.HyperLogLog.and_mask64_lt _)
    rw [clz64, if_neg (mt hzero.mp hne), hw, hsize]
    omega

end

/-! ## Registers

The byte registers hold the same maxima. The merge loop is described after `k` rounds by induction. -/

def ofRegisters {p : ℕ} (a : RegisterMax p) : HyperLogLog := ⟨p, List.ofFn a.register⟩

theorem ofRegisters_injective {p : ℕ} {a b : RegisterMax p} (h : ofRegisters a = ofRegisters b) :
    a = b :=
  RegisterMax.ext (List.ofFn_injective (congrArg registers h))

theorem ofRegisters_zero (p : ℕ) : ofRegisters (0 : RegisterMax p) = empty p := by
  have h := congrArg Sketchlog.HyperLogLog.registers (Sketchlog.HyperLogLog.ofRegisters_zero p)
  exact congrArg (HyperLogLog.mk p) h

/-- The content of a sketch that was given the bytes `data`. -/
def bytesMax (p : ℕ) (hp : p ≤ 64) (data : List UInt8) : RegisterMax p :=
  Sketchlog.HyperLogLog.itemMax p hp (.key (.bytes data))

/-- **`add` is addition of the item.** It is the Python write: no rank exceeds 255. -/
theorem run_add {p : ℕ} (hp4 : 4 ≤ p) (hp18 : p ≤ 18) (a : RegisterMax p) (data : List UInt8) :
    (add data).run (ofRegisters a)
      = .ok () (ofRegisters (a + bytesMax p (hp18.trans (by norm_num)) data)) := by
  -- index and rank are those of the other backend, so its lemma about one write applies
  have hhash := hashBytes_toNat data
  have hidx : indexOf p (hashBytes data)
      = Sketchlog.HyperLogLog.indexOf p (Sketchlog.HyperLogLog.hashBytes data) := by
    rw [indexOf_eq hp4 hp18, hhash]
  have hrank : rankOf p (hashBytes data)
      = Sketchlog.HyperLogLog.rankOf p (Sketchlog.HyperLogLog.hashBytes data) := by
    rw [rankOf_eq hp4 hp18, hhash]
  have hle : Sketchlog.HyperLogLog.rankOf p (Sketchlog.HyperLogLog.hashBytes data) ≤ 255 :=
    (Sketchlog.HyperLogLog.rankOf_le (by omega) _).trans (by omega)
  have hpy := Sketchlog.HyperLogLog.written_ofRegisters (hp18.trans (by norm_num)) a
    (.key (.bytes data))
  show EStateM.Result.ok () (if rankOf p (hashBytes data)
      > (List.ofFn a.register).getD (indexOf p (hashBytes data)) 0 then
    (⟨p, (List.ofFn a.register).set (indexOf p (hashBytes data)) (rankOf p (hashBytes data))⟩
      : HyperLogLog) else ⟨p, List.ofFn a.register⟩) = _
  have hwritten : Sketchlog.HyperLogLog.written (.ofRegisters a) (.key (.bytes data))
      = if rankOf p (hashBytes data) > (List.ofFn a.register).getD (indexOf p (hashBytes data)) 0 then
          ⟨p, (List.ofFn a.register).set (indexOf p (hashBytes data)) (rankOf p (hashBytes data))⟩
        else ⟨p, List.ofFn a.register⟩ := by
    rw [hidx, hrank]
    show (if Sketchlog.HyperLogLog.rankOf p (Sketchlog.HyperLogLog.hashBytes data)
        > (List.ofFn a.register).getD
          (Sketchlog.HyperLogLog.indexOf p (Sketchlog.HyperLogLog.hashBytes data)) 0 then
      (⟨p, (List.ofFn a.register).set
        (Sketchlog.HyperLogLog.indexOf p (Sketchlog.HyperLogLog.hashBytes data))
        (min (Sketchlog.HyperLogLog.rankOf p (Sketchlog.HyperLogLog.hashBytes data)) 255)⟩
          : Sketchlog.HyperLogLog) else ⟨p, List.ofFn a.register⟩) = _
    -- the cap at 255 does nothing, as a rank is at most 61
    rw [min_eq_left hle]
  rw [hwritten] at hpy
  have hregs := congrArg Sketchlog.HyperLogLog.registers hpy
  split at hregs
  · next hgt =>
    rw [if_pos hgt]
    exact congrArg (EStateM.Result.ok ()) (congrArg (HyperLogLog.mk p) hregs)
  · next hgt =>
    rw [if_neg hgt]
    exact congrArg (EStateM.Result.ok ()) (congrArg (HyperLogLog.mk p) hregs)

/-- The register loop of `merge`, after its first `k` iterations. -/
theorem foldl_raiseRegister {n : ℕ} (f g : Fin n → ℕ) {k : ℕ} (hk : k ≤ n) :
    (List.range k).foldl (raiseRegister (List.ofFn g)) (List.ofFn f)
      = List.ofFn fun i => if i.val < k then max (f i) (g i) else f i := by
  -- after `k` rounds the registers below `k` hold the larger of the two
  induction k with
  | zero => simp
  | succ k ih =>
    rw [List.range_succ, List.foldl_append, ih (by omega), List.foldl_cons, List.foldl_nil]
    have hi : k < n := by omega
    have hf : (List.ofFn fun i : Fin n => if i.val < k then max (f i) (g i) else f i).getD k 0
        = f ⟨k, hi⟩ := by
      have h := List.getD_ofFn (fun i : Fin n => if i.val < k then max (f i) (g i) else f i) ⟨k, hi⟩ 0
      simpa using h
    have hg : (List.ofFn g).getD k 0 = g ⟨k, hi⟩ := List.getD_ofFn g ⟨k, hi⟩ 0
    rw [raiseRegister, hf, hg]
    split
    · next hgt =>
      have hset := List.set_ofFn (fun i : Fin n => if i.val < k then max (f i) (g i) else f i)
        ⟨k, hi⟩ (g ⟨k, hi⟩)
      rw [show ((⟨k, hi⟩ : Fin n) : ℕ) = k from rfl] at hset
      rw [hset]
      congr 1
      funext i
      rw [Function.update_apply]
      by_cases hik : i = ⟨k, hi⟩
      · subst hik
        simp [max_eq_right hgt.le]
      · have hne : i.val ≠ k := fun h => hik (Fin.ext h)
        rw [if_neg hik]
        exact if_congr (by omega) rfl rfl
    · next hle =>
      congr 1
      funext i
      by_cases hik : i = ⟨k, hi⟩
      · subst hik
        simp [max_eq_left (not_lt.mp hle)]
      · have hne : i.val ≠ k := fun h => hik (Fin.ext h)
        exact if_congr (by omega) rfl rfl

/-- **`merge` takes the register-wise maxima.** -/
theorem run_merge {p : ℕ} (a b : RegisterMax p) :
    (merge (ofRegisters b)).run (ofRegisters a) = .ok () (ofRegisters (a + b)) := by
  have hloop := foldl_raiseRegister a.register b.register le_rfl
  have hp : ¬ (ofRegisters a).p ≠ (ofRegisters b).p := fun h => h rfl
  simp only [merge, EStateM.run_bind, EStateM.run_get, run_raiseIf, if_neg hp, EStateM.run_modify]
  show EStateM.Result.ok () (⟨p, (List.range (1 <<< p)).foldl (raiseRegister (List.ofFn b.register))
    (List.ofFn a.register)⟩ : HyperLogLog) = _
  rw [Nat.one_shiftLeft, hloop]
  simp only [Fin.is_lt, if_true]
  rfl

theorem run_reset {p : ℕ} (a : RegisterMax p) :
    reset.run (ofRegisters a) = .ok () (ofRegisters (0 : RegisterMax p)) := by
  rw [reset, EStateM.run_modify]
  show EStateM.Result.ok () (⟨p, (List.ofFn a.register).map fun _ => 0⟩ : HyperLogLog) = _
  rw [List.map_ofFn]
  rfl

end HyperLogLog

end Sketchlog.Cpp
