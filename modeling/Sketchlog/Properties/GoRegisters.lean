import Sketchlog.Cpp.Document
import Sketchlog.Go.HyperLogLog
import Sketchlog.Refine.CppHyperLogLog
import Sketchlog.Refine.PythonMerge

/-!
# The registers of the three clients

A sketch is built by adding byte strings and merging other sketches (`Build`). The Go client hashes
as the others do and takes the same register, and its rank is theirs unless no bit of the hash is
left after the index: it then counts 64 leading zeros, where the others stop at the `64 - p` bits
there are. So the registers agree, and are within the bound that `from_dict` checks, exactly when no
such item was added (`go_registers_agree_iff`).
-/

namespace Sketchlog

open Imperative

/-- How a sketch came about. -/
inductive Build where
  | new
  | add (s : Build) (data : List UInt8)
  | merge (s other : Build)

namespace Build

/-- The byte strings that were added somewhere. -/
def items : Build → List (List UInt8)
  | new => []
  | add s data => data :: s.items
  | merge s other => s.items ++ other.items

/-- In Go. -/
def go (p : ℕ) : Build → Except String Go.HyperLogLog
  | new => Go.HyperLogLog.new p
  | add s data => do
    let h ← s.go p
    .ok (h.add data)
  | merge s other => do
    let h ← s.go p
    let o ← other.go p
    Go.HyperLogLog.merge o h

/-- In Python, where `merge` of the log merges the registers. -/
def python (p : ℕ) : Build → Except PyError HyperLogLog
  | new => HyperLogLog.new p
  | add s data => do
    let h ← s.python p
    Cpp.exec (HyperLogLog.add (.key (.bytes data))) h
  | merge s other => do
    let h ← s.python p
    let o ← other.python p
    .ok (StreamLog.mergeUniques h o)

/-- In C++. -/
def cpp (p : ℕ) : Build → Except PyError Cpp.HyperLogLog
  | new => Cpp.HyperLogLog.new p
  | add s data => do
    let h ← s.cpp p
    Cpp.exec (Cpp.HyperLogLog.add data) h
  | merge s other => do
    let h ← s.cpp p
    let o ← other.cpp p
    Cpp.exec (Cpp.HyperLogLog.merge o) h

end Build

/-! ## Hashes, indexes and ranks in Go

They agree with the other backends except where all bits below the index are zero. -/

namespace Go.HyperLogLog

theorem hash_toNat (data : List UInt8) : (hash data).toNat = Sketchlog.HyperLogLog.hashBytes data :=
  Cpp.HyperLogLog.hashBytes_toNat data

variable {p : ℕ} (hp4 : 4 ≤ p) (hp18 : p ≤ 18) (x : UInt64)

include hp4 hp18

theorem indexOf_eq : indexOf p x = Sketchlog.HyperLogLog.indexOf p x.toNat := by
  have hshift : (UInt64.ofNat (64 - p)).toNat % 64 = 64 - p := by
    rw [UInt64.toNat_ofNat']
    omega
  rw [indexOf, UInt64.toNat_shiftRight, hshift]
  rfl

theorem toNat_shiftLeft_precision : (x <<< UInt64.ofNat p).toNat = (x.toNat <<< p) &&& mask64 := by
  have hshift : (UInt64.ofNat p).toNat % 64 = p := by
    rw [UInt64.toNat_ofNat']
    omega
  rw [UInt64.toNat_shiftLeft, hshift, Sketchlog.HyperLogLog.and_mask64]

/-- While a bit is left, the rank is that of the others. -/
theorem rankOf_eq (h : (x.toNat <<< p) &&& mask64 ≠ 0) :
    rankOf p x = Sketchlog.HyperLogLog.rankOf p x.toNat := by
  have hpos : 0 < ((x.toNat <<< p) &&& mask64).size := Nat.size_pos.mpr (Nat.pos_of_ne_zero h)
  rw [rankOf, leadingZeros64, toNat_shiftLeft_precision hp4 hp18, Sketchlog.HyperLogLog.rankOf,
    Sketchlog.HyperLogLog.rho, if_neg h]
  omega

/-- When none is left, all 64 zeros count. -/
theorem rankOf_of_zero (h : (x.toNat <<< p) &&& mask64 = 0) : rankOf p x = 65 := by
  rw [rankOf, leadingZeros64, toNat_shiftLeft_precision hp4 hp18, h]
  rfl

end Go.HyperLogLog

namespace Build

/-- No bit of the hash is left after the index. -/
def Spent (p : ℕ) (data : List UInt8) : Prop := HyperLogLog.hashBytes data % 2 ^ (64 - p) = 0

theorem spent_iff {p : ℕ} (hp : p ≤ 64) (data : List UInt8) :
    Spent p data ↔ (HyperLogLog.hashBytes data <<< p) &&& mask64 = 0 := by
  have hpow : 2 ^ 64 = 2 ^ (64 - p) * 2 ^ p := by
    rw [← pow_add]
    congr 1
    omega
  rw [HyperLogLog.and_mask64, Nat.shiftLeft_eq, hpow, Nat.mul_mod_mul_right, Spent]
  constructor
  · intro h
    rw [h, Nat.zero_mul]
  · intro h
    exact (Nat.mul_eq_zero.mp h).resolve_right (by positivity)

/-! ## The registers, as maxima

All three implementations hold maxima over the items; only the rank of a spent hash differs. -/

section Maxima

variable {p : ℕ} (hp : p ≤ 64)

/-- The registers in Python and C++. -/
def maxima : Build → RegisterMax p
  | new => 0
  | add s data => s.maxima + Cpp.HyperLogLog.bytesMax p hp data
  | merge s other => s.maxima + other.maxima

/-- The register of an item. -/
def index (data : List UInt8) : Fin (2 ^ p) :=
  ⟨HyperLogLog.indexOf p (HyperLogLog.hashBytes data),
    HyperLogLog.indexOf_lt hp (HyperLogLog.hashBytes_lt data)⟩

/-- The registers in Go. -/
def goMaxima : Build → Fin (2 ^ p) → ℕ
  | new => fun _ => 0
  | add s data => fun j =>
      max (s.goMaxima j) (if j = index hp data then
      Go.HyperLogLog.rankOf p (Go.HyperLogLog.hash data) else 0)
  | merge s other => fun j => max (s.goMaxima j) (other.goMaxima j)

end Maxima

variable {p : ℕ} {s : Build}

theorem goMaxima_add (hp : p ≤ 64) (s : Build) (data : List UInt8) (j : Fin (2 ^ p)) :
    (add s data).goMaxima hp j
      = max (s.goMaxima hp j) (if j = index hp data then
        Go.HyperLogLog.rankOf p (Go.HyperLogLog.hash data) else 0) :=
  rfl

theorem python_eq (hp4 : 4 ≤ p) (hp18 : p ≤ 18) (hp : p ≤ 64) (s : Build) :
    s.python p = .ok (.ofRegisters (s.maxima hp)) := by
  induction s with
  | new =>
    have hrange : ¬ ¬ ((4 : ℤ) ≤ p ∧ (p : ℤ) ≤ 18) := by omega
    rw [python, HyperLogLog.new, Checked.failIf, if_neg hrange, maxima, HyperLogLog.ofRegisters_zero]
    rfl
  | add s data ih =>
    obtain ⟨t, hrun, rfl⟩ := (HyperLogLog.add_guarded hp (s.maxima hp) (.key (.bytes data))).run_ok
      fun h => h
    rw [python, ih]
    show Cpp.exec (HyperLogLog.add (.key (.bytes data))) (.ofRegisters (s.maxima hp)) = _
    rw [Cpp.exec, hrun]
    rfl
  | merge s other ih ih' =>
    rw [python, ih, ih']
    show Except.ok (StreamLog.mergeUniques _ _) = _
    rw [StreamLog.mergeUniques_ofRegisters]
    rfl

theorem cpp_eq (hp4 : 4 ≤ p) (hp18 : p ≤ 18) (hp : p ≤ 64) (s : Build) :
    s.cpp p = .ok (.ofRegisters (s.maxima hp)) := by
  induction s with
  | new =>
    have hbyte : ¬ ¬ ((0 : ℤ) ≤ p ∧ (p : ℤ) < 2 ^ 8) := by omega
    have hrange : ¬ ((p : ℤ) < 4 ∨ (p : ℤ) > 18) := by omega
    rw [cpp, Cpp.HyperLogLog.new, Checked.failIf, Checked.failIf, if_neg hbyte, if_neg hrange, maxima,
      Cpp.HyperLogLog.ofRegisters_zero]
    rfl
  | add s data ih =>
    rw [cpp, ih]
    show Cpp.exec (Cpp.HyperLogLog.add data) (.ofRegisters (s.maxima hp)) = _
    rw [Cpp.exec, Cpp.HyperLogLog.run_add hp4 hp18]
    rfl
  | merge s other ih ih' =>
    rw [cpp, ih, ih']
    show Cpp.exec _ _ = _
    rw [Cpp.exec, Cpp.HyperLogLog.run_merge]
    rfl

theorem go_eq (hp4 : 4 ≤ p) (hp18 : p ≤ 18) (hp : p ≤ 64) (s : Build) :
    s.go p = .ok ⟨p, List.ofFn (s.goMaxima hp)⟩ := by
  -- registers as maxima over the items of the history, one constructor at a time
  induction s with
  | new =>
    have hrange : ¬ (p < 4 ∨ p > 18) := by omega
    rw [go, Go.HyperLogLog.new, Checked.failIf, if_neg hrange]
    show Except.ok (Go.HyperLogLog.mk p (List.replicate (1 <<< p) 0)) = _
    rw [goMaxima, List.ofFn_const, Nat.one_shiftLeft]
  | add s data ih =>
    rw [go, ih]
    show Except.ok (Go.HyperLogLog.add data ⟨p, List.ofFn (s.goMaxima hp)⟩) = _
    have hindex : Go.HyperLogLog.indexOf p (Go.HyperLogLog.hash data) = index hp data := by
      rw [Go.HyperLogLog.indexOf_eq hp4 hp18, Go.HyperLogLog.hash_toNat]
      rfl
    unfold Go.HyperLogLog.add
    dsimp only
    rw [hindex, List.getD_ofFn, List.set_ofFn]
    -- the rank is written if it is larger, and the maximum is the same either way
    split
    · next hgt =>
      congr 2
      congr 1
      funext j
      rw [Function.update_apply, goMaxima_add]
      split
      · next hj =>
        rw [hj]
        exact (max_eq_right hgt.le).symm
      · exact (max_eq_left (Nat.zero_le _)).symm
    · next hle =>
      congr 2
      congr 1
      funext j
      rw [goMaxima_add]
      split
      · next hj =>
        rw [hj]
        exact (max_eq_left (not_lt.mp hle)).symm
      · exact (max_eq_left (Nat.zero_le _)).symm
  | merge s other ih ih' =>
    rw [go, ih, ih']
    have hsame : ¬ p ≠ p := fun h => h rfl
    show Go.HyperLogLog.merge ⟨p, List.ofFn (other.goMaxima hp)⟩ ⟨p, List.ofFn (s.goMaxima hp)⟩ = _
    -- the merge loop raises every register of the receiver
    have hloop := Cpp.HyperLogLog.foldl_raiseRegister (s.goMaxima hp) (other.goMaxima hp) le_rfl
    simp only [Fin.is_lt, if_true] at hloop
    rw [Go.HyperLogLog.merge, Checked.failIf, if_neg hsame]
    show Except.ok (Go.HyperLogLog.mk p ((List.range (List.ofFn (other.goMaxima hp)).length).foldl
      (Cpp.HyperLogLog.raiseRegister (List.ofFn (other.goMaxima hp))) (List.ofFn (s.goMaxima hp)))) = _
    rw [List.length_ofFn, hloop]
    rfl

/-! ## When they agree

Exactly when no item has a spent hash, whose rank in Go lies above the bound of `from_dict`. -/

/-- Without a spent item the maxima are the same. -/
theorem goMaxima_eq (hp4 : 4 ≤ p) (hp18 : p ≤ 18) (hp : p ≤ 64) (h : ∀ data ∈ s.items, ¬ Spent p data) :
    s.goMaxima hp = (s.maxima hp).register := by
  induction s with
  | new => rfl
  | add s data ih =>
    have hrank : Go.HyperLogLog.rankOf p (Go.HyperLogLog.hash data)
        = HyperLogLog.rankOf p (HyperLogLog.hashBytes data) := by
      rw [Go.HyperLogLog.rankOf_eq hp4 hp18, Go.HyperLogLog.hash_toNat]
      rw [Go.HyperLogLog.hash_toNat, Ne, ← spent_iff hp]
      exact h data List.mem_cons_self
    funext j
    rw [goMaxima_add, ih fun d hd => h d (List.mem_cons_of_mem data hd), hrank]
    rfl
  | merge s other ih ih' =>
    funext j
    rw [goMaxima, ih fun d hd => h d (List.mem_append_left _ hd), ih' fun d hd =>
      h d (List.mem_append_right _ hd)]
    rfl

/-- A spent item leaves 65 in a register, for good. -/
theorem le_goMaxima (hp4 : 4 ≤ p) (hp18 : p ≤ 18) (hp : p ≤ 64) {data : List UInt8}
    (hmem : data ∈ s.items)
    (hspent : Spent p data) : 65 ≤ s.goMaxima hp (index hp data) := by
  induction s with
  | new => cases hmem
  | add s d ih =>
    rcases List.mem_cons.mp hmem with rfl | hmem'
    · have hrank : Go.HyperLogLog.rankOf p (Go.HyperLogLog.hash data) = 65 := by
        apply Go.HyperLogLog.rankOf_of_zero hp4 hp18
        rw [Go.HyperLogLog.hash_toNat, ← spent_iff hp]
        exact hspent
      rw [goMaxima_add, if_pos rfl, hrank]
      exact le_max_right _ _
    · exact (ih hmem').trans (le_max_left _ _)
  | merge s other ih ih' =>
    rcases List.mem_append.mp hmem with hmem' | hmem'
    · exact (ih hmem').trans (le_max_left _ _)
    · exact (ih' hmem').trans (le_max_right _ _)

/-- The registers of the three sketches are equal, and within the bound of `from_dict`. -/
def Agree (p : ℕ) (s : Build) : Prop :=
  ∃ g h c, s.go p = .ok g ∧ s.python p = .ok h ∧ s.cpp p = .ok c
    ∧ g.registers = h.registers ∧ g.registers = c.registers ∧ ∀ r ∈ g.registers, r ≤ 64 - p + 1

theorem not_agree_of_spent (hp4 : 4 ≤ p) (hp18 : p ≤ 18) {data : List UInt8} (hmem : data ∈ s.items)
    (hspent : Spent p data) : ¬ s.Agree p := by
  have hp : p ≤ 64 := hp18.trans (by decide)
  rintro ⟨g, h, c, hgo, -, -, -, -, hbound⟩
  rw [go_eq hp4 hp18 hp] at hgo
  cases hgo
  have hle := hbound _ (List.mem_ofFn.mpr ⟨index hp data, rfl⟩)
  have hge := le_goMaxima hp4 hp18 hp hmem hspent
  omega

/-- **The registers agree** exactly when every item has left a bit after its index. -/
theorem go_registers_agree_iff {p : ℕ} (hp4 : 4 ≤ p) (hp18 : p ≤ 18) (s : Build) :
    s.Agree p ↔ ∀ data ∈ s.items, ¬ Spent p data := by
  have hp : p ≤ 64 := hp18.trans (by decide)
  constructor
  · intro hagree data hmem hspent
    exact not_agree_of_spent hp4 hp18 hmem hspent hagree
  · intro hitems
    refine ⟨_, _, _, go_eq hp4 hp18 hp s, python_eq hp4 hp18 hp s, cpp_eq hp4 hp18 hp s, ?_, ?_, ?_⟩
    · rw [goMaxima_eq hp4 hp18 hp hitems]
      rfl
    · rw [goMaxima_eq hp4 hp18 hp hitems]
      rfl
    · intro r hr
      rw [goMaxima_eq hp4 hp18 hp hitems] at hr
      obtain ⟨i, rfl⟩ := List.mem_ofFn.mp hr
      exact (s.maxima hp).register_le i

/-- `"a"` is added and the sketch is merged with itself, at the default precision. -/
theorem go_registers_agree_letter :
    (merge (add new [0x61]) (add new [0x61])).Agree 10 := by
  refine (go_registers_agree_iff (by decide) (by decide) _).mpr ?_
  have hletter : ¬ Spent 10 [0x61] := by
    unfold Spent
    decide +kernel
  intro data hmem
  rcases List.mem_append.mp hmem with hmem | hmem <;>
  · rw [List.mem_singleton.mp hmem]
    exact hletter

/-- The eight bytes `d5 6b b9 53 42 87 08 36` have the hash 0, and the Go register becomes 65. -/
theorem zero_hash_disagrees :
    ¬ (add new [0xd5, 0x6b, 0xb9, 0x53, 0x42, 0x87, 0x08, 0x36]).Agree 10 := by
  have hspent : Spent 10 [0xd5, 0x6b, 0xb9, 0x53, 0x42, 0x87, 0x08, 0x36] := by
    unfold Spent
    decide +kernel
  exact not_agree_of_spent (by decide) (by decide) List.mem_cons_self hspent

end Build

end Sketchlog
