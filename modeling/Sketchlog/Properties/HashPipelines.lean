import Sketchlog.Refine.CppCountMinSketch

/-!
# The hashes of the two backends

The Python backend masks its integers where the C++ one wraps around. Round by round the two compute
one number (`fnv1a_toNat`, `murmur3Fmix64_toNat`, `map_toNat_seeds`), so that an item meets the same
cells of a Count-Min table and the same register, with the same rank, in both (`hashes_coincide`).
An integer is the key of a Count-Min table itself; a HyperLogLog hashes its eight bytes, which C++
reads from the memory of a little-endian machine.
-/

namespace Sketchlog.Cpp

/-- The bytes of a `uint64_t` in memory, the lowest first. -/
def memoryBytes (id : UInt64) : List UInt8 :=
  (List.range 8).map fun i => (id >>> UInt64.ofNat (8 * i)).toUInt8

/-- `value.to_bytes(8, byteorder='little')` is what is in memory. -/
theorem memoryBytes_eq (id : UInt64) : memoryBytes id = Sketchlog.HyperLogLog.toBytes8 id.toNat := by
  unfold memoryBytes Sketchlog.HyperLogLog.toBytes8
  refine List.map_congr_left fun i hi => ?_
  have hi8 : i < 8 := List.mem_range.mp hi
  have hshift : (UInt64.ofNat (8 * i)).toNat % 64 = 8 * i := by
    rw [UInt64.toNat_ofNat']
    omega
  apply UInt8.toNat_inj.mp
  rw [UInt64.toNat_toUInt8, UInt64.toNat_shiftRight, hshift, UInt8.toNat_ofNat']
  have hmask : (id.toNat >>> (8 * i)) &&& 0xFF = (id.toNat >>> (8 * i)) % 2 ^ 8 :=
    Nat.and_two_pow_sub_one_eq_mod (id.toNat >>> (8 * i)) 8
  rw [hmask, Nat.mod_mod]

namespace CountMinSketch

theorem cell_eq (self : CountMinSketch) (key seed : UInt64) (row : ℕ) :
    row * self.width + (murmurFinalizer (key ^^^ seed)).toNat % self.width
      = row * self.width + Sketchlog.CountMinSketch.hash (key.toNat : ℤ) seed.toNat % self.width := by
  rw [hash_eq]

theorem columns_eq (self : CountMinSketch) (key : UInt64) (table : List (List ℤ)) (total : ℤ) :
    Sketchlog.CountMinSketch.columns ⟨self.width, self.depth, table, total⟩ key.toNat
      = (seeds self.depth).map fun seed =>
        Sketchlog.CountMinSketch.hash (key.toNat : ℤ) seed.toNat % self.width := by
  rw [Sketchlog.CountMinSketch.columns, ← map_toNat_seeds, List.map_map]
  rfl

/-- The cells of a key are the columns of the Python sketch, each in its row. -/
theorem indices_eq_columns (self : CountMinSketch) (key : UInt64) (table : List (List ℤ)) (total : ℤ) :
    self.indices key = (List.range self.depth).zipWith (fun row col => row * self.width + col)
      (Sketchlog.CountMinSketch.columns ⟨self.width, self.depth, table, total⟩ key.toNat) := by
  rw [columns_eq, indices, List.zipWith_map_right]
  refine congrArg (fun f => List.zipWith f (List.range self.depth) (seeds self.depth)) ?_
  funext row seed
  exact cell_eq self key seed row

end CountMinSketch

/-- **The hash pipelines coincide.** For every text of bytes, every 64-bit key, every dimension of a
Count-Min table and every precision of a HyperLogLog: the hashes and the seeds are the same numbers,
and so are the cells, the register and the rank, of bytes and of integers. -/
theorem hashes_coincide {p : ℕ} (hp4 : 4 ≤ p) (hp18 : p ≤ 18) (data : List UInt8) (key : UInt64)
    (sketch : CountMinSketch) (table : List (List ℤ)) (total : ℤ) :
    (HyperLogLog.fnv1a data).toNat = Sketchlog.HyperLogLog.fnv1a data
    ∧ (HyperLogLog.murmur3Fmix64 key).toNat = Sketchlog.HyperLogLog.murmurFinalizer key.toNat
    ∧ (CountMinSketch.seeds sketch.depth).map UInt64.toNat = Sketchlog.CountMinSketch.seeds sketch.depth
    ∧ (let python : Sketchlog.CountMinSketch := ⟨sketch.width, sketch.depth, table, total⟩
      let cells columns := (List.range sketch.depth).zipWith (fun row col =>
        row * sketch.width + col) columns
      sketch.indices (HyperLogLog.fnv1a data)
        = cells (python.columns (Sketchlog.CountMinSketch.keyOf (.bytes data)))
      ∧ sketch.indices key = cells (python.columns (Sketchlog.CountMinSketch.keyOf (.int key.toNat))))
    ∧ (let python item := Sketchlog.HyperLogLog.hashBytes (Sketchlog.HyperLogLog.itemBytes (.key item))
      HyperLogLog.indexOf p (HyperLogLog.hashBytes data) = Sketchlog.HyperLogLog.indexOf p
        (python (.bytes data))
      ∧ HyperLogLog.rankOf p (HyperLogLog.hashBytes data) = Sketchlog.HyperLogLog.rankOf p
        (python (.bytes data))
      ∧ HyperLogLog.indexOf p (HyperLogLog.hashBytes (memoryBytes key))
        = Sketchlog.HyperLogLog.indexOf p (python (.int key.toNat))
      ∧ HyperLogLog.rankOf p (HyperLogLog.hashBytes (memoryBytes key))
        = Sketchlog.HyperLogLog.rankOf p (python (.int key.toNat))) := by
  -- index and rank are functions of the one hash
  have hregister (bytes : List UInt8) :
      HyperLogLog.indexOf p (HyperLogLog.hashBytes bytes)
          = Sketchlog.HyperLogLog.indexOf p (Sketchlog.HyperLogLog.hashBytes bytes)
        ∧ HyperLogLog.rankOf p (HyperLogLog.hashBytes bytes)
          = Sketchlog.HyperLogLog.rankOf p (Sketchlog.HyperLogLog.hashBytes bytes) := by
    rw [HyperLogLog.indexOf_eq hp4 hp18, HyperLogLog.rankOf_eq hp4 hp18, HyperLogLog.hashBytes_toNat]
    exact ⟨rfl, rfl⟩
  refine ⟨HyperLogLog.fnv1a_toNat data, HyperLogLog.murmur3Fmix64_toNat key,
    CountMinSketch.map_toNat_seeds sketch.depth,
    ⟨?_, CountMinSketch.indices_eq_columns sketch key table total⟩, ?_⟩
  · -- a byte string is hashed down to its key first
    have hbytes := CountMinSketch.indices_eq_columns sketch (HyperLogLog.fnv1a data) table total
    rw [HyperLogLog.fnv1a_toNat] at hbytes
    exact hbytes
  · -- an integer enters the registers through its bytes in memory
    have hint := hregister (memoryBytes key)
    rw [memoryBytes_eq] at hint ⊢
    exact ⟨(hregister data).1, (hregister data).2, hint.1, hint.2⟩

/-- The bytes of `a`, the key 7, and the default dimensions. -/
theorem hashes_coincide_default :
    (HyperLogLog.fnv1a [97]).toNat = Sketchlog.HyperLogLog.fnv1a [97]
    ∧ HyperLogLog.rankOf 10 (HyperLogLog.hashBytes (memoryBytes 7))
      = Sketchlog.HyperLogLog.rankOf 10
        (Sketchlog.HyperLogLog.hashBytes (Sketchlog.HyperLogLog.toBytes8 7)) := by
  have h := hashes_coincide (by norm_num : 4 ≤ 10) (by norm_num : 10 ≤ 18) [97] 7 (.empty 2048 5) [] 0
  exact ⟨h.1, h.2.2.2.2.2.2.2⟩

end Sketchlog.Cpp
