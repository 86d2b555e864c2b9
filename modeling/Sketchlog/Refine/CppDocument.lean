import Sketchlog.Refine.CppSetState
import Sketchlog.Refine.PythonFromDict

/-!
# Documents of the C++ log

`to_dict` writes the document of the Python log with the same contents (`toDict_isLogDoc`), so the
validator behind `from_dict` restores that log; the casts and the three `set_state` calls then rebuild
the C++ log. An extremum that a document gives as an int becomes the nearest double: `from_dict`
restores the contents with rounded extrema (`restore_ok`), and for the document of a C++ log, whose
extrema are doubles, those are the same contents.
-/

namespace Sketchlog

open Imperative Checked CountMap Bucket

/-! ## Rounded extrema

A native log holds its extrema as doubles. Rounding them moves no extremum out of its bucket,
provided that the index mapping takes the logarithm of an int from its conversion to a float, as
`math.log` does; so coherence is kept. -/

theorem Tally.IsPyFinite.isBinary64_toDouble {q : ℚ} (h : Tally.IsPyFinite q) :
    IsBinary64 (Binary64.toDouble q) := by
  rcases h with h | ⟨n, rfl, hn⟩
  · rwa [Binary64.toDouble_of_isBinary64 h]
  · rw [Binary64.toDouble_intCast]
    exact Binary64.isBinary64_roundInt hn

/-- The tally with its extrema rounded to doubles. -/
noncomputable def Tally.rounded (t : Tally) : Tally where
  positive := t.positive
  negative := t.negative
  zeroCount := t.zeroCount
  min := WithBot.map (WithTop.map Binary64.toDouble) t.min
  max := WithBot.map (WithTop.map Binary64.toDouble) t.max
  empty_extrema := by
    intro hp hn hz
    obtain ⟨hmin, hmax⟩ := t.empty_extrema hp hn hz
    rw [hmin, hmax]
    exact ⟨rfl, rfl⟩

theorem Tally.rounded_min (t : Tally) :
    t.rounded.min = WithBot.map (WithTop.map Binary64.toDouble) t.min := rfl

theorem Tally.rounded_max (t : Tally) :
    t.rounded.max = WithBot.map (WithTop.map Binary64.toDouble) t.max := rfl

/-- The contents with rounded extrema. -/
noncomputable def Contents.rounded {S : Shape} (c : Contents S) : Contents S :=
  ⟨c.latency.rounded, c.events, c.uniques⟩

theorem Contents.Fits.rounded {S : Shape} {c : Contents S} (h : c.Fits) : c.rounded.Fits where
  latency := ⟨h.latency.positive_card, h.latency.negative_card, h.latency.positive_le,
    h.latency.negative_le, h.latency.zeroCount_le, h.latency.count_le⟩
  events_le := h.events_le
  total_le := h.total_le

/-- `math.log` of an int is taken of its conversion to a float. -/
def IndexMapping.RoundsInts (M : IndexMapping) : Prop :=
  ∀ (alpha : ℚ) (n : ℤ), 0 < n → n.natAbs < floatLimit →
    M.key alpha (Binary64.roundInt n) = M.key alpha n

/-- The indexes of all doubles are `int`s, at every accepted accuracy. -/
def IndexMapping.Int32Keys (M : IndexMapping) : Prop :=
  ∀ alpha : ℚ, oneMicro ≤ alpha → alpha < 1 →
    -2 ^ 31 ≤ M.key alpha Binary64.minSubnormal ∧ M.key alpha Binary64.maxFinite ≤ 2 ^ 31 - 1

variable {M : IndexMapping} {alpha q : ℚ}

theorem bucketOf_toDouble (hM : M.RoundsInts) (h : Tally.IsPyFinite q) :
    bucketOf M alpha (Binary64.toDouble q) = bucketOf M alpha q := by
  rcases h with h | ⟨n, rfl, hn⟩
  · rw [Binary64.toDouble_of_isBinary64 h]
  rw [Binary64.toDouble_intCast]
  rcases lt_trichotomy n 0 with hneg | rfl | hpos
  · -- the magnitude of a negative int is rounded
    have hround := Binary64.roundInt_pos (n := -n) (by omega)
    rw [Binary64.roundInt_neg, Int.cast_neg] at hround
    have hkey := hM alpha (-n) (by omega) (by rwa [Int.natAbs_neg])
    rw [Binary64.roundInt_neg, Int.cast_neg, Int.cast_neg] at hkey
    rw [bucketOf_neg (by linarith), bucketOf_neg (by exact_mod_cast hneg), hkey]
  · rfl
  · rw [bucketOf_pos (Binary64.roundInt_pos hpos), bucketOf_pos (by exact_mod_cast hpos),
      hM alpha n hpos hn]

namespace Tally

theorem IsPyFinite.cases (h : IsPyFinite q) : IsBinary64 q ∨ ∃ n : ℤ, q = n := by
  rcases h with h | ⟨n, hn, -⟩
  · exact .inl h
  · exact .inr ⟨n, hn⟩

theorem occupied_rounded (t : Tally) : t.rounded.occupied = t.occupied := by
  ext b
  cases b <;> rfl

/-- Rounded extrema lie in the same buckets. -/
theorem Coherent.rounded (hM : M.RoundsInts) {t : Tally} (h : Coherent M alpha t) :
    Coherent M alpha t.rounded where
  positive_inRange := h.positive_inRange
  negative_inRange := h.negative_inRange
  extrema := by
    intro hne
    obtain ⟨lo, hi, hex⟩ := h.extrema hne
    refine ⟨Binary64.toDouble lo, Binary64.toDouble hi, ?_, ?_,
      Binary64.toDouble_mono hex.lo_finite.cases hex.hi_finite.cases hex.le,
      .inl hex.lo_finite.isBinary64_toDouble, .inl hex.hi_finite.isBinary64_toDouble, ?_, ?_⟩
    · rw [rounded_min, hex.min_eq]
      rfl
    · rw [rounded_max, hex.max_eq]
      rfl
    · rw [occupied_rounded, bucketOf_toDouble hM hex.lo_finite]
      exact hex.least
    · rw [occupied_rounded, bucketOf_toDouble hM hex.hi_finite]
      exact hex.greatest

end Tally

namespace Cpp

/-! ## Casts

What each cast of the binding accepts, and what it makes of it. -/

theorem castInt_eq_ok {lo hi n m : ℤ} : castInt lo hi n = .ok m ↔ n = m ∧ lo ≤ m ∧ m ≤ hi := by
  simp only [castInt, bind_eq_ok, failIf_eq_ok, exists_unit, Except.ok.injEq, not_not]
  constructor
  · rintro ⟨hr, rfl⟩
    exact ⟨rfl, hr⟩
  · rintro ⟨rfl, hr⟩
    exact ⟨hr, rfl⟩

theorem castDouble_coe (q : ℚ) : castDouble (q : ERat) =
    if h : IsBinary64 q then .ok (.fin ⟨q, h⟩)
    else if h : q.num.natAbs < floatLimit then
      .ok (.fin ⟨Binary64.roundInt q.num, Binary64.isBinary64_roundInt h⟩)
    else .error (.runtimeError "Unable to cast Python instance to C++ type") := rfl

theorem castDouble_of_finite (h : Tally.IsPyFinite q) :
    ∃ x : Binary64, x.val = Binary64.toDouble q ∧ castDouble (q : ERat) = .ok (.fin x) := by
  rw [castDouble_coe]
  by_cases hq : IsBinary64 q
  · exact ⟨⟨q, hq⟩, (Binary64.toDouble_of_isBinary64 hq).symm, dif_pos hq⟩
  · rcases h with h | ⟨n, rfl, hn⟩
    · exact absurd h hq
    have hnum : ((n : ℚ)).num.natAbs < floatLimit := by rwa [Rat.num_intCast]
    rw [dif_neg hq, dif_pos hnum]
    have hround : Binary64.roundInt ((n : ℚ)).num = Binary64.roundInt n := by rw [Rat.num_intCast]
    refine ⟨_, ?_, rfl⟩
    rw [Binary64.toDouble_intCast]
    exact congrArg Int.cast hround

/-- The indexes of a map are `int`s. -/
def KeysFit (b : Bins) : Prop := ∀ kv ∈ b.toList, -2 ^ 31 ≤ kv.1 ∧ kv.1 ≤ 2 ^ 31 - 1

theorem castEntries_eq_ok {b : Bins} {es : List (ℤ × ℤ)} :
    castEntries b = .ok es ↔ b.toList = es ∧ ∀ kv ∈ es,
      (-2 ^ 31 ≤ kv.1 ∧ kv.1 ≤ 2 ^ 31 - 1) ∧ -2 ^ 63 ≤ kv.2 ∧ kv.2 ≤ maxInt64 := by
  have hentry : ∀ x y : ℤ × ℤ, (do
      let index ← castInt32 x.1
      let count ← castInt64 x.2
      Except.ok (index, count)) = .ok y ↔ x = id y ∧ (-2 ^ 31 ≤ y.1 ∧ y.1 ≤ 2 ^ 31 - 1)
        ∧ -2 ^ 63 ≤ y.2 ∧ y.2 ≤ maxInt64 := by
    intro x y
    simp only [castInt32, castInt64, bind_eq_ok, castInt_eq_ok, Except.ok.injEq]
    constructor
    · rintro ⟨_, ⟨rfl, h1⟩, _, ⟨rfl, h2⟩, rfl⟩
      exact ⟨rfl, h1, h2⟩
    · rintro ⟨rfl, h1, h2⟩
      exact ⟨_, ⟨rfl, h1⟩, _, ⟨rfl, h2⟩, rfl⟩
  unfold castEntries
  rw [mapM_eq_ok_of_iff hentry, List.map_id]

/-! ## The states that `from_dict` builds -/

/-- The extrema a sketch is restored with: those of the contents, as doubles. -/
structure RestoredExtrema (t : Tally) (lo hi : Binary64) : Prop where
  le : lo.val ≤ hi.val
  min : (if t.count = 0 then ⊤ else (lo.val : ERat)) = t.rounded.min
  max : (if t.count = 0 then ⊥ else (hi.val : ERat)) = t.rounded.max
  zero : t.count = 0 → lo = zero ∧ hi = zero

theorem exists_restoredExtrema {t : Tally} (h : Tally.Coherent M alpha t) :
    ∃ lo hi : Binary64, RestoredExtrema t lo hi
      ∧ castExtremum t.count t.min = .ok (.fin lo) ∧ castExtremum t.count t.max = .ok (.fin hi) := by
  by_cases h0 : t.count = 0
  · obtain ⟨hmin, hmax⟩ := t.extrema_of_count_eq_zero h0
    refine ⟨zero, zero, ⟨le_rfl, ?_, ?_, fun _ => ⟨rfl, rfl⟩⟩, if_neg (by omega), if_neg (by omega)⟩
    · rw [if_pos h0, Tally.rounded_min, hmin]
      rfl
    · rw [if_pos h0, Tally.rounded_max, hmax]
      rfl
  · obtain ⟨lo, hi, hex⟩ := h.extrema h0
    have hpos : (t.count : ℤ) > 0 := by omega
    obtain ⟨lo', hlo, hcastLo⟩ := castDouble_of_finite hex.lo_finite
    obtain ⟨hi', hhi, hcastHi⟩ := castDouble_of_finite hex.hi_finite
    refine ⟨lo', hi', ⟨?_, ?_, ?_, fun hz => absurd hz h0⟩, ?_, ?_⟩
    · rw [hlo, hhi]
      exact Binary64.toDouble_mono hex.lo_finite.cases hex.hi_finite.cases hex.le
    · rw [if_neg h0, Tally.rounded_min, hex.min_eq, hlo]
      rfl
    · rw [if_neg h0, Tally.rounded_max, hex.max_eq, hhi]
      rfl
    · rw [castExtremum, if_pos hpos, hex.min_eq, hcastLo]
    · rw [castExtremum, if_pos hpos, hex.max_eq, hcastHi]

theorem castEntries_of_fits {b : Bins} {f : ℤ →₀ ℕ} (h : Tallies b f) (hf : ∀ k, f k ≤ maxInt64)
    (hkeys : KeysFit b) : castEntries b = .ok b.toList := by
  refine castEntries_eq_ok.mpr ⟨rfl, fun kv hkv => ⟨hkeys kv hkv, ?_⟩⟩
  have hpos := h.toList_pos hkv
  have hval := (h.mem_toList_iff.mp (show (kv.1, kv.2) ∈ b.toList from hkv)).2
  have hle := hf kv.1
  omega

theorem latencyState_eq {l : Sketchlog.DDSketch} {t : Tally} (h : l.Represents t) (hf : t.Fits)
    (hcoh : Tally.Coherent M alpha t) (halpha : IsBinary64 l.alpha) (hpos : KeysFit l.positive)
    (hneg : KeysFit l.negative) :
    ∃ lo hi, RestoredExtrema t lo hi
      ∧ latencyState l = .ok (DDSketch.stateOf ⟨l.alpha, halpha⟩ lo hi l) := by
  obtain ⟨lo, hi, hex, hlo, hhi⟩ := exists_restoredExtrema hcoh
  have hzero : l.zeroCount = t.zeroCount := h.zeroCount
  have hzle := hf.zeroCount_le
  have hcount : l.count = t.count := h.count
  have hcle := hf.count_le
  have hcast : castDouble (l.alpha : ERat) = .ok (.fin ⟨l.alpha, halpha⟩) := by
    rw [castDouble_coe, dif_pos halpha]
  refine ⟨lo, hi, hex, ?_⟩
  simp only [latencyState, castInt64, castUInt64, bind_eq_ok, castInt_eq_ok]
  refine ⟨_, hcast, l.zeroCount, ⟨rfl, by omega, by omega⟩, l.count, ⟨rfl, by omega, by omega⟩,
    .fin lo, ?_, .fin hi, ?_, l.positive.toList,
    castEntries_of_fits h.positive hf.positive_le hpos, l.negative.toList,
    castEntries_of_fits h.negative hf.negative_le hneg, ?_⟩
  · rw [hcount, h.min]
    exact hlo
  · rw [hcount, h.max]
    exact hhi
  · simp only [DDSketch.stateOf, minKey?_eq_head?, maxKey?_eq_getLast?, List.head?_map,
      List.getLast?_map, Std.ExtTreeMap.isEmpty_toList]

theorem uniquesState_ofRegisters {p : ℕ} (hp4 : 4 ≤ p) (hp : p ≤ 18) (a : RegisterMax p) :
    uniquesState (.ofRegisters a) = .ok ⟨p, List.ofFn a.register⟩ := by
  have hregister : ∀ r ∈ List.ofFn a.register, (do
      let value ← castInt32 (r : ℤ)
      failIf (value < 0 ∨ value > 64 - (p : ℤ) + 1)
        (PyError.valueError "HyperLogLog register value out of range")
      Except.ok (value.toNat % 2 ^ 8)) = .ok r := by
    intro r hr
    obtain ⟨i, rfl⟩ := List.mem_ofFn.mp hr
    have hle := a.register_le i
    simp only [castInt32, bind_eq_ok, castInt_eq_ok, failIf_eq_ok, exists_unit]
    refine ⟨_, ⟨rfl, by omega, by omega⟩, by omega, ?_⟩
    rw [Int.toNat_natCast, Nat.mod_eq_of_lt (by omega)]
  simp only [uniquesState, castUInt8, bind_eq_ok, castInt_eq_ok, failIf_eq_ok, exists_unit]
  refine ⟨(p : ℤ), ⟨rfl, by omega, by omega⟩, ?_, List.ofFn a.register, ?_, rfl⟩
  · simp [Sketchlog.HyperLogLog.ofRegisters, Nat.one_shiftLeft]
  · refine mapM_eq_ok.mpr (List.forall₂_same.mpr ?_)
    exact hregister

theorem eventsState_ofCounts {width depth : ℕ} (hw : width ≤ maxUInt64) (hd : depth ≤ maxUInt64)
    (a : EventCounts width depth) (ha : a.total ≤ maxInt64) :
    eventsState (.ofCounts a) = .ok (CountMinSketch.ofCounts a).getState := by
  have hrow : ∀ row ∈ (Sketchlog.CountMinSketch.ofCounts a).table, (do
      failIf (row.length ≠ ((width : ℤ)).toNat)
        (PyError.valueError "CountMinSketch column count mismatch")
      row.mapM castInt64) = Except.ok row := by
    intro row hrow
    obtain ⟨r, rfl⟩ := List.mem_ofFn.mp hrow
    simp only [bind_eq_ok, failIf_eq_ok, exists_unit]
    refine ⟨by simp, mapM_eq_ok.mpr (List.forall₂_same.mpr fun cell hcell => ?_)⟩
    obtain ⟨j, rfl⟩ := List.mem_ofFn.mp hcell
    have hle := a.table_le_total r j
    exact castInt_eq_ok.mpr ⟨rfl, by omega, by omega⟩
  simp only [eventsState, castUInt64, castInt64, bind_eq_ok, castInt_eq_ok, failIf_eq_ok, exists_unit]
  refine ⟨(width : ℤ), ⟨rfl, by omega, by omega⟩, (depth : ℤ), ⟨rfl, by omega, by omega⟩,
    (a.total : ℤ), ⟨rfl, by omega, by omega⟩, ?_, (Sketchlog.CountMinSketch.ofCounts a).table,
    mapM_eq_ok.mpr (List.forall₂_same.mpr hrow), ?_⟩
  · simp [Sketchlog.CountMinSketch.ofCounts]
  · -- the rows one after another are the flat table
    have hflat := List.ofFn_mul fun k : Fin (depth * width) => (a.table k.divNat k.modNat : ℤ)
    have hcells : (fun r : Fin depth => List.ofFn fun j : Fin width =>
        (a.table (CountMinSketch.cell r j).divNat (CountMinSketch.cell r j).modNat : ℤ))
        = fun r => List.ofFn fun j => (a.table r j : ℤ) := by
      funext r
      simp only [CountMinSketch.cell_divNat, CountMinSketch.cell_modNat]
    have htable : (Sketchlog.CountMinSketch.ofCounts a).table.flatten
        = (CountMinSketch.ofCounts a).table := by
      rw [CountMinSketch.ofCounts, hflat]
      exact congrArg (fun rows => (List.ofFn rows).flatten) hcells.symm
    rw [htable]
    rfl

/-! ## `from_dict`

With the states in place, the native constructor and `set_state` go through, and the result stands
for the contents with rounded extrema. -/

theorem exec_eq_ok {σ : Type} {x : EStateM PyError σ Unit} {s t : σ} (h : x.run s = .ok () t) :
    exec x s = .ok t := by
  rw [exec, h]

namespace StreamLog

variable {S : Shape} {c : Contents S} {v : Sketchlog.StreamLog}

theorem le_maxUInt64_of_bounded (hS : S.Bounded) : S.width ≤ 1000000 ∧ S.depth ≤ 1000000 := by
  have hw := S.width_pos
  have hw' : S.width ≤ 1000000 / S.depth := hS
  refine ⟨hw'.trans (Nat.div_le_self _ _), ?_⟩
  by_contra hlt
  have h0 : 1000000 / S.depth = 0 := Nat.div_eq_of_lt (by omega)
  omega

/-- A well-formed Python log whose indexes are `int`s is restored, with its extrema rounded. -/
theorem restore_ok (h : v.Sound M c) (hdet : v.deterministic = false)
    (hpos : KeysFit v.latency.positive) (hneg : KeysFit v.latency.negative) :
    ∃ log : StreamLog, restore v = .ok log ∧ log.Represents c.rounded := by
  obtain ⟨hbounded, hrep, hf, hcoh⟩ := h
  have halpha : IsBinary64 v.latency.alpha := by
    rw [hrep.alpha]
    exact S.alpha_isBinary64
  have hdims := le_maxUInt64_of_bounded hbounded
  have hw := S.width_pos
  have hd := S.depth_pos
  have hp4 := S.p_ge
  have hp18 := S.p_le
  have hmax : (1000000 : ℕ) ≤ maxUInt64 := by norm_num [maxUInt64]
  have hcells : (S.width : ℤ) ≤ maxCmsCells / S.depth := by
    rw [maxCmsCells]
    exact_mod_cast hbounded
  have hcast : castDouble (v.latency.alpha : ERat) = .ok (.fin ⟨S.alpha, S.alpha_isBinary64⟩) := by
    rw [castDouble_coe, dif_pos halpha]
    simp only [hrep.alpha]
  -- the states of the three parts, and what setting them gives
  obtain ⟨lo, hi, hex, hstate⟩ := latencyState_eq hrep.latency hf.latency hcoh halpha hpos hneg
  have hlatency := DDSketch.run_setState_stateOf (emptyOf S).latency hrep.latency hf.latency
    hex.le
  have halpha' : (⟨v.latency.alpha, halpha⟩ : Binary64) = (emptyOf S).latency.alpha :=
    Binary64.ext hrep.alpha
  have huniques := HyperLogLog.run_setState_ofRegisters S.p_le (0 : RegisterMax S.p) c.uniques
  have hevents := CountMinSketch.run_setState_ofCounts (0 : EventCounts S.width S.depth) c.events
    hf.events_le
  rw [HyperLogLog.ofRegisters_zero] at huniques
  rw [CountMinSketch.ofCounts_zero] at hevents
  have htotal : v.total = c.total := hrep.total
  have hsum : c.total = c.latency.count + c.events.total := rfl
  have htle := hf.total_le
  have hcount : v.latency.count = c.latency.count := hrep.latency.count
  -- the restored log, with every cast of the binding shown to be exact
  refine ⟨⟨⟨(emptyOf S).latency.alpha, .ofBins v.latency.positive, .ofBins v.latency.negative,
    v.latency.zeroCount, v.latency.count, lo, hi⟩, .ofCounts c.events, .ofRegisters c.uniques, v.total⟩,
    ?_, ?_⟩
  · simp only [restore, castUInt64, castUInt8, bind_eq_ok, failIf_eq_ok, exists_unit, castInt_eq_ok]
    have hwidth : (v.events.width : ℤ) = S.width := by rw [hrep.events]; rfl
    have hdepth : (v.events.depth : ℤ) = S.depth := by rw [hrep.events]; rfl
    have hprec : (v.uniques.p : ℤ) = S.p := by rw [hrep.uniques]; rfl
    refine ⟨by simp [hdet], S.width, ⟨hwidth, by omega, by omega⟩, S.depth,
      ⟨hdepth, by omega, by omega⟩, by omega, _, hcast, S.p, ⟨hprec, by omega, by omega⟩, emptyOf S,
      new_emptyOf hbounded, _, hstate, _, ?_, ⟨S.p, List.ofFn c.uniques.register⟩, ?_, _, ?_,
      (CountMinSketch.ofCounts c.events).getState, ?_, _, ?_, v.total, ⟨rfl, by omega, by omega⟩, ?_,
      rfl⟩
    · rw [halpha']
      exact exec_eq_ok hlatency
    · rw [hrep.uniques]
      exact uniquesState_ofRegisters hp4 hp18 c.uniques
    · exact exec_eq_ok huniques
    · rw [hrep.events]
      exact eventsState_ofCounts (by omega) (by omega) c.events hf.events_le
    · exact exec_eq_ok hevents
    · show ¬ ((c.events.total : ℤ) < 0 ∨ u64 (maxUInt64 - v.latency.count) < u64 c.events.total
        ∨ v.total ≠ u64 (v.latency.count + u64 c.events.total))
      have hev : u64 (c.events.total : ℤ) = c.events.total := u64_eq (by omega) (by omega)
      rw [hev, u64_eq (by omega) (by omega), u64_eq (by omega) (by omega)]
      omega
  · -- it stands for the contents with the extrema rounded to doubles
    refine ⟨rfl, ⟨⟨hrep.latency.positive, hrep.latency.negative, hrep.latency.zeroCount, hcount, ?_,
      ?_⟩,
      rfl, rfl, ?_⟩, rfl, rfl, htotal⟩
    · show (if v.latency.count = 0 then ⊤ else (lo.val : ERat)) = c.latency.rounded.min
      rw [← hex.min, hcount]
      simp only [Nat.cast_eq_zero]
    · show (if v.latency.count = 0 then ⊥ else (hi.val : ERat)) = c.latency.rounded.max
      rw [← hex.max, hcount]
      simp only [Nat.cast_eq_zero]
    · intro h0
      have h0' : v.latency.count = 0 := h0
      exact hex.zero (by omega)

/-- What `from_dict` casts, it has cast into range. -/
theorem keysFit_of_castEntries {b : Bins} {es : List (ℤ × ℤ)} (h : castEntries b = .ok es) :
    KeysFit b := by
  obtain ⟨rfl, hall⟩ := castEntries_eq_ok.mp h
  exact fun kv hkv => (hall kv hkv).1

theorem restore_eq_ok {log : StreamLog} (h : restore v = .ok log) :
    v.deterministic = false ∧ KeysFit v.latency.positive ∧ KeysFit v.latency.negative := by
  simp only [restore, latencyState, bind_eq_ok, failIf_eq_ok, exists_unit] at h
  obtain ⟨hdet, _, -, _, -, -, _, -, _, -, _, -, _, hlat, -⟩ := h
  obtain ⟨_, -, _, -, _, -, _, -, _, -, pos, hpos, neg, hneg, -⟩ := hlat
  exact ⟨by simpa using hdet, keysFit_of_castEntries hpos, keysFit_of_castEntries hneg⟩

/-- **`from_dict` restores what the validated document describes, with rounded extrema.** -/
theorem fromDict_eq_ok {data : PyVal} {log : StreamLog} (h : fromDict M data = .ok log) :
    ∃ v : Sketchlog.StreamLog, Sketchlog.StreamLog.fromDict M data = .ok v
      ∧ ∃ S, ∃ c : Contents S, v.Sound M c ∧ log.Represents c.rounded := by
  cases data with
  | dict d =>
    simp only [fromDict, bind_eq_ok] at h
    obtain ⟨v, hv, hlog⟩ := h
    obtain ⟨S, c, hsound⟩ := Sketchlog.StreamLog.fromDict_sound hv
    obtain ⟨hdet, hpos, hneg⟩ := restore_eq_ok hlog
    obtain ⟨log', hlog', hrep⟩ := restore_ok hsound hdet hpos hneg
    rw [hlog] at hlog'
    cases hlog'
    exact ⟨v, hv, S, c, hsound, hrep⟩
  | _ => cases h

/-! ## `to_dict`

The document of a native log is that of its Python image. -/

/-- The Python log with the same contents. -/
def toPython (log : StreamLog) : Sketchlog.StreamLog where
  latency := log.latency.toPython
  events := ⟨log.events.width, log.events.depth,
    tableRows log.events.width log.events.depth log.events.table, log.events.totalCount⟩
  uniques := ⟨log.uniques.p, log.uniques.registers⟩
  total := log.totalEvents
  deterministic := false

variable {log other : StreamLog}

theorem tableRows_ofCounts {width depth : ℕ} (a : EventCounts width depth) :
    tableRows width depth (CountMinSketch.ofCounts a).table
      = (Sketchlog.CountMinSketch.ofCounts a).table := by
  refine List.ext_getElem (by simp [tableRows, Sketchlog.CountMinSketch.ofCounts]) fun r hr hr' => ?_
  have hr'' : r < depth := by simpa [tableRows] using hr
  simp only [tableRows, List.getElem_map, List.getElem_range, Sketchlog.CountMinSketch.ofCounts,
    List.getElem_ofFn]
  exact CountMinSketch.row_ofCounts a ⟨r, hr''⟩

theorem Represents.toPython (h : log.Represents c) : log.toPython.Represents c where
  alpha := h.alpha
  latency := h.latency.contents
  events := by
    have hrows := tableRows_ofCounts c.events
    simp only [StreamLog.toPython, h.events]
    rw [show (CountMinSketch.ofCounts c.events).width = S.width from rfl,
      show (CountMinSketch.ofCounts c.events).depth = S.depth from rfl, hrows]
    rfl
  uniques := by
    rw [StreamLog.toPython, h.uniques]
    rfl
  total := h.totalEvents

/-- Two C++ logs with the same contents are the same. -/
theorem Represents.log_eq (h : log.Represents c) (h' : other.Represents c) : log = other := by
  have halpha : log.latency.alpha = other.latency.alpha := Binary64.ext (h.alpha.trans h'.alpha.symm)
  have hlatency := h.latency.sketch_eq h'.latency halpha
  have hevents := h.events.trans h'.events.symm
  have huniques := h.uniques.trans h'.uniques.symm
  have htotal := h.totalEvents.trans h'.totalEvents.symm
  cases log
  cases other
  simp only at hlatency hevents huniques htotal
  rw [hlatency, hevents, huniques, htotal]

theorem rounded_eq_self (h : log.Represents c) : c.rounded = c := by
  -- an extremum is the initial value or a double, and rounding changes neither
  have hextremum : ∀ (e : ERat) (x : Binary64), (x.val : ERat) = e →
      WithBot.map (WithTop.map Binary64.toDouble) e = e := by
    rintro e x rfl
    show ((Binary64.toDouble x.val : ℚ) : ERat) = (x.val : ERat)
    rw [Binary64.toDouble_of_isBinary64 x.isBinary64]
  have hmin : (if log.latency.count = 0 then ⊤ else (log.latency.minValue.val : ERat))
      = c.latency.min := h.latency.contents.min
  have hmax : (if log.latency.count = 0 then ⊥ else (log.latency.maxValue.val : ERat))
      = c.latency.max := h.latency.contents.max
  have hlatency : c.latency.rounded = c.latency := by
    refine Tally.ext rfl rfl rfl ?_ ?_
    · rw [Tally.rounded_min]
      by_cases h0 : log.latency.count = 0
      · rw [if_pos h0] at hmin
        rw [← hmin]
        rfl
      · rw [if_neg h0] at hmin
        exact hextremum _ _ hmin
    · rw [Tally.rounded_max]
      by_cases h0 : log.latency.count = 0
      · rw [if_pos h0] at hmax
        rw [← hmax]
        rfl
      · rw [if_neg h0] at hmax
        exact hextremum _ _ hmax
  rw [Contents.rounded, hlatency]

/-- The bins of a map of positive counts. -/
theorem binsDict_toList {b : Bins} {f : ℤ →₀ ℕ} (h : Tallies b f) :
    binsDict (b.toList.map Prod.fst) (b.toList.map Prod.snd)
      = .dict (b.toList.map fun e => (.str (toString e.1), .int e.2)) := by
  have hall : b.toList.filter (fun kc => decide (kc.2 > 0)) = b.toList :=
    List.filter_eq_self.mpr fun kc hkc => decide_eq_true (h.toList_pos hkc)
  rw [binsDict, zip_fst_snd, hall]

theorem toDict_isLogDoc (h : log.Represents c) : ∃ d, log.toDict = .dict d
    ∧ Sketchlog.StreamLog.IsLogDoc (fun k => .str (toString k)) log.toPython d := by
  have hpos := binsDict_toList h.latency.contents.positive
  have hneg := binsDict_toList h.latency.contents.negative
  have hofRat : ∀ x : Binary64, PyVal.ofRat x.val = .float (.fin x) := fun x => dif_pos x.isBinary64
  have hextremum : ∀ (x : Binary64) (e : ERat), (log.latency.count ≠ 0 → e = (x.val : ERat)) →
      (if log.latency.count > 0 then PyVal.float (.fin x) else .none)
        = if log.latency.count > 0 then .ofERat e else .none := by
    intro x e he
    by_cases hc : log.latency.count > 0
    · rw [if_pos hc, if_pos hc, he (by omega)]
      show _ = PyVal.ofRat x.val
      rw [hofRat x]
    · rw [if_neg hc, if_neg hc]
  refine ⟨_, rfl, rfl, rfl, rfl, ⟨_, rfl, ?_⟩, ⟨_, rfl, rfl, rfl⟩, ⟨_, rfl, rfl, rfl, rfl, rfl⟩⟩
  refine ⟨congrArg some (hofRat _).symm, congrArg some hpos, congrArg some hneg, rfl, rfl,
    congrArg some (hextremum log.latency.minValue _ fun h0 => if_neg h0),
    congrArg some (hextremum log.latency.maxValue _ fun h0 => if_neg h0)⟩

/-! ## The round trip -/

theorem keysFit_of_inRange (hM : M.Int32Keys) {b : Bins} {f : ℤ →₀ ℕ} (h : Tallies b f)
    (hrange : ∀ k, f k ≠ 0 → Tally.IndexInRange M S.alpha k) : KeysFit b := by
  intro kv hkv
  have hpos := h.toList_pos hkv
  have hval := (h.mem_toList_iff.mp (show (kv.1, kv.2) ∈ b.toList from hkv)).2
  obtain ⟨hlo, hhi⟩ := hrange kv.1 (by omega)
  obtain ⟨hmin, hmax⟩ := hM S.alpha S.alpha_ge S.alpha_lt
  exact ⟨hmin.trans hlo, hhi.trans hmax⟩

/-- A document of a bounded C++ log, read by the validator, restores the log. -/
theorem fromDict_of_isLogDoc (hM : M.Int32Keys) (h : log.Represents c) (hS : S.Bounded) (hf : c.Fits)
    (hcoh : Tally.Coherent M S.alpha c.latency) {d : Items}
    (hd : Sketchlog.StreamLog.IsLogDoc (fun k => .str (toString k)) log.toPython d) :
    fromDict M (.dict d) = .ok log := by
  have hsound : log.toPython.Sound M c := ⟨hS, h.toPython, hf, hcoh⟩
  have hread := Sketchlog.StreamLog.fromDict_complete bucketIndex_str hsound hd
  have hpos := keysFit_of_inRange (S := S) hM hsound.represents.latency.positive hcoh.positive_inRange
  have hneg := keysFit_of_inRange (S := S) hM hsound.represents.latency.negative hcoh.negative_inRange
  obtain ⟨log', hlog', hrep⟩ := restore_ok hsound rfl hpos hneg
  rw [rounded_eq_self h] at hrep
  rw [hrep.log_eq h] at hlog'
  simp only [fromDict, hread]
  exact hlog'

end StreamLog

end Cpp

end Sketchlog
