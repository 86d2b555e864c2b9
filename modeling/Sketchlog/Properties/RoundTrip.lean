import Sketchlog.Refine.CppReachable

/-!
# Serialization round trips

Every reachable Python log is restored from its own document, read directly or through JSON; what
`from_dict` has accepted once it accepts again, and restores; no two logs have the same document. All of
this follows from the two halves of `from_dict`: it returns well-formed logs only, and restores every
well-formed log.

The C++ log is the same with one exception. Its constructor does not limit the cells of the Count-Min
table, while the validator behind `from_dict` does, so a C++ log is restored exactly when its table has
at most a million cells (`Cpp.StreamLog.fromDict_toDict_iff`).
-/

namespace Sketchlog

open Imperative Checked CountMap

/-! ## Documents determine logs

Equal documents come from equal logs: every field of the log can be read back from its document. -/

theorem ofRat_injective {q r : ℚ} (hq : IsBinary64 q) (hr : IsBinary64 r)
    (h : PyVal.ofRat q = PyVal.ofRat r) : q = r := by
  rw [PyVal.ofRat, PyVal.ofRat, dif_pos hq, dif_pos hr, PyVal.float.injEq, PyFloat.fin.injEq] at h
  exact congrArg Binary64.val h

theorem bins_eq_of_dict {enc : ℤ → PyKey} (henc : Function.Injective enc) {b b' : Bins}
    (h : PyVal.dict (b.toList.map fun e => (enc e.1, .int e.2))
      = .dict (b'.toList.map fun e => (enc e.1, .int e.2))) : b = b' := by
  have hinj : Function.Injective fun e : ℤ × ℤ => (enc e.1, PyVal.int e.2) := by
    intro e e' he
    rw [Prod.mk.injEq, PyVal.int.injEq] at he
    exact Prod.ext (henc he.1) he.2
  exact Std.ExtTreeMap.toList_inj.mp (List.map_injective_iff.mpr hinj (PyVal.dict.inj h))

/-- The entry of an extremum determines it. -/
theorem extremum_eq_of_entry {n n' : ℤ} (hn : n = n') (hpos : 0 ≤ n) {x x' : Binary64} {e : ERat}
    (h : (if n > 0 then PyVal.ofERat (if n = 0 then e else (x.val : ERat)) else .none)
      = if n' > 0 then PyVal.ofERat (if n' = 0 then e else (x'.val : ERat)) else .none) :
    (if n = 0 then e else (x.val : ERat)) = if n' = 0 then e else (x'.val : ERat) := by
  subst hn
  by_cases h0 : n = 0
  · rw [if_pos h0, if_pos h0]
  · simp only [if_neg h0, if_pos (show n > 0 by omega)] at h
    have hval : PyVal.ofRat x.val = PyVal.ofRat x'.val := h
    rw [if_neg h0, if_neg h0, ofRat_injective x.isBinary64 x'.isBinary64 hval]

theorem latency_eq_of_doc {enc : ℤ → PyKey} (henc : Function.Injective enc) {sk sk' : Cpp.DDSketch}
    (hpos : 0 ≤ sk.count) {d : Items} (h : IsLatencyDoc enc sk.toPython d)
    (h' : IsLatencyDoc enc sk'.toPython d) : sk.toPython = sk'.toPython := by
  have hcount : sk.count = sk'.count := PyVal.int.inj (Option.some.inj (h.count.symm.trans h'.count))
  refine DDSketch.ext ?_ ?_ ?_ ?_ hcount ?_ ?_
  · exact ofRat_injective sk.alpha.isBinary64 sk'.alpha.isBinary64
      (Option.some.inj (h.alpha.symm.trans h'.alpha))
  · exact bins_eq_of_dict henc (Option.some.inj (h.positive.symm.trans h'.positive))
  · exact bins_eq_of_dict henc (Option.some.inj (h.negative.symm.trans h'.negative))
  · exact PyVal.int.inj (Option.some.inj (h.zeroCount.symm.trans h'.zeroCount))
  · exact extremum_eq_of_entry hcount hpos (Option.some.inj (h.min.symm.trans h'.min))
  · exact extremum_eq_of_entry hcount hpos (Option.some.inj (h.max.symm.trans h'.max))

theorem uniques_eq_of_doc {u u' : HyperLogLog} {d : Items} (h : IsUniquesDoc u d)
    (h' : IsUniquesDoc u' d) : u = u' := by
  have hp : (u.p : ℤ) = u'.p :=
    PyVal.int.inj (Option.some.inj (h.precision.symm.trans h'.precision))
  have hregisters := PyVal.list.inj (Option.some.inj (h.registers.symm.trans h'.registers))
  have hinj : Function.Injective fun r : ℕ => PyVal.int r := by
    intro r r' hr
    exact_mod_cast PyVal.int.inj hr
  exact HyperLogLog.ext (by exact_mod_cast hp) (List.map_injective_iff.mpr hinj hregisters)

theorem events_eq_of_doc {e e' : CountMinSketch} {d : Items} (h : IsEventsDoc e d)
    (h' : IsEventsDoc e' d) : e = e' := by
  have hwidth : (e.width : ℤ) = e'.width :=
    PyVal.int.inj (Option.some.inj (h.width.symm.trans h'.width))
  have hdepth : (e.depth : ℤ) = e'.depth :=
    PyVal.int.inj (Option.some.inj (h.depth.symm.trans h'.depth))
  have htable := PyVal.list.inj (Option.some.inj (h.table.symm.trans h'.table))
  have hcell : Function.Injective PyVal.int := fun _ _ hn => PyVal.int.inj hn
  have hrow : Function.Injective fun row : List ℤ => PyVal.list (row.map .int) :=
    fun _ _ hr => List.map_injective_iff.mpr hcell (PyVal.list.inj hr)
  exact CountMinSketch.ext (by exact_mod_cast hwidth) (by exact_mod_cast hdepth)
    (List.map_injective_iff.mpr hrow htable)
    (PyVal.int.inj (Option.some.inj (h.total.symm.trans h'.total)))

theorem toString_key_injective : Function.Injective fun k : ℤ => PyKey.str (toString k) := by
  intro a b hab
  have hrepr : a.repr = b.repr := PyKey.str.inj hab
  exact Option.some.inj (by rw [← Int.toInt?_repr a, ← Int.toInt?_repr b, hrepr])

namespace Cpp.StreamLog

variable {M : IndexMapping} {log other : StreamLog} {S S' : Shape} {c : Contents S}
  {c' : Contents S'}

/-- No two C++ logs have the same document. -/
theorem toDict_injective (h : log.Represents c) (h' : other.Represents c')
    (heq : log.toDict = other.toDict) : log = other := by
  obtain ⟨d, hd, hdoc⟩ := toDict_isLogDoc h
  obtain ⟨d', hd', hdoc'⟩ := toDict_isLogDoc h'
  obtain rfl : d = d' := PyVal.dict.inj (hd.symm.trans (heq.trans hd'))
  obtain ⟨ld, hld, hl⟩ := hdoc.latency
  obtain ⟨ld', hld', hl'⟩ := hdoc'.latency
  obtain ⟨ud, hud, hu⟩ := hdoc.uniques
  obtain ⟨ud', hud', hu'⟩ := hdoc'.uniques
  obtain ⟨ed, hed, he⟩ := hdoc.events
  obtain ⟨ed', hed', he'⟩ := hdoc'.events
  obtain rfl : ld = ld' := PyVal.dict.inj (Option.some.inj (hld.symm.trans hld'))
  obtain rfl : ud = ud' := PyVal.dict.inj (Option.some.inj (hud.symm.trans hud'))
  obtain rfl : ed = ed' := PyVal.dict.inj (Option.some.inj (hed.symm.trans hed'))
  have hcount : 0 ≤ log.latency.count := by
    have hc : log.latency.count = c.latency.count := h.latency.contents.count
    omega
  have hpython : log.toPython = other.toPython :=
    Sketchlog.StreamLog.ext (latency_eq_of_doc toString_key_injective hcount hl hl')
      (events_eq_of_doc he he') (uniques_eq_of_doc hu hu')
      (PyVal.int.inj (Option.some.inj (hdoc.total.symm.trans hdoc'.total))) rfl
  -- the same Python log holds the contents of both
  have hrep := h.toPython
  rw [hpython] at hrep
  obtain rfl := hrep.shape_eq h'.toPython
  obtain rfl := hrep.contents_eq h'.toPython
  exact h.log_eq h'

/-! ## The limit on the cells

The reader refuses tables of more than a million cells, and the constructor of the C++ log does not. -/

/-- The Count-Min table has at most a million cells. -/
def CellsBounded (log : StreamLog) : Prop := log.events.width ≤ 1000000 / log.events.depth

theorem cellsBounded_iff (h : log.Represents c) : log.CellsBounded ↔ S.Bounded := by
  rw [CellsBounded, h.events]
  rfl

/-- The validator rejects a table of more cells. -/
theorem bounded_of_fromDict {d : Items} {v : Sketchlog.StreamLog}
    (hd : Sketchlog.StreamLog.IsLogDoc (fun k => .str (toString k)) log.toPython d)
    (h : Sketchlog.StreamLog.fromDict M (.dict d) = .ok v) : log.CellsBounded := by
  obtain ⟨ed, hed, he⟩ := hd.events
  -- the reader came to the event table, which it checks for its size
  have hread : ∃ e, readEvents ed = .ok e := by
    rw [Sketchlog.StreamLog.fromDict] at h
    split at h
    · next v' hv' =>
      simp only [Sketchlog.StreamLog.readDict, bind_eq_ok, item_eq_ok, asDict_eq_ok] at hv'
      obtain ⟨_, -, _, -, _, -, _, -, _, -, _, -, _, -, _, -, _, -, _, -, _, hev, _, rfl, e, hread,
        -⟩ := hv'
      rw [hed] at hev
      cases hev
      exact ⟨e, hread⟩
    · cases h
  obtain ⟨e, hread⟩ := hread
  simp only [readEvents, bind_eq_ok, failIf_eq_ok, exists_unit, item_eq_ok, intFrom_eq_ok] at hread
  obtain ⟨_, hw, _, hdp, w, ⟨rfl, -⟩, dp, ⟨rfl, -⟩, hcells, -⟩ := hread
  -- what it read are the dimensions of the log itself
  have hwidth : ((log.events.width : ℕ) : ℤ) = w :=
    PyVal.int.inj (Option.some.inj (he.width.symm.trans hw))
  have hdepth : ((log.events.depth : ℕ) : ℤ) = dp :=
    PyVal.int.inj (Option.some.inj (he.depth.symm.trans hdp))
  rw [← hwidth, ← hdepth, not_lt, Sketchlog.StreamLog.maxCmsCells] at hcells
  unfold CellsBounded
  exact_mod_cast hcells

/-! ## Through JSON

JSON turns the keys of the bins to strings, which the reader takes too. Those of a C++ log are
strings already. -/

theorem throughJson_int (n : ℤ) : throughJson (.int n) = .int n := rfl

theorem throughJson_ints (xs : List ℤ) : throughJson (.list (xs.map .int)) = .list (xs.map .int) := by
  rw [throughJson, listThroughJson_int]

theorem throughJson_binsDict {b : Bins} {f : ℤ →₀ ℕ} (h : Tallies b f) :
    throughJson (binsDict (b.toList.map Prod.fst) (b.toList.map Prod.snd))
      = binsDict (b.toList.map Prod.fst) (b.toList.map Prod.snd) := by
  have hnodup : ((b.toList.map fun e => (PyKey.str (toString e.1), PyVal.int e.2)).map
      fun e => PyKey.str e.1.text).Nodup := by
    have hkeys : (b.toList.map Prod.fst).Nodup := (keys_sorted b).imp fun hlt => hlt.ne
    have hstr := hkeys.map toString_key_injective
    rw [List.map_map] at hstr ⊢
    exact hstr
  rw [binsDict_toList h, throughJson, itemsThroughJson_eq hnodup, List.map_map]
  rfl

theorem throughJson_latencyDict (h : log.Represents c) :
    throughJson (latencyDict log.latency.getState) = latencyDict log.latency.getState := by
  have hnodup : (["alpha", "zero_count", "count", "min", "max", "positive", "negative"].map
    PyKey.str).Nodup := by decide
  have hpos := throughJson_binsDict h.latency.contents.positive
  have hneg := throughJson_binsDict h.latency.contents.negative
  have hextremum : ∀ x : PyFloat, throughJson (if log.latency.count > 0 then .float x else .none)
      = if log.latency.count > 0 then .float x else .none := by
    intro x
    split <;> rfl
  rw [latencyDict, throughJson, itemsThroughJson_eq]
  · have hmin := hextremum log.latency.getState.minValue
    have hmax := hextremum log.latency.getState.maxValue
    show PyVal.dict [(.str "alpha", _), (.str "zero_count", _), (.str "count", _),
      (.str "min", throughJson (if log.latency.count > 0 then .float log.latency.getState.minValue
        else .none)),
      (.str "max", throughJson (if log.latency.count > 0 then .float log.latency.getState.maxValue
        else .none)),
      (.str "positive", throughJson (binsDict log.latency.getState.posIndices _)),
      (.str "negative", throughJson (binsDict log.latency.getState.negIndices _))] = _
    rw [hmin, hmax]
    exact congrArg₂ (fun pos neg => PyVal.dict [_, _, _, _, _, (.str "positive", pos),
      (.str "negative", neg)]) hpos hneg
  · exact hnodup

theorem throughJson_uniquesDict (u : HyperLogLog.State) :
    throughJson (uniquesDict u) = uniquesDict u := by
  have hnodup : (["precision", "registers"].map PyKey.str).Nodup := by decide
  have hregisters : throughJson (.list (u.registers.map fun r : ℕ => .int r))
      = .list (u.registers.map fun r : ℕ => .int r) := by
    have hints := throughJson_ints (u.registers.map fun r : ℕ => (r : ℤ))
    rwa [List.map_map] at hints
  rw [uniquesDict, throughJson, itemsThroughJson_eq]
  · simp only [List.map_cons, List.map_nil, PyKey.text, throughJson_int, hregisters]
  · exact hnodup

theorem throughJson_eventsDict (ev : CountMinSketch.State) :
    throughJson (eventsDict ev) = eventsDict ev := by
  have hnodup : (["width", "depth", "total", "table"].map PyKey.str).Nodup := by decide
  have htable : ∀ rows : List (List ℤ), throughJson (.list (rows.map fun row => .list (row.map .int)))
      = .list (rows.map fun row => .list (row.map .int)) := by
    intro rows
    rw [throughJson, listThroughJson_rows]
  rw [eventsDict, throughJson, itemsThroughJson_eq]
  · simp only [List.map_cons, List.map_nil, PyKey.text, throughJson_int, htable]
  · exact hnodup

/-- JSON leaves the document of a C++ log as it is: its keys are strings already. -/
theorem throughJson_toDict (h : log.Represents c) : throughJson log.toDict = log.toDict := by
  have hnodup : (["version", "total", "deterministic", "latency", "uniques", "events"].map
    PyKey.str).Nodup := by decide
  have hbool : throughJson (.bool false) = .bool false := rfl
  rw [toDict, throughJson, itemsThroughJson_eq]
  · simp only [List.map_cons, List.map_nil, PyKey.text, throughJson_int, hbool,
      throughJson_latencyDict h, throughJson_uniquesDict, throughJson_eventsDict]
  · exact hnodup

/-! ## The round trip

A Python log always comes back, and a C++ log exactly when its table is within the limit of the
reader. A log of one row with a million and one cells is the counterexample. -/

/-- A well-formed C++ log is restored from its document exactly when the validator's limit on the
cells lets it through. -/
theorem fromDict_toDict_iff (hK : M.Int32Keys) (h : log.Represents c) (hf : c.Fits)
    (hcoh : Tally.Coherent M S.alpha c.latency) :
    fromDict M log.toDict = .ok log ↔ log.CellsBounded := by
  obtain ⟨d, hd, hdoc⟩ := toDict_isLogDoc h
  rw [hd]
  constructor
  · intro hlog
    obtain ⟨v, hv, -⟩ := fromDict_eq_ok hlog
    exact bounded_of_fromDict hdoc hv
  · intro hcells
    exact fromDict_of_isLogDoc hK h ((cellsBounded_iff h).mp hcells) hf hcoh hdoc

end Cpp.StreamLog

/-- The round trip of one type of logs, where `Restorable` says which reachable logs come back. -/
structure RoundTrip {Log : Type} (Reachable Restorable : Log → Prop) (toDict : Log → PyVal)
    (fromDict : PyVal → Except PyError Log) : Prop where
  restores : ∀ s, Reachable s →
    ((fromDict (toDict s) = .ok s ∧ fromDict (throughJson (toDict s)) = .ok s) ↔ Restorable s)
  fixed_point : ∀ d s, fromDict d = .ok s → fromDict (toDict s) = .ok s
  injective : ∀ s s', Reachable s → Reachable s' → toDict s = toDict s' → s = s'

variable {M : IndexMapping}

theorem StreamLog.roundTrip (hM : M.Monotone) :
    RoundTrip (Reachable M) (fun _ => True) toDict (fromDict M) where
  restores := by
    intro s hs
    obtain ⟨S, c, hsound⟩ := hs.sound hM
    exact iff_of_true ⟨fromDict_toDict hsound, fromDict_throughJson hsound⟩ trivial
  fixed_point := by
    intro d s hd
    obtain ⟨S, c, hsound⟩ := fromDict_sound hd
    exact fromDict_toDict hsound
  injective := by
    intro s s' hs hs' heq
    obtain ⟨S, c, hsound⟩ := hs.sound hM
    obtain ⟨S', c', hsound'⟩ := hs'.sound hM
    have hread := fromDict_toDict hsound
    rw [heq, fromDict_toDict hsound'] at hread
    exact (Except.ok.inj hread).symm

theorem Cpp.StreamLog.roundTrip (hM : M.Monotone) (hR : M.RoundsInts) (hK : M.Int32Keys) :
    RoundTrip (Reachable M) CellsBounded toDict (fromDict M) where
  restores := by
    intro s hs
    obtain ⟨S, c, hrep, hf, hcoh⟩ := hs.sound hM hR
    rw [throughJson_toDict hrep, and_self]
    exact fromDict_toDict_iff hK hrep hf hcoh
  fixed_point := by
    intro d s hd
    -- what was restored has the shape of a validated log, which is bounded
    obtain ⟨v, -, S, c, hsound, hrep⟩ := fromDict_eq_ok hd
    have hcells := (cellsBounded_iff hrep).mpr hsound.bounded
    exact (fromDict_toDict_iff hK hrep hsound.fits.rounded (hsound.coherent.rounded hR)).mpr hcells
  injective := by
    intro s s' hs hs' heq
    obtain ⟨S, c, hrep, -⟩ := hs.holds
    obtain ⟨S', c', hrep', -⟩ := hs'.holds
    exact toDict_injective hrep hrep' heq

/-- **The serialization round trip.** Reachable Python logs always come back from their documents;
reachable C++ logs do exactly when their table has at most a million cells. Accepted documents are
fixed points, and documents determine logs, in both. -/
theorem round_trip_iff (hM : M.Monotone) (hR : M.RoundsInts) (hK : M.Int32Keys) :
    RoundTrip (StreamLog.Reachable M) (fun _ => True) StreamLog.toDict (StreamLog.fromDict M)
      ∧ RoundTrip (Cpp.StreamLog.Reachable M) Cpp.StreamLog.CellsBounded Cpp.StreamLog.toDict
        (Cpp.StreamLog.fromDict M) :=
  ⟨StreamLog.roundTrip hM, Cpp.StreamLog.roundTrip hM hR hK⟩

/-- A mapping of accuracy `1/2` that tells apart values below and above 1 only, by the extreme indexes:
those of the smallest and of the largest double are what the logarithm to base 3 gives. -/
def IndexMapping.coarse : IndexMapping where
  key _ v := if v < 1 then -677 else 647
  bucketValue _ i := 1 / 2 * 3 ^ i

theorem IndexMapping.coarse_monotone : IndexMapping.coarse.Monotone := by
  intro alpha v w _ hvw
  show (if v < 1 then (-677 : ℤ) else 647) ≤ if w < 1 then -677 else 647
  split
  · split <;> norm_num
  · next hv => rw [if_neg (fun hw => hv (lt_of_le_of_lt hvw hw))]

theorem IndexMapping.coarse_roundsInts : IndexMapping.coarse.RoundsInts := by
  intro alpha n hn _
  have h1 : (1 : ℚ) ≤ n := by exact_mod_cast hn
  have hround := Binary64.le_roundInt Binary64.is53Bit_one h1
  show (if (Binary64.roundInt n : ℚ) < 1 then (-677 : ℤ) else 647) = if (n : ℚ) < 1 then -677 else 647
  rw [if_neg (not_lt.mpr hround), if_neg (not_lt.mpr h1)]

theorem IndexMapping.coarse_int32Keys : IndexMapping.coarse.Int32Keys := by
  intro alpha _ _
  have hkeys : ∀ v : ℚ, -2 ^ 31 ≤ IndexMapping.coarse.key alpha v
      ∧ IndexMapping.coarse.key alpha v ≤ 2 ^ 31 - 1 := by
    intro v
    show -2 ^ 31 ≤ (if v < 1 then (-677 : ℤ) else 647) ∧ (if v < 1 then (-677 : ℤ) else 647)
      ≤ 2 ^ 31 - 1
    split <;> norm_num
  exact ⟨(hkeys _).1, (hkeys _).2⟩

/-- The configuration of accuracy `1/2` with one row of `width` cells. -/
def Shape.oneRow (width : ℕ) (h : 0 < width) : Shape :=
  ⟨1 / 2, 4, width, 1, Binary64.half.isBinary64, by norm_num [oneMicro], by norm_num, by decide,
    by decide, h, Nat.one_pos⟩

/-- The C++ constructor accepts every width a `size_t` holds. -/
theorem Cpp.StreamLog.new_oneRow (width : ℕ) (h : 0 < width) (hmax : width ≤ maxUInt64) :
    new (.fin Binary64.half) 4 width 1 = .ok (emptyOf (.oneRow width h)) := by
  have hmicro : oneMicro ≤ 1 / 2 := by norm_num [oneMicro]
  have hhalf : Binary64.half.val = 1 / 2 := rfl
  have hone : (1 : ℤ) ≤ maxUInt64 := by norm_num [maxUInt64]
  simp only [new, CountMinSketch.new, HyperLogLog.new, bind_eq_ok, failIf_eq_ok, exists_unit,
    DDSketch.new_eq_ok, Except.ok.injEq]
  refine ⟨_, ⟨_, rfl, by rwa [hhalf], by rw [hhalf]; norm_num, rfl⟩, _,
    ⟨by omega, by omega, ?_, rfl⟩, _,
    ⟨by omega, by omega, rfl⟩, rfl⟩
  rw [Int.ediv_one]
  omega

/-- A million and one cells: the C++ log is constructed and written, and never read back. -/
theorem round_trip_wide :
    ∃ s, Cpp.StreamLog.Reachable .coarse s ∧ s.events.width = 1000001 ∧ s.events.depth = 1
      ∧ ¬ Cpp.StreamLog.fromDict .coarse s.toDict = .ok s := by
  have hmax : (1000001 : ℕ) ≤ maxUInt64 := by norm_num [maxUInt64]
  have hnew := Cpp.StreamLog.new_oneRow 1000001 (by norm_num) hmax
  have hrep := Cpp.StreamLog.represents_emptyOf (.oneRow 1000001 (by norm_num))
  refine ⟨_, .new _ _ _ _ hnew, rfl, rfl, fun hread => ?_⟩
  have hcells := (Cpp.StreamLog.fromDict_toDict_iff IndexMapping.coarse_int32Keys hrep
    Contents.fits_zero Tally.coherent_zero).mp hread
  have hle : 1000001 ≤ 1000000 / 1 := hcells
  norm_num at hle

/-- Four occurrences of one key, in a log of either backend with two cells. -/
theorem round_trip_event :
    ∃ s, StreamLog.Reachable .coarse s ∧ s.total = 4 ∧ StreamLog.fromDict .coarse s.toDict = .ok s
      ∧ ∃ s', Cpp.StreamLog.Reachable .coarse s' ∧ Cpp.StreamLog.fromDict .coarse s'.toDict
        = .ok s' := by
  have hnew : StreamLog.new ⟨.fin Binary64.half, 4, 2, 1, false⟩
      = .ok (StreamLog.emptyOf (.oneRow 2 (by norm_num)) false) :=
    StreamLog.new_eq_ok.mpr ⟨_, by norm_num [Shape.Bounded, Shape.oneRow], rfl, rfl, rfl, rfl, rfl⟩
  have hreach : StreamLog.Reachable .coarse
      (after (StreamLog.ingest .coarse (.event (.int 7) 4))
        (.emptyOf (.oneRow 2 (by norm_num)) false)) :=
    .ingest _ (.new _ hnew)
  have hnew' := Cpp.StreamLog.new_oneRow 2 (by norm_num) (by norm_num [maxUInt64])
  have hreach' : Cpp.StreamLog.Reachable .coarse (.emptyOf (.oneRow 2 (by norm_num))) :=
    .new _ _ _ _ hnew'
  obtain ⟨hpython, hcpp⟩ := round_trip_iff IndexMapping.coarse_monotone
    IndexMapping.coarse_roundsInts IndexMapping.coarse_int32Keys
  have hcells : (Cpp.StreamLog.emptyOf (.oneRow 2 (by norm_num))).CellsBounded := by
    show 2 ≤ 1000000 / 1
    norm_num
  exact ⟨_, hreach, by decide +kernel, ((hpython.restores _ hreach).mpr trivial).1, _, hreach',
    ((hcpp.restores _ hreach').mpr hcells).1⟩

end Sketchlog
