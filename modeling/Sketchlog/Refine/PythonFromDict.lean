import Sketchlog.Refine.PythonReadLatency

/-!
# What `from_dict` accepts

A log is well formed when it holds contents of its configuration that fit, with coherent extrema
(`StreamLog.Sound`). `from_dict` returns well-formed logs only (`fromDict_sound`), and restores every
well-formed log from its own document, read directly or through JSON (`fromDict_toDict`,
`fromDict_throughJson`).
-/

namespace Sketchlog

open Checked CountMap Bucket Tally

/-! ## Uniques -/

theorem readUniques_sound {d : Items} {u : HyperLogLog} (h : readUniques d = .ok u) :
    ∃ p, 4 ≤ p ∧ p ≤ 18 ∧ ∃ a : RegisterMax p, u = .ofRegisters a := by
  simp only [readUniques, bind_eq_ok, failIf_eq_ok, exists_unit, item_eq_ok, intIn_eq_ok,
    asList_eq_ok, mapM_intIn] at h
  obtain ⟨-, -, q, ⟨rfl, hq4, hq18⟩, -, -, -, rfl, hlen, vs, ⟨rfl, hvs⟩, h⟩ := h
  cases h
  rw [not_not, List.length_map, Nat.one_shiftLeft] at hlen
  obtain ⟨f, rfl⟩ := List.exists_eq_ofFn hlen
  have hbound : ∀ i, 0 ≤ f i ∧ f i ≤ 64 - q.toNat + 1 := by
    intro i
    have h := hvs (f i) (List.mem_ofFn.mpr ⟨i, rfl⟩)
    push_cast at h
    omega
  refine ⟨q.toNat, by omega, by omega, ⟨fun i => (f i).toNat, fun i => ?_⟩, ?_⟩
  · have := hbound i
    omega
  · rw [List.map_ofFn]
    rfl

structure IsUniquesDoc (u : HyperLogLog) (d : Items) : Prop where
  precision : d.lookup (.str "precision") = some (.int u.p)
  registers : d.lookup (.str "registers") = some (.list (u.registers.map fun r : ℕ => .int r))

theorem readUniques_complete {p : ℕ} (h4 : 4 ≤ p) (h18 : p ≤ 18) (a : RegisterMax p) {d : Items}
    (hd : IsUniquesDoc (.ofRegisters a) d) : readUniques d = .ok (.ofRegisters a) := by
  have hp : ((p : ℤ)).toNat = p := rfl
  simp only [readUniques, bind_eq_ok, failIf_eq_ok, exists_unit, item_eq_ok, intIn_eq_ok,
    asList_eq_ok, mapM_intIn]
  refine ⟨_, hd.precision, (p : ℤ), ⟨rfl, by omega, by omega⟩, _, hd.registers, _, rfl, ?_,
    (List.ofFn a.register).map fun r : ℕ => (r : ℤ), ⟨?_, ?_⟩, ?_⟩
  · rw [not_not, List.length_map, Nat.one_shiftLeft]
    exact List.length_ofFn
  · rw [List.map_map]
    rfl
  · intro v hv
    obtain ⟨r, hr, rfl⟩ := List.mem_map.mp hv
    obtain ⟨i, rfl⟩ := List.mem_ofFn.mp hr
    have hle := a.register_le i
    push_cast
    omega
  · rw [List.map_map, hp]
    show Except.ok (⟨p, (List.ofFn a.register).map fun r : ℕ => ((r : ℤ)).toNat⟩ : HyperLogLog) = _
    simp only [Int.toNat_natCast, List.map_id']
    rfl

/-! ## Events

Rows of counters that are not negative and all sum to one total. Such rows are the table of a family
of counts, and conversely. -/

theorem readRow_eq_ok {width : ℕ} {total : ℤ} {row : PyVal} {vs : List ℤ} :
    readRow width total row = .ok vs ↔ row = .list (vs.map .int)
      ∧ (vs.length = width ∧ (∀ v ∈ vs, 0 ≤ v ∧ v ≤ maxInt64) ∧ vs.sum = total) := by
  simp only [readRow, bind_eq_ok, failIf_eq_ok, exists_unit, asList_eq_ok, mapM_intIn, not_not,
    Except.ok.injEq]
  constructor
  · rintro ⟨_, rfl, hlen, vs', ⟨rfl, hvs⟩, hsum, rfl⟩
    exact ⟨rfl, by simpa using hlen, hvs, hsum⟩
  · rintro ⟨rfl, hlen, hvs, hsum⟩
    exact ⟨_, rfl, by simpa using hlen, vs, ⟨rfl, hvs⟩, hsum, rfl⟩

theorem mapM_readRow {width : ℕ} {total : ℤ} {rows : List PyVal} {table : List (List ℤ)} :
    rows.mapM (readRow width total) = .ok table
      ↔ rows = table.map (fun vs => .list (vs.map .int)) ∧ ∀ vs ∈ table,
        vs.length = width ∧ (∀ v ∈ vs, 0 ≤ v ∧ v ≤ maxInt64) ∧ vs.sum = total :=
  mapM_eq_ok_of_iff fun _ _ => readRow_eq_ok

/-- Rows of non-negative cells that all sum to the total are a Count-Min table. -/
theorem exists_ofCounts {width depth : ℕ} {total : ℕ} {table : List (List ℤ)}
    (hdepth : table.length = depth)
    (hrows : ∀ vs ∈ table, vs.length = width ∧ (∀ v ∈ vs, 0 ≤ v) ∧ vs.sum = total) :
    ∃ a : EventCounts width depth, (⟨width, depth, table, total⟩ : CountMinSketch) = .ofCounts a
      ∧ a.total = total := by
  obtain ⟨f, rfl⟩ := List.exists_eq_ofFn hdepth
  have hrow : ∀ r, ∃ g : Fin width → ℕ, f r = List.ofFn fun j => (g j : ℤ) := by
    intro r
    obtain ⟨hlen, hnonneg, -⟩ := hrows (f r) (List.mem_ofFn.mpr ⟨r, rfl⟩)
    obtain ⟨g, hg⟩ := List.exists_eq_ofFn hlen
    refine ⟨fun j => (g j).toNat, ?_⟩
    rw [hg]
    congr 1
    funext j
    exact (Int.toNat_of_nonneg (hnonneg (g j) (hg ▸ List.mem_ofFn.mpr ⟨j, rfl⟩))).symm
  choose g hg using hrow
  refine ⟨⟨g, total, fun r => ?_⟩, ?_, rfl⟩
  · have hsum := (hrows (f r) (List.mem_ofFn.mpr ⟨r, rfl⟩)).2.2
    rw [hg r, List.sum_ofFn_natCast] at hsum
    exact_mod_cast hsum
  · rw [CountMinSketch.ofCounts]
    congr 2
    funext r
    exact hg r

theorem readEvents_sound {d : Items} {e : CountMinSketch} (h : readEvents d = .ok e) :
    ∃ width depth, 0 < width ∧ 0 < depth ∧ width ≤ 1000000 / depth
      ∧ ∃ a : EventCounts width depth, e = .ofCounts a ∧ a.total ≤ maxInt64 := by
  simp only [readEvents, bind_eq_ok, failIf_eq_ok, exists_unit, item_eq_ok, intIn_eq_ok,
    intFrom_eq_ok, asList_eq_ok, mapM_readRow, not_not] at h
  obtain ⟨-, -, -, -, w, ⟨rfl, hw⟩, dp, ⟨rfl, hdp⟩, hcells, -, -, tot, ⟨rfl, ht0, ht⟩, -, -, -, rfl,
    hlen, table, ⟨rfl, hrows⟩, h⟩ := h
  cases h
  obtain ⟨wn, rfl⟩ := Int.eq_ofNat_of_zero_le (by omega : 0 ≤ w)
  obtain ⟨dn, rfl⟩ := Int.eq_ofNat_of_zero_le (by omega : 0 ≤ dp)
  obtain ⟨tn, rfl⟩ := Int.eq_ofNat_of_zero_le ht0
  rw [List.length_map, Int.toNat_natCast] at hlen
  obtain ⟨a, ha, hat⟩ : ∃ a : EventCounts wn dn,
      (⟨wn, dn, table, tn⟩ : CountMinSketch) = .ofCounts a ∧ a.total = tn :=
    exists_ofCounts hlen fun vs hvs =>
      ⟨(hrows vs hvs).1, fun v hv => ((hrows vs hvs).2.1 v hv).1, (hrows vs hvs).2.2⟩
  refine ⟨wn, dn, by omega, by omega, ?_, a, ha, by omega⟩
  rw [not_lt, StreamLog.maxCmsCells] at hcells
  exact_mod_cast hcells

structure IsEventsDoc (e : CountMinSketch) (d : Items) : Prop where
  width : d.lookup (.str "width") = some (.int e.width)
  depth : d.lookup (.str "depth") = some (.int e.depth)
  table : d.lookup (.str "table") = some (.list (e.table.map fun row => .list (row.map .int)))
  total : d.lookup (.str "total") = some (.int e.total)

theorem readEvents_complete {width depth : ℕ} (hw : 0 < width) (hd0 : 0 < depth)
    (hcells : width ≤ 1000000 / depth) (a : EventCounts width depth) (ha : a.total ≤ maxInt64)
    {d : Items} (hd : IsEventsDoc (.ofCounts a) d) : readEvents d = .ok (.ofCounts a) := by
  simp only [readEvents, bind_eq_ok, failIf_eq_ok, exists_unit, item_eq_ok, intIn_eq_ok,
    intFrom_eq_ok, asList_eq_ok, mapM_readRow, not_not]
  refine ⟨_, hd.width, _, hd.depth, (width : ℤ), ⟨rfl, by omega⟩, (depth : ℤ), ⟨rfl, by omega⟩, ?_, _,
    hd.total, (a.total : ℤ), ⟨rfl, by omega, by omega⟩, _, hd.table, _, rfl, ?_,
    (CountMinSketch.ofCounts a).table, ⟨rfl, ?_⟩, ?_⟩
  · rw [not_lt, StreamLog.maxCmsCells]
    exact_mod_cast hcells
  · rw [List.length_map]
    exact List.length_ofFn
  · intro vs hvs
    obtain ⟨r, rfl⟩ := List.mem_ofFn.mp hvs
    refine ⟨List.length_ofFn, ?_, ?_⟩
    · intro v hv
      obtain ⟨j, rfl⟩ := List.mem_ofFn.mp hv
      have := a.table_le_total r j
      omega
    · rw [List.sum_ofFn_natCast, a.row_sum]
  · rfl

/-! ## The log

The parts are read one after another, and the total is compared last. An accepted document gives a
log that represents coherent contents within all limits. -/

namespace StreamLog

/-- The empty log of a configuration. -/
def emptyOf (S : Shape) (deterministic : Bool) : StreamLog :=
  ⟨.empty S.alpha, .empty S.width S.depth, .empty S.p, 0, deterministic⟩

theorem represents_emptyOf (S : Shape) (deterministic : Bool) :
    (emptyOf S deterministic).Represents (0 : Contents S) :=
  ⟨rfl, DDSketch.represents_empty S.alpha, CountMinSketch.ofCounts_zero.symm,
    (HyperLogLog.ofRegisters_zero S.p).symm, by simp [emptyOf]⟩

/-- The constructor accepts exactly the configurations that are bounded shapes. -/
theorem new_eq_ok {cfg : Config} {log : StreamLog} :
    new cfg = .ok log ↔ ∃ S : Shape, S.Bounded
      ∧ cfg.relativeAccuracy = .fin ⟨S.alpha, S.alpha_isBinary64⟩ ∧ cfg.hllPrecision = S.p
        ∧ cfg.cmsWidth = S.width ∧ cfg.cmsDepth = S.depth
      ∧ log = emptyOf S cfg.deterministic := by
  simp only [new, CountMinSketch.new, HyperLogLog.new, bind_eq_ok, failIf_eq_ok, exists_unit,
    DDSketch.new_eq_ok, Except.ok.injEq]
  constructor
  · -- the four integers are within the limits the constructor checks, so they are naturals
    rintro ⟨hdims, hcells, _, ⟨x, hx, hge, hlt, rfl⟩, _, ⟨-, -, rfl⟩, _, ⟨hp, rfl⟩, rfl⟩
    rw [not_or, not_le, not_le] at hdims
    rw [not_not] at hp
    obtain ⟨w, hw⟩ := Int.eq_ofNat_of_zero_le hdims.1.le
    obtain ⟨dp, hdp⟩ := Int.eq_ofNat_of_zero_le hdims.2.le
    obtain ⟨p, hpr⟩ := Int.eq_ofNat_of_zero_le (by omega : 0 ≤ cfg.hllPrecision)
    rw [hw, hdp, not_lt, maxCmsCells] at hcells
    refine ⟨⟨x.val, p, w, dp, x.isBinary64, hge, hlt, by omega, by omega, by omega, by omega⟩,
      by exact_mod_cast hcells, hx, hpr, hw, hdp, ?_⟩
    simp [emptyOf, hw, hdp, hpr]
  · -- conversely a shape keeps those limits, and its fields pass every check
    rintro ⟨S, hcells, hx, hp, hw, hdp, rfl⟩
    have hw0 := S.width_pos
    have hd0 := S.depth_pos
    have hp4 := S.p_ge
    have hp18 := S.p_le
    refine ⟨by omega, ?_, _, ⟨_, hx, S.alpha_ge, S.alpha_lt, rfl⟩, _, ⟨by omega, by omega, rfl⟩, _,
      ⟨by omega, rfl⟩, ?_⟩
    · rw [hw, hdp, not_lt, maxCmsCells]
      exact_mod_cast hcells
    · simp [emptyOf, hw, hdp, hp]

/-- A well-formed log: it holds contents of its configuration that fit, with coherent extrema. -/
structure Sound (M : IndexMapping) (log : StreamLog) {S : Shape} (c : Contents S) : Prop where
  bounded : S.Bounded
  represents : log.Represents c
  fits : c.Fits
  coherent : Coherent M S.alpha c.latency

theorem readDict_sound {M : IndexMapping} {d : Items} {log : StreamLog}
    (h : readDict M d = .ok log) : ∃ S, ∃ c : Contents S, log.Sound M c := by
  simp only [readDict, bind_eq_ok, failIf_eq_ok, exists_unit, item_eq_ok, intIn_eq_ok, asDict_eq_ok,
    new_eq_ok, not_not] at h
  obtain ⟨-, -, -, total, ⟨-, -, htotal⟩, det, -, _, -, ld, -, ⟨x, l⟩, hl, _, -, ud, -, u, hu, _, -, ed,
    -, e, he, hsum, _,
    ⟨S, hcells, hx, hp, hw, hdp, rfl⟩, h⟩ := h
  obtain ⟨halpha, -, -, t, ht, htf, htc⟩ := readLatency_sound hl
  obtain ⟨p, -, -, a, rfl⟩ := readUniques_sound hu
  obtain ⟨width, depth, -, -, -, b, rfl, hb⟩ := readEvents_sound he
  obtain ⟨alpha, p', width', depth', hbin, hge, hlt, hp4, hp18, hw0, hd0⟩ := S
  -- the configuration of the constructed log is that of the three sketches
  obtain rfl : p = p' := by exact_mod_cast hp
  obtain rfl : width = width' := by exact_mod_cast hw
  obtain rfl : depth = depth' := by exact_mod_cast hdp
  obtain rfl : x = ⟨alpha, hbin⟩ := PyFloat.fin.inj hx
  cases h
  have hcount : (total : ℤ) = ((t.count + b.total : ℕ) : ℤ) := by
    rw [hsum, ht.count]
    push_cast
    rfl
  refine ⟨⟨alpha, p, width, depth, hbin, hge, hlt, hp4, hp18, hw0, hd0⟩, ⟨t, b, a⟩, hcells,
    ⟨rfl, ?_, rfl, rfl, hcount⟩, ⟨htf, hb, ?_⟩, ?_⟩
  · exact ⟨ht.positive, ht.negative, ht.zeroCount, ht.count, ht.min, ht.max⟩
  · show t.count + b.total ≤ maxUInt64
    omega
  · rw [halpha] at htc
    exact htc

/-- `from_dict` returns well-formed logs only. -/
theorem fromDict_sound {M : IndexMapping} {data : PyVal} {log : StreamLog}
    (h : fromDict M data = .ok log) : ∃ S, ∃ c : Contents S, log.Sound M c := by
  cases data with
  | dict d =>
    simp only [fromDict] at h
    split at h
    · next log' hread =>
      cases h
      exact readDict_sound hread
    · cases h
  | _ => cases h

/-- The entries of a document of `log`, with bucket keys encoded by `enc`. -/
structure IsLogDoc (enc : ℤ → PyKey) (log : StreamLog) (d : Items) : Prop where
  version : d.lookup (.str "version") = some (.int 1)
  total : d.lookup (.str "total") = some (.int log.total)
  deterministic : d.lookup (.str "deterministic") = some (.bool log.deterministic)
  latency : ∃ ld, d.lookup (.str "latency") = some (.dict ld) ∧ IsLatencyDoc enc log.latency ld
  uniques : ∃ ud, d.lookup (.str "uniques") = some (.dict ud) ∧ IsUniquesDoc log.uniques ud
  events : ∃ ed, d.lookup (.str "events") = some (.dict ed) ∧ IsEventsDoc log.events ed

/-- `from_dict` restores a well-formed log from its own document. -/
theorem fromDict_complete {M : IndexMapping} {enc : ℤ → PyKey}
    (henc : ∀ k, bucketIndex (enc k) = .ok k) {log : StreamLog} {S : Shape} {c : Contents S}
    (h : log.Sound M c) {d : Items} (hd : IsLogDoc enc log d) : fromDict M (.dict d) = .ok log := by
  obtain ⟨latency, events, uniques, total, det⟩ := log
  obtain ⟨hcells, ⟨halpha, hlat, hev, huni, htot⟩, hf, hcoh⟩ := h
  simp only at halpha hlat hev huni htot
  subst hev huni
  obtain ⟨ld, hld, hldoc⟩ := hd.latency
  obtain ⟨ud, hud, hudoc⟩ := hd.uniques
  obtain ⟨ed, hed, hedoc⟩ := hd.events
  -- each field of the document passes its reader, in the order the source reads them
  have hread : readDict M d
    = .ok ⟨latency, .ofCounts c.events, .ofRegisters c.uniques, total, det⟩ := by
    have hle := hf.total_le
    simp only [readDict, bind_eq_ok, failIf_eq_ok, exists_unit, item_eq_ok, intIn_eq_ok, asDict_eq_ok,
      new_eq_ok, not_not]
    refine ⟨?_, _, hd.total, total, ⟨rfl, by omega, by omega⟩, det, ?_, _, hld, _, rfl,
      ⟨⟨latency.alpha, halpha ▸ S.alpha_isBinary64⟩, latency⟩, ?_, _, hud, _, rfl, _,
      readUniques_complete S.p_ge S.p_le c.uniques hudoc, _, hed, _, rfl, _,
      readEvents_complete S.width_pos S.depth_pos hcells c.events hf.events_le hedoc, ?_, _,
      ⟨S, hcells, ?_, rfl, rfl, rfl, rfl⟩, ?_⟩
    · rw [get_of_lookup hd.version]
      rfl
    · rw [Items.getOr, hd.deterministic]
      rfl
    · exact readLatency_complete henc hlat hf.latency (halpha ▸ hcoh) _ (halpha ▸ S.alpha_ge)
        (halpha ▸ S.alpha_lt) hldoc
    · rw [htot, hlat.count]
      show ((c.latency.count + c.events.total : ℕ) : ℤ) = c.latency.count + c.events.total
      push_cast
      rfl
    · simp only [halpha]
    · show Except.ok (⟨{ latency with alpha := S.alpha }, .ofCounts c.events, .ofRegisters c.uniques,
        total, det⟩ : StreamLog) = _
      rw [← halpha]
  rw [fromDict, hread]

/-! ## `to_dict` -/

theorem toDict_isLogDoc (log : StreamLog) : ∃ d, log.toDict = .dict d ∧ IsLogDoc .int log d :=
  ⟨_, rfl, rfl, rfl, rfl, ⟨_, rfl, ⟨rfl, rfl, rfl, rfl, rfl, rfl, rfl⟩⟩, ⟨_, rfl, ⟨rfl, rfl⟩⟩,
    ⟨_, rfl, ⟨rfl, rfl, rfl, rfl⟩⟩⟩

theorem fromDict_toDict {M : IndexMapping} {log : StreamLog} {S : Shape} {c : Contents S}
    (h : log.Sound M c) : fromDict M log.toDict = .ok log := by
  obtain ⟨d, hd, hdoc⟩ := toDict_isLogDoc log
  rw [hd]
  exact fromDict_complete bucketIndex_int h hdoc

end StreamLog

/-! ## JSON

A document that has been through JSON is still the document of the same log, so reading after
writing holds for both. -/

theorem set_of_notMem {d : Items} {k : PyKey} (v : PyVal) (h : k ∉ d.map Prod.fst) :
    Items.set d k v = d ++ [(k, v)] := by
  have hany : ¬ d.any (·.1 == k) = true := by
    intro hany
    obtain ⟨e, he, hk⟩ := List.any_eq_true.mp hany
    exact h (List.mem_map.mpr ⟨e, he, by simpa using hk⟩)
  rw [Items.set, if_neg hany]

/-- Items whose keys stay apart as strings come back one by one. -/
theorem itemsThroughJson_append (acc items : Items)
    (h : (acc.map Prod.fst ++ items.map fun e => PyKey.str e.1.text).Nodup) :
    itemsThroughJson acc items
      = acc ++ items.map fun e => (PyKey.str e.1.text, throughJson e.2) := by
  induction items generalizing acc with
  | nil => simp [itemsThroughJson]
  | cons e items ih =>
    have hnot : PyKey.str e.1.text ∉ acc.map Prod.fst := by
      rw [List.map_cons] at h
      exact fun hmem => (List.nodup_append.mp h).2.2 _ hmem _ (by simp) rfl
    rw [itemsThroughJson, set_of_notMem _ hnot, ih]
    · simp
    · rw [List.map_append, List.append_assoc]
      simpa using h

theorem itemsThroughJson_eq {items : Items}
    (h : (items.map fun e => PyKey.str e.1.text).Nodup) :
    itemsThroughJson [] items = items.map fun e => (PyKey.str e.1.text, throughJson e.2) := by
  simpa using itemsThroughJson_append [] items (by simpa using h)

theorem throughJson_ofRat (q : ℚ) : throughJson (.ofRat q) = .ofRat q := by
  unfold PyVal.ofRat
  split <;> rfl

theorem throughJson_ofERat (q : ERat) : throughJson (.ofERat q) = .ofERat q := by
  unfold PyVal.ofERat
  split
  · exact throughJson_ofRat _
  · rfl
  · rfl

theorem listThroughJson_int (xs : List ℤ) :
    listThroughJson (xs.map .int) = xs.map .int := by
  induction xs with
  | nil => rfl
  | cons x xs ih => rw [List.map_cons, listThroughJson, ih]; rfl

theorem listThroughJson_rows (rows : List (List ℤ)) :
    listThroughJson (rows.map fun row => .list (row.map .int))
      = rows.map fun row => .list (row.map .int) := by
  induction rows with
  | nil => rfl
  | cons row rows ih =>
    rw [List.map_cons, listThroughJson, ih, throughJson, listThroughJson_int]

theorem throughJson_binsDict (m : Bins) :
    throughJson (binsDict m)
      = .dict (m.toList.map fun e => (.str (toString e.1), .int e.2)) := by
  have hnodup : ((m.toList.map fun e => (PyKey.int e.1, PyVal.int e.2)).map
      fun e => PyKey.str e.1.text).Nodup := by
    rw [List.map_map]
    have hkeys : (m.toList.map Prod.fst).Nodup := by
      rw [Std.ExtTreeMap.map_fst_toList_eq_keys]
      exact Std.ExtTreeMap.nodup_keys
    have hinj : Function.Injective fun k : ℤ => PyKey.str (toString k) := by
      intro a b hab
      have hrepr : a.repr = b.repr := PyKey.str.inj hab
      exact Option.some.inj (by rw [← Int.toInt?_repr a, ← Int.toInt?_repr b, hrepr])
    have h := hkeys.map hinj
    rwa [List.map_map] at h
  rw [binsDict, throughJson, itemsThroughJson_eq hnodup, List.map_map]
  rfl

theorem throughJson_latencyDict (l : DDSketch) : ∃ d, throughJson (latencyDict l) = .dict d
    ∧ IsLatencyDoc (fun k => .str (toString k)) l d := by
  have hnodup : (["alpha", "positive", "negative", "zero_count", "count", "min", "max"].map
    PyKey.str).Nodup := by decide
  have hextremum : ∀ q : ERat, throughJson (if l.count > 0 then .ofERat q else .none)
      = if l.count > 0 then .ofERat q else .none := by
    intro q
    split
    · exact throughJson_ofERat q
    · rfl
  rw [latencyDict, throughJson, itemsThroughJson_eq]
  · refine ⟨_, rfl, ?_, congrArg some (throughJson_binsDict l.positive),
      congrArg some (throughJson_binsDict l.negative), rfl, rfl, congrArg some (hextremum l.min),
      congrArg some (hextremum l.max)⟩
    simp only [List.map_cons, PyKey.text, List.lookup_cons_self, throughJson_ofRat]
  · exact hnodup

theorem throughJson_uniquesDict (u : HyperLogLog) : ∃ d, throughJson (uniquesDict u) = .dict d
    ∧ IsUniquesDoc u d := by
  have hnodup : (["precision", "registers"].map PyKey.str).Nodup := by decide
  have hregisters : throughJson (.list (u.registers.map fun r : ℕ => .int r))
      = .list (u.registers.map fun r : ℕ => .int r) := by
    have h := listThroughJson_int (u.registers.map fun r : ℕ => (r : ℤ))
    rw [List.map_map] at h
    exact congrArg PyVal.list h
  rw [uniquesDict, throughJson, itemsThroughJson_eq]
  · exact ⟨_, rfl, rfl, congrArg some hregisters⟩
  · exact hnodup

theorem throughJson_eventsDict (e : CountMinSketch) : ∃ d, throughJson (eventsDict e) = .dict d
    ∧ IsEventsDoc e d := by
  have hnodup : (["width", "depth", "table", "total"].map PyKey.str).Nodup := by decide
  rw [eventsDict, throughJson, itemsThroughJson_eq]
  · exact ⟨_, rfl, rfl, rfl, congrArg some (congrArg PyVal.list (listThroughJson_rows e.table)), rfl⟩
  · exact hnodup

/-- A document that went through JSON is a document of the same log, with string keys. -/
theorem throughJson_isLogDoc (log : StreamLog) : ∃ d, throughJson log.toDict = .dict d
    ∧ StreamLog.IsLogDoc (fun k => .str (toString k)) log d := by
  have hnodup : (["version", "total", "deterministic", "latency", "uniques", "events"].map
    PyKey.str).Nodup := by decide
  obtain ⟨ld, hl, hld⟩ := throughJson_latencyDict log.latency
  obtain ⟨ud, hu, hud⟩ := throughJson_uniquesDict log.uniques
  obtain ⟨ed, he, hed⟩ := throughJson_eventsDict log.events
  rw [StreamLog.toDict, throughJson, itemsThroughJson_eq]
  · exact ⟨_, rfl, rfl, rfl, rfl, ⟨ld, congrArg some hl, hld⟩, ⟨ud, congrArg some hu, hud⟩,
      ⟨ed, congrArg some he, hed⟩⟩
  · exact hnodup

theorem StreamLog.fromDict_throughJson {M : IndexMapping} {log : StreamLog} {S : Shape}
    {c : Contents S} (h : log.Sound M c) : fromDict M (throughJson log.toDict) = .ok log := by
  obtain ⟨d, hd, hdoc⟩ := throughJson_isLogDoc log
  rw [hd]
  exact fromDict_complete bucketIndex_str h hdoc

end Sketchlog
