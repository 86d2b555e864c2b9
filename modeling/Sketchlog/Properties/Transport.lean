import Sketchlog.Properties.MergeDecoding
import Sketchlog.Refine.FacadeDocuments

/-!
# States sent as strings come back

`stream_ws` writes the counts of a document as decimal strings, and `merge_stream` reads them.
Between the two the document goes through JSON. A document is followed by what is found under its
keys, with its counts shown in one way or the other (`IsDoc`); a count has at most twenty digits,
and the limit of `int` is at 4300.
-/

namespace Sketchlog.Server

open Checked

/-! ## Counts as strings

A count is printed in digits and read back, as it is shorter than the limit on digits. -/

/-- A number that a log counts up to. -/
def IsCounted (n : ℤ) : Prop := 0 ≤ n ∧ n ≤ maxUInt64

theorem decimalValue?_of_isDigit {c : Char} (h : c.isDigit = true) :
    decimalValue? c = some (c.toNat - '0'.toNat) := by
  obtain ⟨hlo, hhi⟩ := Char.isDigit_iff_toNat.mp h
  have hrange : 48 ≤ c.toNat ∧ c.toNat < 48 + 10 := ⟨hlo, Nat.lt_succ_of_le hhi⟩
  show (List.find? _ (48 :: _)).map _ = _
  rw [List.find?_cons, decide_eq_true hrange]
  rfl

/-- A text of decimal digits is read as its number. -/
theorem intOf_repr {n : ℕ} (h : n < 10 ^ maxStrDigits) : intOf n.repr = .ok (n : ℤ) := by
  -- the digits are ASCII, so the scan takes all of them
  have hdigits : ∀ c ∈ n.repr.toList, c.isDigit = true := by
    intro c hc
    rw [Nat.toList_repr] at hc
    exact Nat.isDigit_of_mem_toDigits (by decide) (by decide) hc
  have hdecimal : n.repr.toList.takeWhile isDecimal = n.repr.toList := by
    apply List.takeWhile_eq_self_iff.mpr
    intro c hc
    rw [isDecimal, decimalValue?_of_isDigit (hdigits c hc)]
    rfl
  have hlength : n.repr.toList.length ≤ maxStrDigits := by
    rw [Nat.toList_repr]
    exact (Nat.length_toDigits_le_iff (by decide) (by decide)).mpr h
  -- the value the scan reads is the one the printer wrote
  have hvalue : n.repr.toList.foldl (fun (n : ℕ) c => 10 * n + (decimalValue? c).getD 0) 0 = n := by
    have hfold : n.repr.toList.foldl (fun (n : ℕ) c => 10 * n + (decimalValue? c).getD 0) 0
        = Nat.ofDigitChars 10 n.repr.toList 0 := by
      rw [Nat.ofDigitChars_eq_foldl]
      apply List.foldl_ext
      intro m c hc
      rw [decimalValue?_of_isDigit (hdigits c hc)]
      rfl
    rw [hfold, Nat.toList_repr, Nat.ofDigitChars_ten_toDigits]
  simp only [intOf, hdecimal, bind_eq_ok, exists_unit, failIf_eq_ok, ne_eq, not_true_eq_false,
    not_false_eq_true,
    not_lt, hvalue, and_true]
  exact hlength

theorem decimal_toString {n : ℤ} (h : IsCounted n) (msg : String) :
    decimal msg (toString n) = .ok n := by
  obtain ⟨m, hm⟩ := Int.eq_ofNat_of_zero_le h.1
  subst hm
  have hshort : m < 10 ^ maxStrDigits := by
    -- a counter has at most twenty digits
    have hle : m ≤ maxUInt64 := by exact_mod_cast h.2
    have hpow : maxUInt64 < 10 ^ 20 := by norm_num [maxUInt64]
    have hmono : 10 ^ 20 ≤ 10 ^ maxStrDigits := Nat.pow_le_pow_right (by decide) (by decide)
    omega
  have hint : intOf (toString (m : ℤ)) = .ok (m : ℤ) := intOf_repr hshort
  -- every character is a digit and there is at least one
  have hdigit : isDigit (toString (m : ℤ)) = true := by
    have hall : ∀ c ∈ m.repr.toList, isDigitChar c = true := by
      intro c hc
      rw [Nat.toList_repr] at hc
      have hc := Nat.isDigit_of_mem_toDigits (by decide) (by decide) hc
      rw [isDigitChar, isDecimal, decimalValue?_of_isDigit hc]
      rfl
    have hne : m.repr.toList ≠ [] := by
      rw [Nat.toList_repr]
      exact Nat.toDigits_ne_nil
    show (decide (m.repr.toList ≠ []) && m.repr.toList.all isDigitChar) = true
    rw [decide_eq_true hne, Bool.true_and]
    exact List.all_eq_true.mpr hall
  rw [decimal, failIf, if_neg (by rw [hdigit]; decide), hint]
  rfl

/-! ## Accesses

Encoding and decoding go through the same fields in the same order, and the decoding undoes the
encoding. -/

theorem lookup_set_self {d : Items} {k : PyKey} {v : PyVal} : (Items.set d k v).lookup k = some v := by
  unfold Items.set
  split
  · next hany =>
    induction d with
    | nil => cases hany
    | cons e rest ih =>
      rw [List.map_cons, List.lookup_cons]
      by_cases hkey : e.1 = k
      · rw [if_pos hkey, beq_self_eq_true]
      · have hne : (k == e.1) = false := beq_eq_false_iff_ne.mpr (Ne.symm hkey)
        rw [if_neg hkey, hne]
        refine ih ?_
        rw [List.any_cons, beq_eq_false_iff_ne.mpr hkey, Bool.false_or] at hany
        exact hany
  · next hany =>
    have hnone : d.lookup k = none := by
      apply List.lookup_eq_none_iff.mpr
      intro e he
      have hne := List.any_eq_false.mp (Bool.eq_false_iff.mpr hany) e he
      exact bne_iff_ne.mpr fun heq => hne (beq_iff_eq.mpr heq.symm)
    rw [List.lookup_append, hnone, List.lookup_cons, beq_self_eq_true]
    rfl

theorem lookup_set (d : Items) (k k' : PyKey) (v : PyVal) :
    (Items.set d k v).lookup k' = if k' = k then some v else d.lookup k' := by
  split
  · next heq => rw [heq, lookup_set_self]
  · next hne => exact lookup_set_of_ne hne

theorem getItem_of_lookup {d : Items} {key : String} {v : PyVal} (h : d.lookup (.str key) = some v) :
    getItem (.dict d) key = .ok v := getItem_eq_ok.mpr ⟨d, rfl, h⟩

/-- A count as a string. -/
def textOf (n : ℤ) : PyVal := .str (toString n)

theorem encodeField_eq {d : Items} {key : String} {n : ℤ} (h : d.lookup (.str key) = some (.int n)) :
    encodeField (.dict d) key = .ok (.dict (d.set (.str key) (textOf n))) := by
  rw [encodeField, getItem_of_lookup h]
  rfl

theorem decodeField_eq {d : Items} {key : String} {n : ℤ} (h : d.lookup (.str key) = some (textOf n))
    (hn : IsCounted n) : decodeField (.dict d) key = .ok (.dict (d.set (.str key) (.int n))) := by
  rw [decodeField, getItem_of_lookup h]
  show (decimal _ (toString n) >>= fun n => .ok (setItem (.dict d) key (.int n))) = _
  rw [decimal_toString hn]
  rfl

/-- The entries of a bucket group; `num` shows a count. -/
def groupOf (enc : ℤ → PyKey) (num : ℤ → PyVal) (bins : List (ℤ × ℤ)) : PyVal :=
  .dict (bins.map fun e => (enc e.1, num e.2))

/-- The rows of a table; `num` shows a count. -/
def tableOf (num : ℤ → PyVal) (table : List (List ℤ)) : PyVal :=
  .list (table.map fun row => .list (row.map num))

theorem encodeGroup_eq {d : Items} {bucketGroup : String} {enc : ℤ → PyKey} {bins : List (ℤ × ℤ)}
    (h : d.lookup (.str bucketGroup) = some (groupOf enc .int bins)) :
    encodeGroup (.dict d) bucketGroup
      = .ok (.dict (d.set (.str bucketGroup) (groupOf enc textOf bins))) := by
  rw [encodeGroup, getItem_of_lookup h]
  show Except.ok (setItem (.dict d) bucketGroup (.dict (List.map _ (bins.map _)))) = _
  rw [List.map_map]
  rfl

theorem decodeGroup_eq {d : Items} {bucketGroup : String} {enc : ℤ → PyKey} {bins : List (ℤ × ℤ)}
    (h : d.lookup (.str bucketGroup) = some (groupOf enc textOf bins))
    (hbins : ∀ e ∈ bins, IsCounted e.2) :
    decodeGroup (.dict d) bucketGroup
      = .ok (.dict (d.set (.str bucketGroup) (groupOf enc .int bins))) := by
  have hitems : (bins.map fun e => (enc e.1, textOf e.2)).mapM (fun kv => do
      let value ← decodeCount "bucket counts must be decimal integers" kv.2
      Except.ok (kv.1, value)) = Except.ok (ε :=
        Raised) (bins.map fun e => (enc e.1, PyVal.int e.2)) := by
    apply mapM_eq_ok.mpr
    rw [List.forall₂_map_right_iff, List.forall₂_map_left_iff]
    apply List.forall₂_same.mpr
    intro e he
    rw [textOf, decodeCount, decimal_toString (hbins e he)]
    rfl
  rw [decodeGroup, getItem_of_lookup h]
  show (List.mapM _ _ >>= fun items => Except.ok (setItem (.dict d) bucketGroup (.dict items))) = _
  rw [hitems]
  rfl

theorem encodeTable_eq {d : Items} {table : List (List ℤ)}
    (h : d.lookup (.str "table") = some (tableOf .int table)) :
    encodeTable (.dict d) = .ok (.dict (d.set (.str "table") (tableOf textOf table))) := by
  have hrows : (table.map fun row => PyVal.list (row.map .int)).mapM encodeRow
      = .ok (table.map fun row => PyVal.list (row.map textOf)) := by
    apply mapM_eq_ok.mpr
    rw [List.forall₂_map_right_iff, List.forall₂_map_left_iff]
    apply List.forall₂_same.mpr
    intro row _
    rw [encodeRow, List.map_map]
    rfl
  rw [encodeTable, getItem_of_lookup h]
  show (List.mapM encodeRow _ >>= fun rows => Except.ok (setItem (.dict d) "table" (.list rows))) = _
  rw [hrows]
  rfl

theorem decodeTable_eq {d : Items} {table : List (List ℤ)}
    (h : d.lookup (.str "table") = some (tableOf textOf table))
    (htable : ∀ row ∈ table, ∀ n ∈ row, IsCounted n) :
    decodeTable (.dict d) = .ok (.dict (d.set (.str "table") (tableOf .int table))) := by
  have hrows : (table.map fun row => PyVal.list (row.map textOf)).mapM decodeRow
      = .ok (table.map fun row => PyVal.list (row.map .int)) := by
    apply mapM_eq_ok.mpr
    rw [List.forall₂_map_right_iff, List.forall₂_map_left_iff]
    apply List.forall₂_same.mpr
    intro row hrow
    have hcells : (row.map textOf).mapM (decodeCount "event table counts must be decimal integers")
        = .ok (row.map .int) := by
      apply mapM_eq_ok.mpr
      rw [List.forall₂_map_right_iff, List.forall₂_map_left_iff]
      apply List.forall₂_same.mpr
      intro n hn
      rw [textOf, decodeCount, decimal_toString (htable row hrow n hn)]
      rfl
    rw [decodeRow, hcells]
    rfl
  rw [decodeTable, getItem_of_lookup h]
  show (List.mapM decodeRow _ >>= fun rows => Except.ok (setItem (.dict d) "table" (.list rows))) = _
  rw [hrows]
  rfl

/-! ## Through JSON

What is left of a message after JSON: keys are strings already, so nothing collides. -/

/-- The keys are strings, and distinct. -/
def StringKeys (d : Items) : Prop :=
  ∃ names : List String, d.map Prod.fst = names.map .str ∧ names.Nodup

theorem StringKeys.set {d : Items} (h : StringKeys d) (name : String) (v : PyVal) :
    StringKeys (d.set (.str name) v) := by
  obtain ⟨names, hkeys, hnodup⟩ := h
  unfold Items.set
  -- an existing name keeps its place, a new one goes to the end
  split
  · refine ⟨names, ?_, hnodup⟩
    rw [← hkeys, List.map_map]
    apply List.map_congr_left
    intro e _
    show (if e.1 = PyKey.str name then (PyKey.str name, v) else e).1 = e.1
    split
    · next heq => exact heq.symm
    · rfl
  · next hany =>
    refine ⟨names ++ [name], ?_, ?_⟩
    · rw [List.map_append, List.map_append, hkeys]
      rfl
    · refine List.nodup_append.mpr ⟨hnodup, List.nodup_singleton name, ?_⟩
      intro other hother _ hname heq
      rw [List.mem_singleton.mp hname] at heq
      have hmem : PyKey.str name ∈ d.map Prod.fst := by
        rw [hkeys, ← heq]
        exact List.mem_map_of_mem hother
      obtain ⟨e, he, hkey⟩ := List.mem_map.mp hmem
      exact hany (List.any_eq_true.mpr ⟨e, he, beq_iff_eq.mpr hkey⟩)

theorem StringKeys.itemsThroughJson_eq {d : Items} (h : StringKeys d) :
    itemsThroughJson [] d = d.map fun e => (e.1, throughJson e.2) := by
  obtain ⟨names, hkeys, hnodup⟩ := h
  have hstr : ∀ e ∈ d, PyKey.str e.1.text = e.1 := by
    intro e he
    have hmem : e.1 ∈ names.map PyKey.str := hkeys ▸ List.mem_map_of_mem he
    obtain ⟨other, -, heq⟩ := List.mem_map.mp hmem
    rw [← heq]
    rfl
  have htexts : (d.map fun e => PyKey.str e.1.text) = names.map .str := by
    rw [← hkeys]
    exact List.map_congr_left hstr
  rw [Sketchlog.itemsThroughJson_eq (htexts ▸ hnodup.map fun a b hab => PyKey.str.inj hab)]
  apply List.map_congr_left
  intro e he
  rw [hstr e he]

theorem StringKeys.json {d : Items} (h : StringKeys d) : StringKeys (itemsThroughJson [] d) := by
  rw [h.itemsThroughJson_eq]
  obtain ⟨names, hkeys, hnodup⟩ := h
  refine ⟨names, ?_, hnodup⟩
  rw [List.map_map, ← hkeys]
  rfl

/-- What is found in a dictionary that went through JSON. -/
theorem StringKeys.lookup_throughJson {d : Items} (h : StringKeys d) (name : String) :
    (itemsThroughJson [] d).lookup (.str name) = (d.lookup (.str name)).map throughJson := by
  rw [h.itemsThroughJson_eq]
  clear h
  induction d with
  | nil => rfl
  | cons e rest ih =>
    rw [List.map_cons, List.lookup_cons, List.lookup_cons]
    cases PyKey.str name == e.1 with
    | true => rfl
    | false => exact ih

theorem throughJson_texts (xs : List ℤ) : listThroughJson (xs.map textOf) = xs.map textOf := by
  induction xs with
  | nil => rfl
  | cons x xs ih =>
    rw [List.map_cons, listThroughJson, ih]
    rfl

theorem throughJson_tableOf (table : List (List ℤ)) :
    throughJson (tableOf textOf table) = tableOf textOf table := by
  have hrows : listThroughJson (table.map fun row => PyVal.list (row.map textOf))
      = table.map fun row => PyVal.list (row.map textOf) := by
    induction table with
    | nil => rfl
    | cons row table ih => rw [List.map_cons, listThroughJson, ih, throughJson, throughJson_texts]
  rw [tableOf, throughJson, hrows]

/-- The keys of a bucket group come back as strings. -/
theorem throughJson_groupOf {enc : ℤ → PyKey} (henc : ∀ k, (enc k).text = toString k) (b : Bins) :
    throughJson (groupOf enc textOf b.toList) = groupOf (fun k =>
      .str (toString k)) textOf b.toList := by
  have hnodup : ((b.toList.map fun e => (enc e.1, textOf e.2)).map fun e =>
    PyKey.str e.1.text).Nodup := by
    have hkeys : (b.toList.map Prod.fst).Nodup := by
      rw [Std.ExtTreeMap.map_fst_toList_eq_keys]
      exact Std.ExtTreeMap.nodup_keys
    have hstr := hkeys.map toString_key_injective
    rw [List.map_map] at hstr ⊢
    have hcongr : b.toList.map ((fun e => PyKey.str e.1.text) ∘ fun e => (enc e.1, textOf e.2))
        = b.toList.map ((fun k : ℤ => PyKey.str (toString k)) ∘ Prod.fst) := by
      apply List.map_congr_left
      intro e _
      show PyKey.str (enc e.1).text = _
      rw [henc]
      rfl
    rw [hcongr]
    exact hstr
  rw [groupOf, throughJson, itemsThroughJson_eq hnodup, List.map_map]
  refine congrArg PyVal.dict (List.map_congr_left fun e _ => ?_)
  show (PyKey.str (enc e.1).text, textOf e.2) = _
  rw [henc]

/-! ## Documents on the way -/

/-- The document `d` of a log, with its counts as `num` shows them. -/
structure IsDoc (enc : ℤ → PyKey) (num : ℤ → PyVal) (log : StreamLog) (d ld ed : Items) : Prop where
  keys : StringKeys d
  latencyKeys : StringKeys ld
  eventsKeys : StringKeys ed
  version : d.lookup (.str "version") = some (.int 1)
  total : d.lookup (.str "total") = some (num log.total)
  deterministic : d.lookup (.str "deterministic") = some (.bool log.deterministic)
  uniques : ∃ ud, d.lookup (.str "uniques") = some (.dict ud) ∧ StringKeys ud
    ∧ IsUniquesDoc log.uniques ud
  latency : d.lookup (.str "latency") = some (.dict ld)
  events : d.lookup (.str "events") = some (.dict ed)
  alpha : ld.lookup (.str "alpha") = some (.ofRat log.latency.alpha)
  positive : ld.lookup (.str "positive") = some (groupOf enc num log.latency.positive.toList)
  negative : ld.lookup (.str "negative") = some (groupOf enc num log.latency.negative.toList)
  zeroCount : ld.lookup (.str "zero_count") = some (num log.latency.zeroCount)
  count : ld.lookup (.str "count") = some (num log.latency.count)
  min : ld.lookup (.str "min") = some (if log.latency.count > 0 then .ofERat log.latency.min else .none)
  max : ld.lookup (.str "max") = some (if log.latency.count > 0 then .ofERat log.latency.max else .none)
  width : ed.lookup (.str "width") = some (.int log.events.width)
  depth : ed.lookup (.str "depth") = some (.int log.events.depth)
  table : ed.lookup (.str "table") = some (tableOf num log.events.table)
  eventsTotal : ed.lookup (.str "total") = some (num log.events.total)

/-- The keys of a document and of its parts. -/
structure Keyed (d : Items) : Prop where
  keys : StringKeys d
  part : ∀ name part, d.lookup (.str name) = some (.dict part)
    → name ∈ ["latency", "uniques", "events"] →
    StringKeys part

/-- The counts of a log are numbers that it counts up to. -/
structure Counted (log : StreamLog) : Prop where
  total : IsCounted log.total
  zeroCount : IsCounted log.latency.zeroCount
  count : IsCounted log.latency.count
  eventsTotal : IsCounted log.events.total
  positive : ∀ e ∈ log.latency.positive.toList, IsCounted e.2
  negative : ∀ e ∈ log.latency.negative.toList, IsCounted e.2
  table : ∀ row ∈ log.events.table, ∀ n ∈ row, IsCounted n

/-- The latency part after its counts were assigned. -/
def setLatency (enc : ℤ → PyKey) (num : ℤ → PyVal) (l : DDSketch) (ld : Items) : Items :=
  (((ld.set (.str "zero_count") (num l.zeroCount)).set (.str "count") (num l.count)).set
    (.str "positive")
    (groupOf enc num l.positive.toList)).set (.str "negative") (groupOf enc num l.negative.toList)

/-- The events part after its counts were assigned. -/
def setEvents (num : ℤ → PyVal) (e : CountMinSketch) (ed : Items) : Items :=
  (ed.set (.str "total") (num e.total)).set (.str "table") (tableOf num e.table)

/-- A document after the assignments of `stream_ws` or `merge_stream`. -/
def setDoc (enc : ℤ → PyKey) (num : ℤ → PyVal) (log : StreamLog) (d ld ed : Items) : Items :=
  ((d.set (.str "total") (num log.total)).set (.str "latency")
    (.dict (setLatency enc num log.latency ld))).set
    (.str "events") (.dict (setEvents num log.events ed))

variable {enc : ℤ → PyKey} {num : ℤ → PyVal} {log : StreamLog} {d ld ed : Items}

theorem isDoc_of_isLogDoc (h : StreamLog.IsLogDoc enc log d) (hkeys : Keyed d) :
    ∃ ld ed, IsDoc enc .int log d ld ed := by
  obtain ⟨ld, hld, hl⟩ := h.latency
  obtain ⟨ud, hud, hu⟩ := h.uniques
  obtain ⟨ed, hed, he⟩ := h.events
  exact ⟨ld, ed, hkeys.keys, hkeys.part _ _ hld (by decide), hkeys.part _ _ hed (by decide),
    h.version, h.total,
    h.deterministic, ⟨ud, hud, hkeys.part _ _ hud (by decide), hu⟩, hld, hed, hl.alpha, hl.positive,
      hl.negative,
    hl.zeroCount, hl.count, hl.min, hl.max, he.width, he.depth, he.table, he.total⟩

theorem IsDoc.isLogDoc (h : IsDoc enc .int log d ld ed) : StreamLog.IsLogDoc enc log d := by
  obtain ⟨ud, hud, -, hu⟩ := h.uniques
  exact ⟨h.version, h.total, h.deterministic,
    ⟨ld, h.latency, h.alpha, h.positive, h.negative, h.zeroCount, h.count, h.min, h.max⟩, ⟨ud, hud, hu⟩,
    ⟨ed, h.events, h.width, h.depth, h.table, h.eventsTotal⟩⟩

/-- The assignments make a document of one with its counts shown in another way. -/
theorem IsDoc.setDoc {num' : ℤ → PyVal} (h : IsDoc enc num' log d ld ed) (num : ℤ → PyVal) :
    IsDoc enc num log (setDoc enc num log d ld ed) (setLatency enc num log.latency ld)
      (setEvents num log.events ed) := by
  obtain ⟨ud, hud, hudkeys, hu⟩ := h.uniques
  constructor
  case keys => exact ((h.keys.set _ _).set _ _).set _ _
  case latencyKeys => exact (((h.latencyKeys.set _ _).set _ _).set _ _).set _ _
  case eventsKeys => exact (h.eventsKeys.set _ _).set _ _
  case uniques => exact ⟨ud, by simpa [Server.setDoc, lookup_set] using hud, hudkeys, hu⟩
  all_goals simp [Server.setDoc, setLatency, setEvents, lookup_set, h.version, h.deterministic,
    h.alpha, h.min, h.max,
    h.width, h.depth]

/-- Another entry beside those of a document. -/
theorem IsDoc.set (h : IsDoc enc num log d ld ed) (name : String) (v : PyVal)
    (hname : name ∉ ["version", "total", "deterministic", "uniques", "latency", "events"]) :
    IsDoc enc num log (d.set (.str name) v) ld ed := by
  have hother (key : String)
    (hkey : key ∈ ["version", "total", "deterministic", "uniques", "latency", "events"]) :
      (Items.set d (.str name) v).lookup (.str key) = d.lookup (.str key) := by
    apply lookup_set_of_ne
    intro heq
    exact hname (PyKey.str.inj heq ▸ hkey)
  obtain ⟨ud, hud, hudkeys, hu⟩ := h.uniques
  exact { h with
    keys := h.keys.set _ _
    version := (hother _ (by decide)).trans h.version
    total := (hother _ (by decide)).trans h.total
    deterministic := (hother _ (by decide)).trans h.deterministic
    uniques := ⟨ud, (hother _ (by decide)).trans hud, hudkeys, hu⟩
    latency := (hother _ (by decide)).trans h.latency
    events := (hother _ (by decide)).trans h.events }

/-- The entries that a round of the two loops over a latency part finds. -/
theorem IsDoc.latency_rounds {num' : ℤ → PyVal} (h : IsDoc enc num' log d ld ed) (num : ℤ → PyVal) :
    (ld.set (.str "zero_count") (num log.latency.zeroCount)).lookup (.str "count")
      = some (num' log.latency.count)
      ∧ ((ld.set (.str "zero_count") (num log.latency.zeroCount)).set (.str "count")
        (num log.latency.count)).lookup
          (.str "positive") = some (groupOf enc num' log.latency.positive.toList)
      ∧ (((ld.set (.str "zero_count") (num log.latency.zeroCount)).set (.str "count")
        (num log.latency.count)).set
          (.str "positive") (groupOf enc num log.latency.positive.toList)).lookup (.str "negative")
        = some (groupOf enc num' log.latency.negative.toList) := by
  refine ⟨?_, ?_, ?_⟩
  · simpa [lookup_set] using h.count
  · simpa [lookup_set] using h.positive
  · simpa [lookup_set] using h.negative

/-- What `stream_ws` sends of a document. -/
theorem encodeState_eq (h : IsDoc enc .int log d ld ed) (metrics : PyVal) :
    encodeState d metrics = .ok
      (.dict ((setDoc enc textOf log d ld ed).set (.str "metrics") metrics)) := by
  obtain ⟨hcount, hpositive, hnegative⟩ := h.latency_rounds textOf
  have htable : (ed.set (.str "total") (textOf log.events.total)).lookup (.str "table")
      = some (tableOf .int log.events.table) := by simpa [lookup_set] using h.table
  rw [encodeState, getItem_of_lookup h.latency, ok_bind, getItem_of_lookup h.events, ok_bind,
    encodeField_eq h.total,
    ok_bind, encodeField_eq h.zeroCount, ok_bind, encodeField_eq hcount, ok_bind,
      encodeField_eq h.eventsTotal, ok_bind,
    encodeGroup_eq hpositive, ok_bind, encodeGroup_eq hnegative, ok_bind, encodeTable_eq htable]
  rfl

/-- What `merge_stream` makes of a document with its counts as strings. -/
theorem decodeState_eq (h : IsDoc enc textOf log d ld ed) (hlog : Counted log) :
    decodeState d = .ok (.dict (setDoc enc .int log d ld ed)) := by
  obtain ⟨hcount, hpositive, hnegative⟩ := h.latency_rounds .int
  have htable : (ed.set (.str "total") (.int log.events.total)).lookup (.str "table")
      = some (tableOf textOf log.events.table) := by simpa [lookup_set] using h.table
  rw [decodeState, getItem_of_lookup h.latency, ok_bind, getItem_of_lookup h.events, ok_bind,
    decodeField_eq h.total hlog.total, ok_bind, decodeField_eq h.zeroCount hlog.zeroCount, ok_bind,
    decodeField_eq hcount hlog.count, ok_bind, decodeField_eq h.eventsTotal hlog.eventsTotal, ok_bind,
    decodeGroup_eq hpositive hlog.positive, ok_bind, decodeGroup_eq hnegative hlog.negative, ok_bind,
    decodeTable_eq htable hlog.table]
  rfl

/-- A document with its counts as strings, after JSON. -/
theorem IsDoc.json (henc : ∀ k, (enc k).text = toString k) (h : IsDoc enc textOf log d ld ed) :
    ∃ ld' ed', IsDoc (fun k => .str (toString k)) textOf log (itemsThroughJson [] d) ld' ed' := by
  -- the two nested documents go through JSON field by field
  obtain ⟨ud, hud, hudkeys, hu⟩ := h.uniques
  have hregisters := Cpp.StreamLog.throughJson_ints (log.uniques.registers.map fun r : ℕ => (r : ℤ))
  rw [List.map_map] at hregisters
  have hextremum (q : ERat) : throughJson (if log.latency.count > 0 then .ofERat q else .none)
      = if log.latency.count > 0 then .ofERat q else .none := by
    split
    · exact throughJson_ofERat q
    · rfl
  have huniques : IsUniquesDoc log.uniques (itemsThroughJson [] ud) := by
    refine ⟨?_, ?_⟩
    · rw [hudkeys.lookup_throughJson, hu.precision]
      rfl
    · rw [hudkeys.lookup_throughJson, hu.registers, Option.map_some]
      exact congrArg some hregisters
  have hkeys := h.keys.lookup_throughJson
  have hlkeys := h.latencyKeys.lookup_throughJson
  have hekeys := h.eventsKeys.lookup_throughJson
  refine ⟨itemsThroughJson [] ld, itemsThroughJson [] ed, ?_⟩
  constructor
  case keys => exact h.keys.json
  case latencyKeys => exact h.latencyKeys.json
  case eventsKeys => exact h.eventsKeys.json
  case version => rw [hkeys, h.version]; rfl
  case total => rw [hkeys, h.total]; rfl
  case deterministic => rw [hkeys, h.deterministic]; rfl
  case uniques => exact ⟨_, by rw [hkeys, hud]; rfl, hudkeys.json, huniques⟩
  case latency => rw [hkeys, h.latency]; rfl
  case events => rw [hkeys, h.events]; rfl
  case alpha => rw [hlkeys, h.alpha, Option.map_some, throughJson_ofRat]
  case positive => rw [hlkeys, h.positive, Option.map_some, throughJson_groupOf henc]
  case negative => rw [hlkeys, h.negative, Option.map_some, throughJson_groupOf henc]
  case zeroCount => rw [hlkeys, h.zeroCount]; rfl
  case count => rw [hlkeys, h.count]; rfl
  case min => rw [hlkeys, h.min, Option.map_some, hextremum]
  case max => rw [hlkeys, h.max, Option.map_some, hextremum]
  case width => rw [hekeys, h.width]; rfl
  case depth => rw [hekeys, h.depth]; rfl
  case table => rw [hekeys, h.table, Option.map_some, throughJson_tableOf]
  case eventsTotal => rw [hekeys, h.eventsTotal]; rfl

/-- However often JSON is written and read on the way, at least once. -/
theorem IsDoc.json_iterate (henc : ∀ k, (enc k).text = toString k)
    (h : IsDoc enc textOf log d ld ed) (passes : ℕ) :
    ∃ ld' ed', IsDoc (fun k => .str (toString k)) textOf log ((itemsThroughJson [])^[passes + 1] d)
      ld' ed' := by
  induction passes with
  | zero => exact h.json henc
  | succ passes ih =>
    obtain ⟨ld', ed', hdoc⟩ := ih
    rw [Function.iterate_succ_apply']
    exact hdoc.json fun _ => rfl

/-- A state that is sent comes back. -/
theorem decodeState_encodeState (henc : ∀ k, (enc k).text = toString k)
    (h : StreamLog.IsLogDoc enc log d)
    (hkeys : Keyed d) (hlog : Counted log) (metrics : PyVal) :
    ∃ msg, encodeState d metrics = .ok (.dict msg)
      ∧ ∀ passes, ∃ decoded, decodeState ((itemsThroughJson [])^[passes + 1] msg) = .ok (.dict decoded)
        ∧ StreamLog.IsLogDoc (fun k => .str (toString k)) log decoded := by
  obtain ⟨ld, ed, hdoc⟩ := isDoc_of_isLogDoc h hkeys
  have hsent := (hdoc.setDoc textOf).set "metrics" metrics (by decide)
  refine ⟨_, encodeState_eq hdoc metrics, fun passes => ?_⟩
  obtain ⟨ld', ed', hposted⟩ := hsent.json_iterate henc passes
  exact ⟨_, decodeState_eq hposted hlog, (hposted.setDoc .int).isLogDoc⟩

/-! ## Logs

Every log of a server can be sent, and what is decoded is merged as the log itself would be. -/

theorem keyed_python (log : StreamLog) : ∃ d, log.toDict = .dict d ∧ Keyed d := by
  refine ⟨_, rfl, ⟨["version", "total", "deterministic", "latency", "uniques", "events"], rfl, by
    decide⟩, ?_⟩
  intro name part hpart hname
  simp only [List.mem_cons, List.not_mem_nil, or_false] at hname
  obtain hname | hname | hname := hname
  · subst hname
    cases hpart
    exact ⟨["alpha", "positive", "negative", "zero_count", "count", "min", "max"], rfl, by decide⟩
  · subst hname
    cases hpart
    exact ⟨["precision", "registers"], rfl, by decide⟩
  · subst hname
    cases hpart
    exact ⟨["width", "depth", "table", "total"], rfl, by decide⟩

theorem keyed_cpp (log : Cpp.StreamLog) : ∃ d, log.toDict = .dict d ∧ Keyed d := by
  refine ⟨_, rfl, ⟨["version", "total", "deterministic", "latency", "uniques", "events"], rfl, by
    decide⟩, ?_⟩
  intro name part hpart hname
  simp only [List.mem_cons, List.not_mem_nil, or_false] at hname
  obtain hname | hname | hname := hname
  · subst hname
    cases hpart
    exact ⟨["alpha", "zero_count", "count", "min", "max", "positive", "negative"], rfl, by decide⟩
  · subst hname
    cases hpart
    exact ⟨["precision", "registers"], rfl, by decide⟩
  · subst hname
    cases hpart
    exact ⟨["width", "depth", "total", "table"], rfl, by decide⟩

theorem isCounted_natCast {n : ℕ} (h : n ≤ maxUInt64) : IsCounted n := ⟨by omega, by exact_mod_cast h⟩

theorem isCounted_bins {b : Bins} {f : ℤ →₀ ℕ} (h : CountMap.Tallies b f) (hf : ∀ k, f k ≤ maxInt64) :
    ∀ e ∈ b.toList, IsCounted e.2 := by
  intro e he
  obtain ⟨-, hval⟩ := h.mem_toList_iff.mp he
  have hle := hf e.1
  have hmax : maxInt64 ≤ maxUInt64 := by norm_num [maxInt64, maxUInt64]
  rw [hval]
  exact isCounted_natCast (hle.trans hmax)

theorem counted_of_represents {S : Shape} {c : Contents S} (h : log.Represents c) (hf : c.Fits) :
    Counted log := by
  have hmax : maxInt64 ≤ maxUInt64 := by norm_num [maxInt64, maxUInt64]
  constructor
  case total =>
    rw [h.total]
    exact isCounted_natCast hf.total_le
  case zeroCount =>
    rw [h.latency.zeroCount]
    exact isCounted_natCast (hf.latency.zeroCount_le.trans hmax)
  case count =>
    rw [h.latency.count]
    exact isCounted_natCast hf.latency.count_le
  case eventsTotal =>
    rw [h.events]
    exact isCounted_natCast (hf.events_le.trans hmax)
  case positive => exact isCounted_bins h.latency.positive hf.latency.positive_le
  case negative => exact isCounted_bins h.latency.negative hf.latency.negative_le
  case table =>
    intro row hrow n hn
    rw [h.events] at hrow
    obtain ⟨r, rfl⟩ := List.mem_ofFn.mp hrow
    obtain ⟨j, rfl⟩ := List.mem_ofFn.mp hn
    exact isCounted_natCast (((c.events.table_le_total r j).trans hf.events_le).trans hmax)

end Sketchlog.Server

namespace Sketchlog.Facade

open Server Checked

variable {M : IndexMapping} {cppAvailable : Bool} {b : Backend}

/-- A log of a server: a C++ log where the extension is installed, unless it is to be deterministic.
The document of a C++ log is read back where its table is not too large. -/
def Backend.Served (M : IndexMapping) (cppAvailable : Bool) : Backend → Prop
  | .python log => Sketchlog.StreamLog.Reachable M log ∧ usesCpp cppAvailable log.deterministic = false
  | .cpp log => Cpp.StreamLog.Reachable M log ∧ log.CellsBounded ∧ cppAvailable = true

theorem Backend.Served.sound (hM : M.Monotone) (hR : M.RoundsInts) (hb : b.Served M cppAvailable) :
    ∃ S, ∃ c : Contents S, b.Sound M c := by
  cases b with
  | python log =>
    obtain ⟨S, c, hsound⟩ := hb.1.sound hM
    exact ⟨S, c, hsound.bounded, hsound.represents, hsound.fits, hsound.coherent⟩
  | cpp log =>
    obtain ⟨hreach, hcells, -⟩ := hb
    obtain ⟨S, c, hrep, hfits, hcoherent⟩ := hreach.sound hM hR
    exact ⟨S, c, (Cpp.StreamLog.cellsBounded_iff hrep).mp hcells, hrep, hfits, hcoherent⟩

theorem Backend.Served.native (hb : b.Served M cppAvailable) : b.Native cppAvailable := by
  cases b with
  | python log => exact hb.2.symm
  | cpp log =>
    show true = (cppAvailable && true)
    rw [hb.2.2]
    rfl

/-- The document of a log. -/
theorem Backend.toDict_isLogDoc {S : Shape} {c : Contents S} (hb : b.Represents c) :
    ∃ enc d, (∀ k : ℤ, PyKey.text (enc k) = toString k) ∧ b.toDict = .dict d
      ∧ Sketchlog.StreamLog.IsLogDoc enc b.described d ∧ Keyed d := by
  cases b with
  | python log =>
    obtain ⟨d, hd, hdoc⟩ := Sketchlog.StreamLog.toDict_isLogDoc log
    obtain ⟨d', hd', hkeyed⟩ := keyed_python log
    obtain rfl := PyVal.dict.inj (hd.symm.trans hd')
    exact ⟨.int, d, fun _ => rfl, hd, hdoc, hkeyed⟩
  | cpp log =>
    obtain ⟨d, hd, hdoc⟩ := Cpp.StreamLog.toDict_isLogDoc hb
    obtain ⟨d', hd', hkeyed⟩ := keyed_cpp log
    obtain rfl := PyVal.dict.inj (hd.symm.trans hd')
    exact ⟨fun k => .str (toString k), d, fun _ => rfl, hd, hdoc, hkeyed⟩

/-- **A state that is sent and posted is merged as it was.** Whatever `stream_ws` sends of a log,
`merge_stream` finds the log in it, however often JSON is written and read on the way; a log of the
same kind takes over its contents, all of them or, where a count would not fit, none. -/
theorem sent_state_comes_back (hM : M.Monotone) (hR : M.RoundsInts) (hK : M.Int32Keys)
    (hb : b.Served M cppAvailable) (metrics : PyVal) :
    ∃ state msg, b.toDict = .dict state ∧ encodeState state metrics = .ok (.dict msg)
      ∧ ∀ passes, ∃ incoming, mergeStream M cppAvailable ((itemsThroughJson [])^[passes + 1] msg)
        = .lookup incoming
        ∧ incoming.backend = b
        ∧ ∃ S, ∃ c : Contents S, b.Represents c
          ∧ (∃ fresh, StreamLog.new cppAvailable incoming.config = .ok fresh
            ∧ fresh.Valid cppAvailable (0 : Contents S)
            ∧ fresh.backend.isCpp = b.isCpp)
          ∧ ∀ (self : StreamLog) (x : Contents S), self.Valid cppAvailable x → self.backend.isCpp
            = b.isCpp →
            Imperative.Guarded (StreamLog.merge M cppAvailable incoming) self (x + c).Fits
              (fun t => t.config = self.config ∧ t.Valid cppAvailable (x + c)) := by
  -- the log stands for contents that fit the wire
  obtain ⟨S, c, hsound⟩ := hb.sound hM hR
  have hrep := hsound.represents
  obtain ⟨enc, state, henc, hstate, hdoc, hkeyed⟩ := b.toDict_isLogDoc hrep
  obtain ⟨msg, hmsg, hdecode⟩ := decodeState_encodeState henc hdoc hkeyed
    (counted_of_represents hsound.described.represents hsound.fits) metrics
  -- the decoded fields are the ones that were sent, after any number of passes
  refine ⟨state, msg, hstate, hmsg, fun passes => ?_⟩
  obtain ⟨decoded, hdecoded, hread⟩ := hdecode passes
  have hlog := StreamLog.fromDict_described hK hb.native hsound hread
  obtain ⟨empty, hnew, hempty⟩ := StreamLog.new_configOf cppAvailable hsound.described
  have hfresh : StreamLog.new cppAvailable (StreamLog.configOf b.described)
      = .ok ⟨StreamLog.configOf b.described, empty⟩ := by
    rw [StreamLog.new, hnew]
    rfl
  have hmerge : mergeStream M cppAvailable ((itemsThroughJson [])^[passes + 1] msg)
      = .lookup ⟨StreamLog.configOf b.described, b⟩ := by
    rw [mergeStream, hdecoded, ok_bind, hlog]
    rfl
  -- the two sides have one shape, so merging adds the contents
  refine ⟨_, hmerge, rfl, S, c, hrep, ⟨_, hfresh, ?_, ?_⟩, ?_⟩
  · exact ⟨hempty, Contents.fits_zero, ⟨empty, hnew, hempty⟩, Backend.isCpp_new hnew⟩
  · exact (Backend.isCpp_new hnew).trans hb.native.symm
  · intro self x hself hkind
    have hbrings : StreamLog.Brings M cppAvailable self ⟨StreamLog.configOf b.described, b⟩ c :=
      StreamLog.brings_of_kind hkind hrep
    refine (StreamLog.merge_brings hself hrep hsound.fits).imp ⟨?_, ?_⟩ ?_
    · rintro ⟨y, hy, hfits⟩
      rwa [hy.unique hbrings] at hfits
    · intro hfits
      exact ⟨c, hbrings, hfits⟩
    · rintro t - ⟨hconfig, y, hy, ht⟩
      rw [hy.unique hbrings] at ht
      exact ⟨hconfig, ht⟩

/-- Four occurrences of one key are sent and come back. -/
theorem sent_state_comes_back_event :
    ∃ log : Sketchlog.StreamLog, log.total = 4 ∧ ∃ state msg incoming, log.toDict = .dict state
      ∧ encodeState state .none = .ok (.dict msg)
      ∧ mergeStream .coarse false (itemsThroughJson [] msg) = .lookup incoming ∧ incoming.backend
        = .python log := by
  have hnew : Sketchlog.StreamLog.new ⟨.fin Binary64.half, 4, 2, 1, false⟩
      = .ok (Sketchlog.StreamLog.emptyOf (.oneRow 2 (by norm_num)) false) :=
    Sketchlog.StreamLog.new_eq_ok.mpr ⟨_, by
      norm_num [Shape.Bounded, Shape.oneRow], rfl, rfl, rfl, rfl, rfl⟩
  have hreach : Sketchlog.StreamLog.Reachable .coarse
      (Imperative.after (Sketchlog.StreamLog.ingest .coarse (.event (.int 7) 4))
        (.emptyOf (.oneRow 2 (by norm_num)) false)) :=
    .ingest _ (.new _ hnew)
  have hserved : (Backend.python _).Served .coarse false := ⟨hreach, rfl⟩
  obtain ⟨state, msg, hstate, hmsg, hall⟩ := sent_state_comes_back IndexMapping.coarse_monotone
    IndexMapping.coarse_roundsInts IndexMapping.coarse_int32Keys hserved .none
  obtain ⟨incoming, hlookup, hsame, -⟩ := hall 0
  exact ⟨_, by decide +kernel, state, msg, incoming, hstate, hmsg, hlookup, hsame⟩

end Sketchlog.Facade
