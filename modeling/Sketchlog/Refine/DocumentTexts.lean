import Sketchlog.Refine.CppReachable
import Sketchlog.Refine.JsonSize

/-!
# Documents have texts

`json.dumps` with `allow_nan=False` raises at an infinity. A document of a log holds one only as an
extremum of a sketch that counts something, and what `from_dict` restores has finite extrema then:
the document of every restored log has a text.
-/

namespace Sketchlog.Mesh

open Checked

variable {reprFloat : Binary64 → List Char}

/-! ## Values

A value can be encoded when the numbers in it are finite. One lemma per constructor. -/

theorem sizable_iff {v : PyVal} : Sizable reprFloat v ↔ ∃ text, Json.text reprFloat v = .ok text := by
  constructor
  · rintro ⟨n, hn⟩
    obtain ⟨text, htext, -⟩ := jsonSize_eq_ok.mp hn
    exact ⟨text, htext⟩
  · rintro ⟨text, htext⟩
    exact ⟨_, jsonSize_eq_ok.mpr ⟨text, htext, rfl⟩⟩

theorem sizable_int (n : ℤ) : Sizable reprFloat (.int n) := ⟨_, rfl⟩

theorem sizable_none : Sizable reprFloat .none := ⟨_, rfl⟩

theorem sizable_bool (b : Bool) : Sizable reprFloat (.bool b) := ⟨_, rfl⟩

theorem sizable_fin (x : Binary64) : Sizable reprFloat (.float (.fin x)) := ⟨_, rfl⟩

theorem sizable_ofRat (q : ℚ) : Sizable reprFloat (.ofRat q) := by
  unfold PyVal.ofRat
  split
  · exact sizable_fin _
  · exact sizable_int _

theorem sizable_list {xs : List PyVal} (h : ∀ x ∈ xs, Sizable reprFloat x) :
    Sizable reprFloat (.list xs) := by
  have htexts : ∃ ts, Json.listTexts reprFloat xs = .ok ts := by
    induction xs with
    | nil => exact ⟨[], rfl⟩
    | cons x rest ih =>
      obtain ⟨text, htext⟩ := sizable_iff.mp (h x List.mem_cons_self)
      obtain ⟨ts, hts⟩ := ih fun y hy => h y (List.mem_cons_of_mem _ hy)
      exact ⟨text :: ts, bind_eq_ok.mpr ⟨text, htext, bind_eq_ok.mpr ⟨ts, hts, rfl⟩⟩⟩
  obtain ⟨ts, hts⟩ := htexts
  exact sizable_iff.mpr ⟨_, congrArg (Except.map _) hts⟩

theorem sizable_dict {items : Items} (hkeys : ∀ kv ∈ items, ∃ text, Json.keyText kv.1 = .ok text)
    (h : ∀ kv ∈ items, Sizable reprFloat kv.2) : Sizable reprFloat (.dict items) := by
  have htexts : ∃ ts, Json.itemTexts reprFloat items = .ok ts := by
    induction items with
    | nil => exact ⟨[], rfl⟩
    | cons kv rest ih =>
      obtain ⟨kt, hkt⟩ := hkeys kv List.mem_cons_self
      obtain ⟨text, htext⟩ := sizable_iff.mp (h kv List.mem_cons_self)
      obtain ⟨ts, hts⟩ := ih (fun kv' hkv' => hkeys kv' (List.mem_cons_of_mem _ hkv'))
        fun kv' hkv' => h kv' (List.mem_cons_of_mem _ hkv')
      exact ⟨_, bind_eq_ok.mpr ⟨kt, hkt, bind_eq_ok.mpr ⟨text, htext, bind_eq_ok.mpr ⟨ts, hts, rfl⟩⟩⟩⟩
  obtain ⟨ts, hts⟩ := htexts
  exact sizable_iff.mpr ⟨_, congrArg (Except.map _) hts⟩

theorem sizable_nil : Sizable reprFloat (.dict []) := ⟨_, rfl⟩

/-- One more field of a record. -/
theorem sizable_cons {k : String} {v : PyVal} {rest : Items} (hv : Sizable reprFloat v)
    (hrest : Sizable reprFloat (.dict rest)) : Sizable reprFloat (.dict ((.str k, v) :: rest)) := by
  obtain ⟨text, htext⟩ := sizable_iff.mp hv
  obtain ⟨ts, hts⟩ := itemTexts_of_sizable hrest
  have hitems : Json.itemTexts reprFloat ((.str k, v) :: rest)
    = .ok ((Json.quote k ++ ':' :: text) :: ts) :=
    bind_eq_ok.mpr ⟨_, rfl, bind_eq_ok.mpr ⟨text, htext, bind_eq_ok.mpr ⟨ts, hts, rfl⟩⟩⟩
  exact sizable_iff.mpr ⟨_, congrArg (Except.map _) hitems⟩

theorem sizable_ints (xs : List ℤ) : Sizable reprFloat (.list (xs.map .int)) := by
  refine sizable_list fun x hx => ?_
  obtain ⟨n, -, rfl⟩ := List.mem_map.mp hx
  exact sizable_int n

theorem sizable_rows (rows : List (List ℤ)) :
    Sizable reprFloat (.list (rows.map fun row => .list (row.map .int))) := by
  refine sizable_list fun x hx => ?_
  obtain ⟨row, -, rfl⟩ := List.mem_map.mp hx
  exact sizable_ints row

theorem sizable_registers (registers : List ℕ) :
    Sizable reprFloat (.list (registers.map fun r : ℕ => .int r)) := by
  refine sizable_list fun x hx => ?_
  obtain ⟨n, -, rfl⟩ := List.mem_map.mp hx
  exact sizable_int n

/-! ## The document of a Python log

Every number in the document of a restored log is finite, so the document has a text. -/

theorem sizable_binsDict (store : Bins) : Sizable reprFloat (binsDict store) := by
  refine sizable_dict (fun kv hkv => ?_) fun kv hkv => ?_
  · obtain ⟨e, -, rfl⟩ := List.mem_map.mp hkv
    exact ⟨_, rfl⟩
  · obtain ⟨e, -, rfl⟩ := List.mem_map.mp hkv
    exact sizable_int e.2

theorem sizable_extremum {n : ℤ} {e : ERat} (h : n > 0 → ∃ q : ℚ, e = q) :
    Sizable reprFloat (if n > 0 then .ofERat e else .none) := by
  split
  · next hpos =>
    obtain ⟨q, rfl⟩ := h hpos
    exact sizable_ofRat q
  · exact sizable_none

theorem sizable_latencyDict {l : DDSketch} (hmin : l.count > 0 → ∃ q : ℚ, l.min = q)
    (hmax : l.count > 0 → ∃ q : ℚ, l.max = q) : Sizable reprFloat (latencyDict l) := by
  unfold latencyDict
  refine sizable_cons (sizable_ofRat _)
    (sizable_cons (sizable_binsDict _) (sizable_cons (sizable_binsDict _) ?_))
  refine sizable_cons (sizable_int _) (sizable_cons (sizable_int _) ?_)
  exact sizable_cons (sizable_extremum hmin) (sizable_cons (sizable_extremum hmax) sizable_nil)

theorem sizable_uniquesDict (u : HyperLogLog) : Sizable reprFloat (uniquesDict u) :=
  sizable_cons (sizable_int _) (sizable_cons (sizable_registers _) sizable_nil)

theorem sizable_eventsDict (e : CountMinSketch) : Sizable reprFloat (eventsDict e) :=
  sizable_cons (sizable_int _) (sizable_cons (sizable_int _) (sizable_cons (sizable_rows _)
    (sizable_cons (sizable_int _) sizable_nil)))

/-- **A restored Python log has a document with a text.** -/
theorem sizable_python {M : IndexMapping} {data : PyVal} {log : StreamLog}
    (h : StreamLog.fromDict M data = .ok log) :
    Sizable reprFloat log.toDict := by
  obtain ⟨S, c, hsound⟩ := StreamLog.fromDict_sound h
  have hextrema : log.latency.count > 0 → ∃ lo hi, Tally.Extrema M S.alpha c.latency lo hi := by
    intro hpos
    rw [hsound.represents.latency.count] at hpos
    exact hsound.coherent.extrema (by omega)
  have hlatency : Sizable reprFloat (latencyDict log.latency) := by
    refine sizable_latencyDict (fun hpos => ?_) fun hpos => ?_
    · obtain ⟨lo, hi, hext⟩ := hextrema hpos
      exact ⟨lo, hsound.represents.latency.min.trans hext.min_eq⟩
    · obtain ⟨lo, hi, hext⟩ := hextrema hpos
      exact ⟨hi, hsound.represents.latency.max.trans hext.max_eq⟩
  unfold StreamLog.toDict
  refine sizable_cons (sizable_int _) (sizable_cons (sizable_int _) (sizable_cons (sizable_bool _) ?_))
  exact sizable_cons hlatency
    (sizable_cons (sizable_uniquesDict _) (sizable_cons (sizable_eventsDict _) sizable_nil))

/-! ## The document of a C++ log

Likewise for the native log, whose extrema are doubles. -/

theorem sizable_cppBinsDict (indices bins : List ℤ) :
    Sizable reprFloat (Cpp.binsDict indices bins) := by
  refine sizable_dict (fun kv hkv => ?_) fun kv hkv => ?_
  · obtain ⟨e, -, rfl⟩ := List.mem_map.mp hkv
    exact ⟨_, rfl⟩
  · obtain ⟨e, -, rfl⟩ := List.mem_map.mp hkv
    exact sizable_int e.2

/-- **A C++ log has a document with a text**: its extrema are doubles. -/
theorem sizable_cpp (log : Cpp.StreamLog) : Sizable reprFloat log.toDict := by
  have hextremum : ∀ x : Binary64, Sizable reprFloat (if log.latency.count > 0 then .float (.fin x)
    else .none) := by
    intro x
    split
    · exact sizable_fin x
    · exact sizable_none
  have hlatency : Sizable reprFloat (Cpp.latencyDict log.latency.getState) := by
    unfold Cpp.latencyDict
    refine sizable_cons (sizable_fin _) (sizable_cons (sizable_int _) (sizable_cons (sizable_int _) ?_))
    refine sizable_cons (hextremum _) (sizable_cons (hextremum _) ?_)
    exact sizable_cons (sizable_cppBinsDict _ _) (sizable_cons (sizable_cppBinsDict _ _) sizable_nil)
  have huniques : Sizable reprFloat (Cpp.uniquesDict log.uniques.getState) :=
    sizable_cons (sizable_int _) (sizable_cons (sizable_registers _) sizable_nil)
  have hevents : Sizable reprFloat (Cpp.eventsDict log.events.getState) :=
    sizable_cons (sizable_int _) (sizable_cons (sizable_int _) (sizable_cons (sizable_int _)
      (sizable_cons (sizable_rows _) sizable_nil)))
  unfold Cpp.StreamLog.toDict
  refine sizable_cons (sizable_int _) (sizable_cons (sizable_int _) (sizable_cons (sizable_bool _) ?_))
  exact sizable_cons hlatency (sizable_cons huniques (sizable_cons hevents sizable_nil))

end Sketchlog.Mesh
