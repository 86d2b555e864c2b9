import Sketchlog.Properties.RoundTrip
import Sketchlog.Refine.Facade

/-!
# Documents of logs of either backend

A log is restored from its own document as it was, when it is of the kind that its document asks for
(`Native`); logs that were made by the facade are, and so are copies and restored logs. `Kept` is
what every log has that a server keeps: its contents fit, are coherent and of a shape that the
Python backend accepts.
-/

namespace Sketchlog

open Imperative Checked Tally

/-- A merge does not touch the flag. -/
theorem StreamLog.deterministic_merge {log other t : StreamLog} (h : (merge other).run log = .ok () t) :
    t.deterministic = log.deterministic := by
  have hcheck := checkMerge_guarded log other
  rw [merge, EStateM.run_bind, EStateM.run_get] at h
  -- the check comes before any change and hands on the log as it is
  cases hcheck with
  | reject _ e herr =>
    simp only [EStateM.run_bind, herr] at h
    cases h
  | accept _ s hrun hs =>
    subst hs
    simp only [EStateM.run_bind, hrun] at h
    cases hlatency : mergeLatency s.latency other.latency with
    | error e =>
      rw [hlatency] at h
      cases h
    | ok latency =>
      rw [hlatency] at h
      simp only [run_liftExcept_ok] at h
      -- the new table is computed before anything is stored
      cases htable : mergeTable s.events.table other.events.table with
      | error e =>
        rw [htable] at h
        cases h
      | ok table =>
        rw [htable] at h
        simp only [run_liftExcept_ok, run_commitMerge] at h
        cases h
        rfl

namespace Facade

variable {M : IndexMapping} {cppAvailable : Bool} {S : Shape} {c : Contents S}

namespace Backend

variable {b : Backend}

/-- A log as its document describes it. -/
def described : Backend → Sketchlog.StreamLog
  | .python log => log
  | .cpp log => log.toPython

/-- The log is of the kind that is made of its document. -/
def Native (cppAvailable : Bool) (b : Backend) : Prop :=
  b.isCpp = usesCpp cppAvailable b.described.deterministic

theorem Sound.described (h : b.Sound M c) : b.described.Sound M c := by
  cases b with
  | python log => exact ⟨h.bounded, h.represents, h.fits, h.coherent⟩
  | cpp log => exact ⟨h.bounded, Cpp.StreamLog.Represents.toPython h.represents, h.fits, h.coherent⟩

/-- A log is restored from what its document describes. -/
theorem restore_described (hK : M.Int32Keys) (hb : b.Native cppAvailable) (hsound : b.Sound M c) :
    restore cppAvailable b.described = .ok b := by
  cases b with
  | python log =>
    have huses : usesCpp cppAvailable log.deterministic = false := hb.symm
    show (if usesCpp cppAvailable log.deterministic = true then _ else _) = _
    rw [huses]
    rfl
  | cpp log =>
    have huses : usesCpp cppAvailable log.toPython.deterministic = true := hb.symm
    have hrep : log.Represents c := hsound.represents
    obtain ⟨d, hd, hdoc⟩ := Cpp.StreamLog.toDict_isLogDoc hrep
    have hread := Sketchlog.StreamLog.fromDict_complete bucketIndex_str hsound.described hdoc
    have hback := Cpp.StreamLog.fromDict_of_isLogDoc hK hrep hsound.bounded hsound.fits
      hsound.coherent hdoc
    rw [Cpp.StreamLog.fromDict, hread] at hback
    have hrestore : Cpp.StreamLog.restore log.toPython = .ok log := hback
    show (if usesCpp cppAvailable log.toPython.deterministic = true then
      (Cpp.StreamLog.restore log.toPython).map Backend.cpp else _) = _
    rw [huses, hrestore]
    rfl

/-- The document of a log, after JSON. -/
theorem throughJson_isLogDoc (hb : b.Represents c) : ∃ d, throughJson b.toDict = .dict d
    ∧ Sketchlog.StreamLog.IsLogDoc (fun k => .str (toString k)) b.described d := by
  cases b with
  | python log => exact Sketchlog.throughJson_isLogDoc log
  | cpp log =>
    obtain ⟨d, hd, hdoc⟩ := Cpp.StreamLog.toDict_isLogDoc hb
    exact ⟨d, (Cpp.StreamLog.throughJson_toDict hb).trans hd, hdoc⟩

end Backend

namespace StreamLog

variable {self other log t : StreamLog} {b : Backend}

/-- **A log is restored from a document of it.** -/
theorem fromDict_described (hK : M.Int32Keys) {b : Backend} (hb : b.Native cppAvailable)
    (hsound : b.Sound M c)
    {d : Items} (hdoc : Sketchlog.StreamLog.IsLogDoc (fun k => .str (toString k)) b.described d) :
    fromDict M cppAvailable (.dict d) = .ok ⟨configOf b.described, b⟩ := by
  obtain ⟨empty, hnew, -⟩ := new_configOf cppAvailable hsound.described
  have hfresh : new cppAvailable (configOf b.described) = .ok ⟨configOf b.described, empty⟩ := by
    rw [new, hnew]
    rfl
  have hread : Sketchlog.StreamLog.fromDict M (.dict d) = .ok b.described :=
    Sketchlog.StreamLog.fromDict_complete bucketIndex_str hsound.described hdoc
  rw [fromDict, hread, ok_bind, Backend.restore_described hK hb hsound, ok_bind, hfresh]
  rfl

/-! ## The logs of a server

Logs that the server makes, reads or merges stay of one kind, and come back from JSON as they were. -/

/-- A log that a server keeps. -/
structure Kept (M : IndexMapping) (cppAvailable : Bool) (log : StreamLog) {S : Shape}
    (c : Contents S) : Prop where
  valid : log.Valid cppAvailable c
  bounded : S.Bounded
  coherent : Coherent M S.alpha c.latency

theorem Kept.sound (h : log.Kept M cppAvailable c) : log.backend.Sound M c :=
  ⟨h.bounded, h.valid.represents, h.valid.fits, h.coherent⟩

/-- A new backend with the default dimensions. -/
theorem bounded_new {deterministic : Bool} {b : Backend}
    (h : Backend.new cppAvailable (defaults deterministic) = .ok b) :
    ∃ S : Shape, S.Bounded ∧ b.Represents (0 : Contents S) := by
  have hbounded (S : Shape) (hwidth : (2048 : ℤ) = S.width) (hdepth : (5 : ℤ) = S.depth) :
    S.Bounded := by
    have hw : S.width = 2048 := by omega
    have hd : S.depth = 5 := by omega
    rw [Shape.Bounded, hw, hd]
    decide
  -- both constructors make the default shape or fail
  unfold Backend.new at h
  split at h
  · cases hlog : Cpp.StreamLog.new (defaults deterministic).relativeAccuracy
      (defaults deterministic).hllPrecision
      (defaults deterministic).cmsWidth (defaults deterministic).cmsDepth with
    | error e =>
      rw [hlog] at h
      cases h
    | ok log =>
      rw [hlog] at h
      cases h
      obtain ⟨S, -, -, hwidth, hdepth, hempty⟩ := Cpp.StreamLog.new_eq_ok hlog
      subst hempty
      exact ⟨S, hbounded S hwidth hdepth, Cpp.StreamLog.represents_emptyOf S⟩
  · cases hlog : Sketchlog.StreamLog.new (defaults deterministic) with
    | error e =>
      rw [hlog] at h
      cases h
    | ok log =>
      rw [hlog] at h
      cases h
      obtain ⟨S, hS, -, -, -, -, hempty⟩ := Sketchlog.StreamLog.new_eq_ok.mp hlog
      subst hempty
      exact ⟨S, hS, Sketchlog.StreamLog.represents_emptyOf S deterministic⟩

/-- A new log with the default dimensions. -/
theorem kept_new {deterministic : Bool} (h : new cppAvailable (defaults deterministic) = .ok log) :
    ∃ S, log.Kept M cppAvailable (0 : Contents S) := by
  unfold new at h
  cases hnew : Backend.new cppAvailable (defaults deterministic) with
  | error e =>
    rw [hnew] at h
    cases h
  | ok b =>
    rw [hnew] at h
    cases h
    obtain ⟨S, hS, hrep⟩ := bounded_new hnew
    exact ⟨S, ⟨hrep, Contents.fits_zero, ⟨b, hnew, hrep⟩, Backend.isCpp_new hnew⟩, hS, coherent_zero⟩

/-- A restored log. -/
theorem kept_fromDict (hR : M.RoundsInts) {data : PyVal} (h : fromDict M cppAvailable data = .ok log) :
    ∃ S, ∃ c : Contents S, log.Kept M cppAvailable c := by
  obtain ⟨S, c, hvalid⟩ := valid_fromDict h
  obtain ⟨S', c', hsound⟩ := sound_fromDict hR h
  obtain rfl := hvalid.represents.shape_eq hsound.represents
  obtain rfl := hvalid.represents.contents_eq hsound.represents
  exact ⟨S, c, hvalid, hsound.bounded, hsound.coherent⟩

/-- A merge does not touch the kind of a log and its flag. -/
theorem kind_merge (h : (merge M cppAvailable other).run self = .ok () t) :
    t.backend.isCpp = self.backend.isCpp
      ∧ t.backend.described.deterministic = self.backend.described.deterministic := by
  unfold merge at h
  rw [EStateM.run_bind, EStateM.run_get] at h
  -- the other log is converted to the kind of this one, which then merges
  cases hb : self.backend with
  | python log =>
    simp only [hb, EStateM.run_bind] at h
    cases hread : other.backend.asPython M with
    | error e =>
      rw [hread] at h
      cases h
    | ok compatible =>
      rw [hread] at h
      simp only [run_liftExcept_ok, onBackend, run_zoom] at h
      cases hmerge : (Sketchlog.StreamLog.merge compatible).run log with
      | error e log' =>
        rw [hmerge] at h
        cases h
      | ok u log' =>
        rw [hmerge] at h
        cases h
        exact ⟨rfl, Sketchlog.StreamLog.deterministic_merge hmerge⟩
  | cpp log =>
    simp only [hb, EStateM.run_bind] at h
    cases hread : other.backend.asCpp M cppAvailable with
    | error e =>
      rw [hread] at h
      cases h
    | ok compatible =>
      rw [hread] at h
      simp only [run_liftExcept_ok, onBackend, run_zoom] at h
      cases hmerge : (Cpp.StreamLog.merge compatible).run log with
      | error e log' =>
        rw [hmerge] at h
        cases h
      | ok u log' =>
        rw [hmerge] at h
        cases h
        exact ⟨rfl, rfl⟩

/-- A new log is of the kind that is made of its document. -/
theorem native_new {cfg : Config} (h : Backend.new cppAvailable cfg = .ok b) :
    b.Native cppAvailable := by
  have hkind := Backend.isCpp_new h
  rcases Backend.new_cases h with ⟨huses, S, hb⟩ | ⟨huses, S, hb⟩
  · subst hb
    have havailable : cppAvailable = true := (Bool.and_eq_true_iff.mp huses).1
    subst havailable
    rfl
  · subst hb
    exact hkind

/-- **A copy of a kept log has its contents**, and is of the kind that is made of its document. -/
theorem Kept.getSnapshot (h : self.Kept M cppAvailable c) :
    ∃ t, self.getSnapshot M cppAvailable = .ok t ∧ t.Kept M cppAvailable c
      ∧ t.backend.Native cppAvailable := by
  obtain ⟨t, hcopy, -, hvalid⟩ := getSnapshot_eq_ok (M := M) h.valid
  refine ⟨t, hcopy, ⟨hvalid, h.bounded, h.coherent⟩, ?_⟩
  obtain ⟨fresh, hclone, hexec⟩ := bind_eq_ok.mp hcopy
  obtain ⟨b, hnew, -⟩ := h.valid.fresh
  rw [cloneEmpty, new, hnew] at hclone
  cases hclone
  have hnative : b.Native cppAvailable := native_new hnew
  cases hmerge : (merge M cppAvailable self).run ⟨self.config, b⟩ with
  | error e t' =>
    rw [Cpp.exec, hmerge] at hexec
    cases hexec
  | ok u t' =>
    rw [Cpp.exec, hmerge] at hexec
    cases hexec
    obtain ⟨hkind, hflag⟩ := kind_merge hmerge
    rw [Backend.Native, hkind, hflag]
    exact hnative

/-- **A kept log comes back from its document through JSON.** -/
theorem Kept.throughJson (hK : M.Int32Keys) (h : self.Kept M cppAvailable c)
    (hnative : self.backend.Native cppAvailable) :
    ∃ t, fromDict M cppAvailable (throughJson self.toDict) = .ok t ∧ t.backend = self.backend
      ∧ t.Kept M cppAvailable c := by
  obtain ⟨d, hd, hdoc⟩ := Backend.throughJson_isLogDoc h.valid.represents
  refine ⟨⟨configOf self.backend.described, self.backend⟩, ?_, rfl, ?_⟩
  · rw [toDict, hd]
    exact fromDict_described hK hnative h.sound hdoc
  · exact ⟨⟨h.valid.represents, h.valid.fits, new_configOf cppAvailable h.sound.described, hnative⟩,
      h.bounded,
      h.coherent⟩

end StreamLog

end Facade

end Sketchlog
