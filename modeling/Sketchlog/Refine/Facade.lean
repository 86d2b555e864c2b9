import Sketchlog.Python.Facade
import Sketchlog.Refine.CppReachable

/-!
# Logs of either backend

A log of the facade holds contents that fit, and its configuration is one it can be made of again
(`Valid`), which all its calls keep (`Reachable.valid`). A merge takes the contents of the other log
over when they are of the same shape and fit, whatever the two backends are (`merge_guarded`); a C++
log takes them with rounded extrema. A copy has the contents of its original (`getSnapshot_eq_ok`).
-/

namespace Sketchlog

open Imperative Checked Tally

/-- A merge, whatever the shape of the other log. -/
theorem Backend.merge_guarded_any {M : IndexMapping} {B : Backend M} {a b : B.Log} {S : Shape}
    {x : Contents S}
    (hx : B.Represents a S x) (hxf : x.Fits) (hb : B.Holds b) :
    Guarded (B.merge b) a (∃ y, B.Represents b S y ∧ (x + y).Fits)
      (fun t => ∃ y, B.Represents b S y ∧ (x + y).Fits ∧ B.Represents t S (x + y)) := by
  obtain ⟨S', y, hy, -⟩ := hb
  by_cases hS : S = S'
  · subst hS
    refine (B.merge_guarded hx hxf hy).imp ⟨fun hfits => ⟨y, hy, hfits⟩, ?_⟩ fun t hfits ht => ?_
    · rintro ⟨y', hy', hfits⟩
      rwa [B.contents_eq hy hy']
    · obtain ⟨y', hy', hfits'⟩ := hfits
      rw [B.contents_eq hy' hy] at hfits'
      exact ⟨y, hy, hfits', ht⟩
  · obtain ⟨e, he⟩ := B.merge_of_shape_ne hx hy hS
    exact .reject (fun ⟨_, hy', _⟩ => hS (B.shape_eq hy' hy)) e he

namespace Facade

variable {M : IndexMapping} {cppAvailable : Bool} {S : Shape} {c x : Contents S}

namespace Backend

variable {b : Backend}

def Represents (b : Backend) {S : Shape} (c : Contents S) : Prop :=
  match b with
  | .python log => log.Represents c
  | .cpp log => log.Represents c

def isCpp : Backend → Bool
  | .python _ => false
  | .cpp _ => true

/-- Contents as a backend takes them over. -/
noncomputable def taken (isCpp : Bool) {S : Shape} (c : Contents S) : Contents S :=
  if isCpp then c.rounded else c

theorem Represents.shape_eq {S' : Shape} {c' : Contents S'} (h : b.Represents c)
    (h' : b.Represents c') : S = S' := by
  cases b with
  | python log =>
    have hlog : log.Represents c := h
    exact hlog.shape_eq h'
  | cpp log =>
    have hlog : log.Represents c := h
    exact hlog.toPython.shape_eq (Cpp.StreamLog.Represents.toPython h')

theorem Represents.contents_eq {d : Contents S} (h : b.Represents c) (h' : b.Represents d) : c = d := by
  cases b with
  | python log =>
    have hlog : log.Represents c := h
    exact hlog.contents_eq h'
  | cpp log =>
    have hlog : log.Represents c := h
    exact hlog.toPython.contents_eq (Cpp.StreamLog.Represents.toPython h')

/-- A well-formed log of either backend, of a shape that the Python backend accepts. -/
structure Sound (M : IndexMapping) (b : Backend) {S : Shape} (c : Contents S) : Prop where
  bounded : S.Bounded
  represents : b.Represents c
  fits : c.Fits
  coherent : Coherent M S.alpha c.latency

/-- A well-formed log can be merged into a Python log. -/
theorem Sound.asPython (h : b.Sound M c) : ∃ log, b.asPython M = .ok log ∧ log.Represents c := by
  cases b with
  | python log => exact ⟨log, rfl, h.represents⟩
  | cpp log =>
    have hrep : log.Represents c := h.represents
    obtain ⟨d, hd, hdoc⟩ := Cpp.StreamLog.toDict_isLogDoc hrep
    refine ⟨log.toPython, ?_, hrep.toPython⟩
    show Sketchlog.StreamLog.fromDict M log.toDict = _
    rw [hd]
    exact Sketchlog.StreamLog.fromDict_complete bucketIndex_str
      ⟨h.bounded, hrep.toPython, h.fits, h.coherent⟩ hdoc

/-- A well-formed log can be merged into a C++ log, with rounded extrema. -/
theorem Sound.asCpp (hK : M.Int32Keys) (h : b.Sound M c) :
    ∃ log, b.asCpp M true = .ok log ∧ log.Represents c.rounded := by
  cases b with
  | python log =>
    have hrep : ({ log with deterministic := false } : Sketchlog.StreamLog).Represents c :=
      ⟨h.represents.alpha, h.represents.latency, h.represents.events, h.represents.uniques,
        h.represents.total⟩
    have hsound : ({ log with deterministic := false } : Sketchlog.StreamLog).Sound M c :=
      ⟨h.bounded, hrep, h.fits, h.coherent⟩
    have hpos := Cpp.StreamLog.keysFit_of_inRange (S := S) hK hrep.latency.positive
      h.coherent.positive_inRange
    have hneg := Cpp.StreamLog.keysFit_of_inRange (S := S) hK hrep.latency.negative
      h.coherent.negative_inRange
    obtain ⟨restored, hrestore, hrestored⟩ := Cpp.StreamLog.restore_ok hsound rfl hpos hneg
    refine ⟨restored, bind_eq_ok.mpr ⟨(), by
      decide, bind_eq_ok.mpr ⟨_, Sketchlog.StreamLog.fromDict_toDict hsound, hrestore⟩⟩,
      hrestored⟩
  | cpp log =>
    have hrep : log.Represents c := h.represents
    refine ⟨log, rfl, ?_⟩
    rw [Cpp.StreamLog.rounded_eq_self hrep]
    exact hrep

/-- What a Python log is merged with holds contents that fit. -/
theorem holds_of_asPython {log : Sketchlog.StreamLog} {d : Contents S} (hrep : b.Represents d)
    (hfits : d.Fits)
    (h : b.asPython M = .ok log) : (Sketchlog.StreamLog.backend M).Holds log := by
  cases b with
  | python own =>
    cases h
    exact ⟨S, d, hrep, hfits⟩
  | cpp own =>
    have hread : Sketchlog.StreamLog.fromDict M own.toDict = .ok log := h
    obtain ⟨S', c, hsound⟩ := Sketchlog.StreamLog.fromDict_sound hread
    exact ⟨S', c, hsound.represents, hsound.fits⟩

/-- What a C++ log is merged with holds contents that fit. -/
theorem holds_of_asCpp {log : Cpp.StreamLog} {d : Contents S} (hrep : b.Represents d) (hfits : d.Fits)
    (h : b.asCpp M cppAvailable = .ok log) : (Cpp.StreamLog.backend M).Holds log := by
  cases b with
  | python own =>
    obtain ⟨-, -, h⟩ := bind_eq_ok.mp h
    obtain ⟨validated, hread, h⟩ := bind_eq_ok.mp h
    obtain ⟨S', c, hsound⟩ := Sketchlog.StreamLog.fromDict_sound hread
    have hsound' : ({ validated with deterministic := false } : Sketchlog.StreamLog).Sound M c :=
      ⟨hsound.bounded, ⟨hsound.represents.alpha, hsound.represents.latency, hsound.represents.events,
        hsound.represents.uniques, hsound.represents.total⟩, hsound.fits, hsound.coherent⟩
    obtain ⟨-, hpos, hneg⟩ := Cpp.StreamLog.restore_eq_ok h
    obtain ⟨restored, hrestore, hrestored⟩ := Cpp.StreamLog.restore_ok hsound' rfl hpos hneg
    rw [h] at hrestore
    cases hrestore
    exact ⟨S', c.rounded, hrestored, hsound.fits.rounded⟩
  | cpp own =>
    cases h
    exact ⟨S, d, hrep, hfits⟩

/-- What a new log is. -/
theorem new_cases {cfg : Config} (h : new cppAvailable cfg = .ok b) :
    (usesCpp cppAvailable cfg.deterministic = true ∧ ∃ S, b = .cpp (Cpp.StreamLog.emptyOf S))
      ∨ (usesCpp cppAvailable cfg.deterministic = false
        ∧ ∃ S, b = .python (Sketchlog.StreamLog.emptyOf S cfg.deterministic)) := by
  unfold new at h
  -- the flag picks the backend, and its constructor accepts or raises
  split at h
  · next huses =>
    cases hnew : Cpp.StreamLog.new cfg.relativeAccuracy cfg.hllPrecision cfg.cmsWidth cfg.cmsDepth with
    | ok log =>
      rw [hnew] at h
      cases h
      obtain ⟨S, -, -, -, -, rfl⟩ := Cpp.StreamLog.new_eq_ok hnew
      exact .inl ⟨huses, S, rfl⟩
    | error e =>
      rw [hnew] at h
      cases h
  · next huses =>
    cases hnew : Sketchlog.StreamLog.new cfg with
    | ok log =>
      rw [hnew] at h
      cases h
      obtain ⟨S, -, -, -, -, -, rfl⟩ := Sketchlog.StreamLog.new_eq_ok.mp hnew
      exact .inr ⟨Bool.eq_false_iff.mpr huses, S, rfl⟩
    | error e =>
      rw [hnew] at h
      cases h

theorem isCpp_new {cfg : Config} (h : new cppAvailable cfg = .ok b) :
    b.isCpp = usesCpp cppAvailable cfg.deterministic := by
  rcases new_cases h with ⟨huses, S, rfl⟩ | ⟨huses, S, rfl⟩
  · exact huses.symm
  · exact huses.symm

/-- A new log is empty. -/
theorem represents_new {cfg : Config} (h : new cppAvailable cfg = .ok b) :
    ∃ S, b.Represents (0 : Contents S) := by
  rcases new_cases h with ⟨-, S, rfl⟩ | ⟨-, S, rfl⟩
  · exact ⟨S, Cpp.StreamLog.represents_emptyOf S⟩
  · exact ⟨S, Sketchlog.StreamLog.represents_emptyOf S _⟩

/-- The configuration of a bounded shape makes an empty log of it. -/
theorem new_of_shape {cfg : Config} (hS : S.Bounded)
    (halpha : cfg.relativeAccuracy = .fin ⟨S.alpha, S.alpha_isBinary64⟩)
    (hp : cfg.hllPrecision = S.p) (hwidth : cfg.cmsWidth = S.width) (hdepth : cfg.cmsDepth = S.depth) :
    ∃ b, new cppAvailable cfg = .ok b ∧ b.Represents (0 : Contents S) := by
  unfold new
  split
  · refine ⟨.cpp (Cpp.StreamLog.emptyOf S), ?_, Cpp.StreamLog.represents_emptyOf S⟩
    rw [halpha, hp, hwidth, hdepth, Cpp.StreamLog.new_emptyOf hS]
    rfl
  · refine ⟨.python (Sketchlog.StreamLog.emptyOf S cfg.deterministic), ?_,
      Sketchlog.StreamLog.represents_emptyOf S _⟩
    rw [Sketchlog.StreamLog.new_eq_ok.mpr ⟨S, hS, halpha, hp, hwidth, hdepth, rfl⟩]
    rfl

end Backend

namespace StreamLog

variable {self other : StreamLog}

/-- A log that holds contents that fit, and whose configuration makes an empty log of its kind and
shape. -/
structure Valid (cppAvailable : Bool) (log : StreamLog) {S : Shape} (c : Contents S) : Prop where
  represents : log.backend.Represents c
  fits : c.Fits
  fresh : ∃ b, Backend.new cppAvailable log.config = .ok b ∧ b.Represents (0 : Contents S)
  kind : log.backend.isCpp = Backend.usesCpp cppAvailable log.config.deterministic

/-! ## One merge

A log merges one of the other kind by converting it through its document. What it brings is the
contents of the other log, with extrema rounded on the way to the native side. -/

/-- A merge on the backend with what `read` makes of the other log. -/
theorem onBackend_merge {B : Sketchlog.Backend M} {backend : B.Log → Backend} {a : B.Log}
    {read : Except PyError B.Log}
    (hself : self.backend = backend a) (hx : B.Represents a S x) (hxf : x.Fits)
    (hread : ∀ b, read = .ok b → B.Holds b) :
    Guarded (liftExcept read >>= fun b => onBackend a backend (B.merge b)) self
      (∃ y, (∃ b, read = .ok b ∧ B.Represents b S y) ∧ (x + y).Fits)
      (fun t => ∃ a' y, t = { self with backend := backend a' }
        ∧ (∃ b, read = .ok b ∧ B.Represents b S y)
        ∧ (x + y).Fits ∧ B.Represents a' S (x + y)) := by
  have hput : ({ self with backend := backend a } : StreamLog) = self := by
    rw [← hself]
  cases read with
  | error e => exact .reject (fun ⟨_, ⟨_, hok, _⟩, _⟩ => nomatch hok) e rfl
  | ok b =>
    have hmerge : Guarded (onBackend a backend (B.merge b)) self _ _ :=
      Guarded.zoom hput (Backend.merge_guarded_any hx hxf (hread b rfl))
    refine hmerge.imp ⟨?_, ?_⟩ ?_
    · rintro ⟨y, hy, hfits⟩
      exact ⟨y, ⟨b, rfl, hy⟩, hfits⟩
    · rintro ⟨y, ⟨b', hok, hy⟩, hfits⟩
      cases hok
      exact ⟨y, hy, hfits⟩
    · rintro t - ⟨a', ⟨y, hy, hfits, hrep⟩, rfl⟩
      exact ⟨a', y, rfl, ⟨b, rfl, hy⟩, hfits, hrep⟩

/-- `self` takes the other log over with the contents `y`. -/
def Brings (M : IndexMapping) (cppAvailable : Bool) (self other : StreamLog) {S : Shape}
    (y : Contents S) : Prop :=
  match self.backend with
  | .python _ => ∃ b, other.backend.asPython M = .ok b ∧ b.Represents y
  | .cpp _ => ∃ b, other.backend.asCpp M cppAvailable = .ok b ∧ b.Represents y

theorem Brings.unique {y z : Contents S} (hy : Brings M cppAvailable self other y)
    (hz : Brings M cppAvailable self other z) : y = z := by
  unfold Brings at hy hz
  cases hb : self.backend with
  | python a =>
    rw [hb] at hy hz
    obtain ⟨b, hok, hrep⟩ := hy
    obtain ⟨b', hok', hrep'⟩ := hz
    rw [hok] at hok'
    cases hok'
    exact hrep.contents_eq hrep'
  | cpp a =>
    rw [hb] at hy hz
    obtain ⟨b, hok, hrep⟩ := hy
    obtain ⟨b', hok', hrep'⟩ := hz
    rw [hok] at hok'
    cases hok'
    exact hrep.toPython.contents_eq hrep'.toPython

/-- A merge is accepted exactly when the other log can be brought over with contents that fit. -/
theorem merge_brings {S' : Shape} {d : Contents S'} (h : self.Valid cppAvailable x)
    (hother : other.backend.Represents d) (hfits : d.Fits) :
    Guarded (merge M cppAvailable other) self
      (∃ y : Contents S, Brings M cppAvailable self other y ∧ (x + y).Fits)
      (fun t => t.config = self.config
        ∧ ∃ y : Contents S, Brings M cppAvailable self other y ∧ t.Valid cppAvailable (x + y)) := by
  unfold merge Brings
  apply Guarded.get_bind
  have hrep := h.represents
  have hkind := h.kind
  cases hb : self.backend with
  | python a =>
    rw [hb] at hrep hkind
    refine (onBackend_merge (B := Sketchlog.StreamLog.backend M) hb hrep h.fits
      fun b => Backend.holds_of_asPython hother hfits).imp Iff.rfl ?_
    rintro t - ⟨a', y, rfl, hy, hsum, hrep'⟩
    exact ⟨rfl, y, hy, hrep', hsum, h.fresh, hkind⟩
  | cpp a =>
    rw [hb] at hrep hkind
    refine (onBackend_merge (B := Cpp.StreamLog.backend M) hb hrep h.fits
      fun b => Backend.holds_of_asCpp hother hfits).imp Iff.rfl ?_
    rintro t - ⟨a', y, rfl, hy, hsum, hrep'⟩
    exact ⟨rfl, y, hy, hrep', hsum, h.fresh, hkind⟩

/-- A well-formed log is taken over with its contents, rounded by a C++ log. -/
theorem brings_iff (hK : M.Int32Keys) (h : self.Valid cppAvailable x) {S' : Shape} {d : Contents S'}
    (hother : other.backend.Sound M d) {y : Contents S} :
    Brings M cppAvailable self other y
      ↔ ∃ z : Contents S, other.backend.Represents z ∧ y = Backend.taken self.backend.isCpp z := by
  have hkind := h.kind
  unfold Brings
  cases hb : self.backend with
  | python a =>
    obtain ⟨b, hok, hrep⟩ := hother.asPython
    constructor
    · rintro ⟨b', hok', hy⟩
      rw [hok] at hok'
      cases hok'
      obtain rfl := hy.shape_eq hrep
      exact ⟨d, hother.represents, hy.contents_eq hrep⟩
    · rintro ⟨z, hz, rfl⟩
      obtain rfl := hz.shape_eq hother.represents
      rw [hz.contents_eq hother.represents]
      exact ⟨b, hok, hrep⟩
  | cpp a =>
    -- a log of the C++ backend was made with it
    have havailable : cppAvailable = true := by
      rw [hb] at hkind
      exact (Bool.and_eq_true_iff.mp hkind.symm).1
    subst havailable
    obtain ⟨b, hok, hrep⟩ := hother.asCpp hK
    constructor
    · rintro ⟨b', hok', hy⟩
      rw [hok] at hok'
      cases hok'
      obtain rfl := hy.toPython.shape_eq hrep.toPython
      exact ⟨d, hother.represents, hy.toPython.contents_eq hrep.toPython⟩
    · rintro ⟨z, hz, rfl⟩
      obtain rfl := hz.shape_eq hother.represents
      rw [hz.contents_eq hother.represents]
      exact ⟨b, hok, hrep⟩

/-- **A merge with a well-formed log** is accepted exactly when it is of the same shape and the sum
fits. -/
theorem merge_guarded (hK : M.Int32Keys) (h : self.Valid cppAvailable x) {S' : Shape} {d : Contents S'}
    (hother : other.backend.Sound M d) :
    Guarded (merge M cppAvailable other) self
      (∃ z : Contents S, other.backend.Represents z ∧ (x + Backend.taken self.backend.isCpp z).Fits)
      (fun t => t.config = self.config ∧ ∃ z : Contents S, other.backend.Represents z
        ∧ t.Valid cppAvailable (x + Backend.taken self.backend.isCpp z)) := by
  refine (merge_brings h hother.represents hother.fits).imp ⟨?_, ?_⟩ ?_
  · rintro ⟨y, hy, hfits⟩
    obtain ⟨z, hz, rfl⟩ := (brings_iff hK h hother).mp hy
    exact ⟨z, hz, hfits⟩
  · rintro ⟨z, hz, hfits⟩
    exact ⟨_, (brings_iff hK h hother).mpr ⟨z, hz, rfl⟩, hfits⟩
  · rintro t - ⟨hconfig, y, hy, hvalid⟩
    obtain ⟨z, hz, rfl⟩ := (brings_iff hK h hother).mp hy
    exact ⟨hconfig, z, hz, hvalid⟩

/-! ## Copies

A snapshot is a log of the same kind and configuration, with the same contents. -/

/-- A log can be merged into a log of its own kind as it is. -/
theorem brings_of_kind {y : Contents S} (hkind : self.backend.isCpp = other.backend.isCpp)
    (hy : other.backend.Represents y) : Brings M cppAvailable self other y := by
  unfold Brings
  cases hb : self.backend with
  | python a =>
    cases ho : other.backend with
    | python b =>
      rw [ho] at hy
      exact ⟨b, rfl, hy⟩
    | cpp b =>
      rw [hb, ho] at hkind
      cases hkind
  | cpp a =>
    cases ho : other.backend with
    | python b =>
      rw [hb, ho] at hkind
      cases hkind
    | cpp b =>
      rw [ho] at hy
      exact ⟨b, rfl, hy⟩

/-- **A copy has the contents and the configuration of its original.** -/
theorem getSnapshot_eq_ok (h : self.Valid cppAvailable x) :
    ∃ t, self.getSnapshot M cppAvailable = .ok t ∧ t.config = self.config ∧ t.Valid cppAvailable x := by
  obtain ⟨b, hnew, hempty⟩ := h.fresh
  have hclone : self.cloneEmpty cppAvailable = .ok ⟨self.config, b⟩ := by
    rw [cloneEmpty, new, hnew]
    rfl
  have hkind : b.isCpp = self.backend.isCpp := (Backend.isCpp_new hnew).trans h.kind.symm
  have hvalid : (⟨self.config, b⟩ : StreamLog).Valid cppAvailable (0 : Contents S) :=
    ⟨hempty, Contents.fits_zero, h.fresh, Backend.isCpp_new hnew⟩
  have hmerge := merge_brings (M := M) hvalid h.represents h.fits
  have hbrings : Brings M cppAvailable ⟨self.config, b⟩ self x := brings_of_kind hkind h.represents
  have hfits : (0 + x).Fits := by
    rw [zero_add]
    exact h.fits
  obtain ⟨t, hrun, hconfig, y, hy, ht⟩ := hmerge.run_ok ⟨x, hbrings, hfits⟩
  rw [hy.unique hbrings, zero_add] at ht
  refine ⟨t, bind_eq_ok.mpr ⟨_, hclone, Cpp.exec_eq_ok hrun⟩, hconfig, ht⟩

/-! ## Reachable logs

By induction on how a log was reached, on either backend it stands for contents that fit. -/

/-- The logs a program can hold. The facade rejects some calls before the backend does, which is no
step. -/
inductive Reachable (M : IndexMapping) (cppAvailable : Bool) : StreamLog → Prop where
  | new {log : StreamLog} (cfg : Config) (h : new cppAvailable cfg = .ok log) :
      Reachable M cppAvailable log
  | fromDict {log : StreamLog} (data : PyVal) (h : fromDict M cppAvailable data = .ok log) :
      Reachable M cppAvailable log
  | python {cfg : Config} {log : Sketchlog.StreamLog} (op : Ingest UniqueItem)
      (h : Reachable M cppAvailable ⟨cfg, .python log⟩) :
      Reachable M cppAvailable ⟨cfg, .python (after (Sketchlog.StreamLog.ingest M op) log)⟩
  | cpp {cfg : Config} {log : Cpp.StreamLog} (op : Ingest EventKey)
      (h : Reachable M cppAvailable ⟨cfg, .cpp log⟩) :
      Reachable M cppAvailable ⟨cfg, .cpp (after (Cpp.StreamLog.ingest M op) log)⟩
  | resetPython {cfg : Config} {log : Sketchlog.StreamLog}
      (h : Reachable M cppAvailable ⟨cfg, .python log⟩) :
      Reachable M cppAvailable ⟨cfg, .python (after Sketchlog.StreamLog.reset log)⟩
  | resetCpp {cfg : Config} {log : Cpp.StreamLog} (h : Reachable M cppAvailable ⟨cfg, .cpp log⟩) :
      Reachable M cppAvailable ⟨cfg, .cpp (after Cpp.StreamLog.reset log)⟩
  | merge {log other : StreamLog} (h : Reachable M cppAvailable log)
      (h' : Reachable M cppAvailable other) :
      Reachable M cppAvailable (after (merge M cppAvailable other) log)

theorem valid_new {cfg : Config} {log : StreamLog} (h : new cppAvailable cfg = .ok log) :
    ∃ S, log.Valid cppAvailable (0 : Contents S) := by
  unfold new at h
  cases hnew : Backend.new cppAvailable cfg with
  | ok b =>
    rw [hnew] at h
    cases h
    obtain ⟨S, hempty⟩ := Backend.represents_new hnew
    exact ⟨S, hempty, Contents.fits_zero, ⟨b, hnew, hempty⟩, Backend.isCpp_new hnew⟩
  | error e =>
    rw [hnew] at h
    cases h

/-- The configuration of a validated document makes empty logs of its shape. -/
theorem new_configOf (cppAvailable : Bool) {validated : Sketchlog.StreamLog} (h : validated.Sound M c) :
    ∃ b, Backend.new cppAvailable (configOf validated) = .ok b ∧ b.Represents (0 : Contents S) := by
  have halpha : (configOf validated).relativeAccuracy = .fin ⟨S.alpha, S.alpha_isBinary64⟩ := by
    unfold configOf floatOf
    dsimp only
    rw [h.represents.alpha, dif_pos S.alpha_isBinary64]
  have hp : (configOf validated).hllPrecision = S.p := by
    unfold configOf
    rw [h.represents.uniques]
    rfl
  have hwidth : (configOf validated).cmsWidth = S.width := by
    unfold configOf
    rw [h.represents.events]
    rfl
  have hdepth : (configOf validated).cmsDepth = S.depth := by
    unfold configOf
    rw [h.represents.events]
    rfl
  exact Backend.new_of_shape h.bounded halpha hp hwidth hdepth

/-- What `from_dict` restores, of a validated document. -/
theorem fromDict_cases {data : PyVal} {log : StreamLog} (h : fromDict M cppAvailable data = .ok log) :
    ∃ validated S, ∃ c : Contents S, validated.Sound M c ∧ log.config = configOf validated
      ∧ log.backend.isCpp = Backend.usesCpp cppAvailable validated.deterministic
      ∧ log.backend.Represents (Backend.taken log.backend.isCpp c) := by
  obtain ⟨validated, hread, h⟩ := bind_eq_ok.mp h
  obtain ⟨backend, hbackend, h⟩ := bind_eq_ok.mp h
  obtain ⟨fresh, hnew, h⟩ := bind_eq_ok.mp h
  cases h
  obtain ⟨S, c, hsound⟩ := Sketchlog.StreamLog.fromDict_sound hread
  obtain ⟨b, hb, -⟩ := new_configOf cppAvailable hsound
  have hconfig : fresh.config = configOf validated := by
    rw [new, hb] at hnew
    rw [← Except.ok.inj hnew]
  refine ⟨validated, S, c, hsound, hconfig, ?_⟩
  unfold Backend.restore at hbackend
  -- the flag picks the backend again, now for the validated log
  split at hbackend
  · next huses =>
    cases hrestore : Cpp.StreamLog.restore validated with
    | ok restored =>
      rw [hrestore] at hbackend
      cases hbackend
      obtain ⟨hdet, hpos, hneg⟩ := Cpp.StreamLog.restore_eq_ok hrestore
      obtain ⟨log', hrestore', hrep⟩ := Cpp.StreamLog.restore_ok hsound hdet hpos hneg
      rw [hrestore] at hrestore'
      cases hrestore'
      exact ⟨huses.symm, hrep⟩
    | error e =>
      rw [hrestore] at hbackend
      cases hbackend
  · next huses =>
    cases hbackend
    exact ⟨(Bool.eq_false_iff.mpr huses).symm, hsound.represents⟩

theorem fits_taken (h : c.Fits) (isCpp : Bool) : (Backend.taken isCpp c).Fits := by
  cases isCpp with
  | false => exact h
  | true => exact h.rounded

theorem valid_fromDict {data : PyVal} {log : StreamLog} (h : fromDict M cppAvailable data = .ok log) :
    ∃ S, ∃ c : Contents S, log.Valid cppAvailable c := by
  obtain ⟨validated, S, c, hsound, hconfig, hkind, hrep⟩ := fromDict_cases h
  refine ⟨S, _, hrep, fits_taken hsound.fits _, ?_, ?_⟩
  · rw [hconfig]
    exact new_configOf cppAvailable hsound
  · rw [hconfig]
    exact hkind

/-- **What `from_dict` restores is well formed.** -/
theorem sound_fromDict (hR : M.RoundsInts) {data : PyVal} {log : StreamLog}
    (h : fromDict M cppAvailable data = .ok log) : ∃ S, ∃ c : Contents S, log.backend.Sound M c := by
  obtain ⟨validated, S, c, hsound, -, -, hrep⟩ := fromDict_cases h
  refine ⟨S, _, hsound.bounded, hrep, fits_taken hsound.fits _, ?_⟩
  cases log.backend.isCpp with
  | false => exact hsound.coherent
  | true => exact hsound.coherent.rounded hR

/-- **Every reachable log is valid.** -/
theorem Reachable.valid {log : StreamLog} (h : Reachable M cppAvailable log) :
    ∃ S, ∃ c : Contents S, log.Valid cppAvailable c := by
  -- each constructor of a history keeps the log valid for some contents
  induction h with
  | new cfg hnew =>
    obtain ⟨S, hvalid⟩ := valid_new hnew
    exact ⟨S, 0, hvalid⟩
  | fromDict data hread => exact valid_fromDict hread
  | python op _ ih =>
    obtain ⟨S, c, hvalid⟩ := ih
    have hstep := Sketchlog.StreamLog.ingest_guarded (M := M) hvalid.represents hvalid.fits op
    -- a call is accepted and adds its contents, or raises and changes nothing
    by_cases hok : op.Valid M S ∧ (c + op.delta M S).Fits
    · exact ⟨S, c + op.delta M S, hstep.after_of_pos hok, hok.2, hvalid.fresh, hvalid.kind⟩
    · rw [hstep.after_of_neg hok]
      exact ⟨S, c, hvalid⟩
  | cpp op _ ih =>
    obtain ⟨S, c, hvalid⟩ := ih
    have hstep := Cpp.StreamLog.ingest_guarded (M := M) hvalid.represents hvalid.fits op
    by_cases hok : op.toPython.Valid M S ∧ (c + op.toPython.delta M S).Fits
    · exact ⟨S, c + op.toPython.delta M S, hstep.after_of_pos hok, hok.2, hvalid.fresh, hvalid.kind⟩
    · rw [hstep.after_of_neg hok]
      exact ⟨S, c, hvalid⟩
  | resetPython _ ih =>
    obtain ⟨S, c, hvalid⟩ := ih
    obtain ⟨log', hrun, hrep⟩ := Sketchlog.StreamLog.run_reset hvalid.represents
    refine ⟨S, 0, ?_, Contents.fits_zero, hvalid.fresh, hvalid.kind⟩
    rwa [after, hrun]
  | resetCpp _ ih =>
    obtain ⟨S, c, hvalid⟩ := ih
    obtain ⟨log', hrun, hrep⟩ := Cpp.StreamLog.run_reset hvalid.represents
    refine ⟨S, 0, ?_, Contents.fits_zero, hvalid.fresh, hvalid.kind⟩
    rwa [after, hrun]
  | @merge log other _ _ ih ih' =>
    obtain ⟨S, c, hvalid⟩ := ih
    obtain ⟨S', c', hvalid'⟩ := ih'
    have hstep := merge_brings (M := M) hvalid hvalid'.represents hvalid'.fits
    -- a merge is accepted if the other log brings contents that fit
    by_cases hok : ∃ y : Contents S, Brings M cppAvailable log other y ∧ (c + y).Fits
    · obtain ⟨-, y, -, hafter⟩ := hstep.after_of_pos hok
      exact ⟨S, c + y, hafter⟩
    · rw [hstep.after_of_neg hok]
      exact ⟨S, c, hvalid⟩

end StreamLog

end Facade

end Sketchlog
