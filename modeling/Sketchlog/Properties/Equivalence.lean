import Sketchlog.Refine.CppQueries
import Sketchlog.Refine.CppReachable

/-!
# The two backends are equivalent

Operations run on a family of logs, kept once by each backend. Two backends whose calls are read alike
hold the same contents after every operation and accept the same operations (`Backend.run_agrees`);
for the Python log and the C++ log, the same contents are the same sketch states and the same answers
to every query (`agree_of_represents`).
-/

namespace Sketchlog

open Imperative

/-- An operation on a family of logs. -/
inductive LogOp (ι Item : Type) where
  | ingest (i : ι) (op : Ingest Item)
  | merge (i j : ι)
  | reset (i : ι)

namespace LogOp

variable {ι Item : Type}

/-- The log the operation is called on. -/
def target : LogOp ι Item → ι
  | .ingest i _ => i
  | .merge i _ => i
  | .reset i => i

/-- The operation, with its ingestion calls translated. -/
def map {Item' : Type} (f : Ingest Item → Ingest Item') : LogOp ι Item → LogOp ι Item'
  | .ingest i op => .ingest i (f op)
  | .merge i j => .merge i j
  | .reset i => .reset i

end LogOp

namespace Backend

variable {M : IndexMapping} {ι : Type}

/-- The call an operation makes on its target. -/
def call (B : Backend M) (logs : ι → B.Log) : LogOp ι B.Item → EStateM PyError B.Log Unit
  | .ingest _ op => B.ingest op
  | .merge _ j => B.merge (logs j)
  | .reset _ => B.reset

/-- The operation is accepted. -/
def AcceptsOp (B : Backend M) (logs : ι → B.Log) (op : LogOp ι B.Item) : Prop :=
  Accepts (B.call logs op) (logs op.target)

/-- The logs after an operation, accepted or rejected. -/
def step [DecidableEq ι] (B : Backend M) (logs : ι → B.Log) (op : LogOp ι B.Item) : ι → B.Log :=
  Function.update logs op.target (after (B.call logs op) (logs op.target))

/-- The logs after a sequence of operations. -/
def runOps [DecidableEq ι] (B : Backend M) (logs : ι → B.Log) (ops : List (LogOp ι B.Item)) :
    ι → B.Log :=
  ops.foldl B.step logs

variable {B B' : Backend M} {S : Shape}

/-- Each log of the one family and its counterpart in the other hold the same contents. -/
def Agrees (B B' : Backend M) (S : Shape) (logs : ι → B.Log) (logs' : ι → B'.Log) : Prop :=
  ∀ i, ∃ c : Contents S, B.Represents (logs i) S c ∧ B'.Represents (logs' i) S c ∧ c.Fits

variable {logs : ι → B.Log} {logs' : ι → B'.Log}

/-- Two guarded calls with one condition and one result. -/
theorem accepts_and_after {log : B.Log} {log' : B'.Log} {x : EStateM PyError B.Log Unit}
    {y : EStateM PyError B'.Log Unit} {P : Prop} {c d : Contents S}
    (hx : Guarded x log P (B.Represents · S d)) (hy : Guarded y log' P (B'.Represents · S d))
    (hP : P → d.Fits) (hc : B.Represents log S c) (hc' : B'.Represents log' S c) (hf : c.Fits) :
    (Accepts x log ↔ Accepts y log')
      ∧ ∃ e : Contents S, B.Represents (after x log) S e ∧ B'.Represents (after y log') S e
        ∧ e.Fits := by
  refine ⟨hx.accepts_iff.trans hy.accepts_iff.symm, ?_⟩
  by_cases h : P
  · exact ⟨d, hx.after_of_pos h, hy.after_of_pos h, hP h⟩
  · rw [hx.after_of_neg h, hy.after_of_neg h]
    exact ⟨c, hc, hc', hf⟩

/-- One operation is accepted by both backends or by neither, with the same result. -/
theorem call_agrees (f : Ingest B'.Item → Ingest B.Item) (hf : ∀ op, B.view (f op) = B'.view op)
    (h : Agrees B B' S logs logs') (op : LogOp ι B'.Item) :
    (B.AcceptsOp logs (op.map f) ↔ B'.AcceptsOp logs' op)
      ∧ ∃ c : Contents S, B.Represents (after (B.call logs (op.map f)) (logs op.target)) S c
        ∧ B'.Represents (after (B'.call logs' op) (logs' op.target)) S c ∧ c.Fits := by
  cases op with
  | ingest i op =>
    obtain ⟨c, hc, hc', hfits⟩ := h i
    have hx := B.ingest_guarded hc hfits (f op)
    rw [hf op] at hx
    exact accepts_and_after hx (B'.ingest_guarded hc' hfits op) And.right hc hc' hfits
  | merge i j =>
    obtain ⟨c, hc, hc', hfits⟩ := h i
    obtain ⟨d, hd, hd', -⟩ := h j
    exact accepts_and_after (B.merge_guarded hc hfits hd) (B'.merge_guarded hc' hfits hd') id hc hc'
      hfits
  | reset i =>
    obtain ⟨c, hc, hc', hfits⟩ := h i
    obtain ⟨log, hrun, hrep⟩ := B.run_reset hc
    obtain ⟨log', hrun', hrep'⟩ := B'.run_reset hc'
    exact accepts_and_after (.of_ok hrun hrep) (.of_ok hrun' hrep') (fun _ => Contents.fits_zero) hc
      hc' hfits

variable [DecidableEq ι]

theorem step_agrees (f : Ingest B'.Item → Ingest B.Item) (hf : ∀ op, B.view (f op) = B'.view op)
    (h : Agrees B B' S logs logs') (op : LogOp ι B'.Item) :
    Agrees B B' S (B.step logs (op.map f)) (B'.step logs' op) := by
  obtain ⟨-, c, hc⟩ := call_agrees f hf h op
  have htarget : (op.map f).target = op.target := by cases op <;> rfl
  intro i
  rw [step, step, htarget]
  by_cases hi : i = op.target
  · subst hi
    rw [Function.update_self, Function.update_self]
    exact ⟨c, hc⟩
  · rw [Function.update_of_ne hi, Function.update_of_ne hi]
    exact h i

/-- Every run. -/
theorem run_agrees (f : Ingest B'.Item → Ingest B.Item) (hf : ∀ op, B.view (f op) = B'.view op)
    (h : Agrees B B' S logs logs') (ops : List (LogOp ι B'.Item)) :
    Agrees B B' S (B.runOps logs (ops.map (·.map f))) (B'.runOps logs' ops) := by
  induction ops generalizing logs logs' with
  | nil => exact h
  | cons op ops ih => exact ih (step_agrees f hf h op)

end Backend

/-- The two logs have the same sketch state and answer every query alike. -/
structure Agree (M : IndexMapping) (py : StreamLog) (cpp : Cpp.StreamLog) : Prop where
  positive : py.latency.positive = cpp.latency.positive.bins
  negative : py.latency.negative = cpp.latency.negative.bins
  zeroCount : py.latency.zeroCount = cpp.latency.zeroCount
  count : py.latency.count = cpp.latency.count
  extrema : py.latency.count > 0 → py.latency.min = (cpp.latency.minValue.val : ERat)
    ∧ py.latency.max = (cpp.latency.maxValue.val : ERat)
  registers : py.uniques.registers = cpp.uniques.registers
  table : py.events.table
    = Cpp.tableRows cpp.events.width cpp.events.depth cpp.events.table
  eventsTotal : py.events.total = cpp.events.totalCount
  total : py.total = cpp.totalEvents
  percentile : ∀ q, py.percentile M q = (cpp.percentile M q).map fun v => (v : ERat)
  countGreaterThan : ∀ threshold, py.countGreaterThan M threshold = cpp.countGreaterThan M threshold
  eventCount : ∀ name, StreamLog.facadeEventCount py.eventCount name
    = StreamLog.facadeEventCount cpp.eventCount name

/-- Logs with the same contents agree. -/
theorem agree_of_represents {M : IndexMapping} {py : StreamLog} {cpp : Cpp.StreamLog} {S : Shape}
    {c : Contents S} (h : py.Represents c) (h' : cpp.Represents c) (hf : c.Fits) : Agree M py cpp := by
  -- equal contents make equal logs, so all fields and all reads are compared by rewriting
  have hlog := h.log_eq h'.toPython
  have hlatency : py.latency = cpp.latency.toPython := congrArg StreamLog.latency hlog
  have hevents : py.events = cpp.toPython.events := h.events.trans h'.toPython.events.symm
  have huniques : py.uniques = cpp.toPython.uniques := h.uniques.trans h'.toPython.uniques.symm
  exact
    { positive := congrArg DDSketch.positive hlatency
      negative := congrArg DDSketch.negative hlatency
      zeroCount := congrArg DDSketch.zeroCount hlatency
      count := congrArg DDSketch.count hlatency
      extrema := by
        intro hcount
        rw [hlatency] at hcount ⊢
        have hne : cpp.latency.count ≠ 0 := ne_of_gt hcount
        exact ⟨if_neg hne, if_neg hne⟩
      registers := congrArg HyperLogLog.registers huniques
      table := congrArg CountMinSketch.table hevents
      eventsTotal := congrArg CountMinSketch.total hevents
      total := congrArg StreamLog.total hlog
      percentile := by
        intro q
        rw [StreamLog.percentile, hlatency]
        cases q with
        | nan => rfl
        | inf _ => rfl
        | fin q =>
          exact congrArg Except.ok (Cpp.DDSketch.quantileAt_toPython h'.latency q.val).symm
      countGreaterThan := by
        intro threshold
        rw [StreamLog.countGreaterThan, hlatency]
        exact (Cpp.DDSketch.countGreaterThan_toPython h'.latency hf.latency threshold).symm
      eventCount := by
        intro name
        unfold StreamLog.facadeEventCount
        by_cases hname : StreamLog.keyOutOfRange name
        · simp only [Checked.failIf, if_pos hname]
          rfl
        · rw [Cpp.StreamLog.eventCount_eq h' hf hname, StreamLog.eventCount, h.events,
            CountMinSketch.estimate_ofCounts S.width_pos S.depth_pos c.events name]
          rfl }

/-- **The Python and C++ backends are equivalent.** A configuration the Python constructor accepts is
accepted by the C++ constructor. A pair of logs is constructed with it in each backend; after every
sequence of operations the two pairs have the same sketch states and answer every query alike, and
accept the same next operations. -/
theorem backends_equivalent (M : IndexMapping) (cfg : Config) (py : StreamLog)
    (hnew : StreamLog.new cfg = .ok py) :
    ∃ cpp, Cpp.StreamLog.new cfg.relativeAccuracy cfg.hllPrecision cfg.cmsWidth cfg.cmsDepth = .ok cpp
      ∧ ∀ ops : List (LogOp Bool EventKey),
        (∀ op, (StreamLog.backend M).AcceptsOp
            ((StreamLog.backend M).runOps (fun _ => py) (ops.map (·.map Ingest.toPython)))
            (op.map Ingest.toPython)
          ↔ (Cpp.StreamLog.backend M).AcceptsOp
            ((Cpp.StreamLog.backend M).runOps (fun _ => cpp) ops) op)
        ∧ ∀ i, Agree M
          ((StreamLog.backend M).runOps (fun _ => py) (ops.map (·.map Ingest.toPython)) i)
          ((Cpp.StreamLog.backend M).runOps (fun _ => cpp) ops i) := by
  obtain ⟨S, hS, halpha, hp, hwidth, hdepth, rfl⟩ := StreamLog.new_eq_ok.mp hnew
  have hcpp := Cpp.StreamLog.new_emptyOf hS
  rw [← halpha, ← hp, ← hwidth, ← hdepth] at hcpp
  refine ⟨Cpp.StreamLog.emptyOf S, hcpp, fun ops => ?_⟩
  -- both start as the empty log of one shape, and `run_agrees` carries that through the calls
  have hstart : Backend.Agrees (StreamLog.backend M) (Cpp.StreamLog.backend M) S
      (fun _ : Bool => StreamLog.emptyOf S cfg.deterministic) fun _ => Cpp.StreamLog.emptyOf S :=
    fun _ => ⟨0, StreamLog.represents_emptyOf S cfg.deterministic,
      Cpp.StreamLog.represents_emptyOf S, Contents.fits_zero⟩
  have hrun := Backend.run_agrees Ingest.toPython (fun _ => rfl) hstart ops
  constructor
  · intro op
    exact (Backend.call_agrees Ingest.toPython (fun _ => rfl) hrun op).1
  · intro i
    obtain ⟨c, hc, hc', hf⟩ := hrun i
    exact agree_of_represents hc hc' hf

/-- Two rejected calls and a self-merge, on logs of accuracy `1/2` with two cells. -/
theorem backends_equivalent_merge :
    StreamLog.new ⟨.fin Binary64.half, 4, 2, 1, false⟩
        = .ok ⟨.empty (1 / 2), .empty 2 1, .empty 4, 0, false⟩
      ∧ ∃ cpp, Cpp.StreamLog.new (.fin Binary64.half) 4 2 1 = .ok cpp
        ∧ ∀ i, Agree .ternary
          ((StreamLog.backend .ternary).runOps
            (fun _ => ⟨.empty (1 / 2), .empty 2 1, .empty 4, 0, false⟩)
            [.ingest true (.event (.int 7) 0), .ingest true (.event (.int 7) 4),
              .ingest true (.unique (.key (.int (-1)))), .merge true true] i)
          ((Cpp.StreamLog.backend .ternary).runOps (fun _ => cpp)
            [.ingest true (.event (.int 7) 0), .ingest true (.event (.int 7) 4),
              .ingest true (.unique (.int (-1))), .merge true true] i) := by
  have hnew : StreamLog.new ⟨.fin Binary64.half, 4, 2, 1, false⟩
      = .ok ⟨.empty (1 / 2), .empty 2 1, .empty 4, 0, false⟩ :=
    StreamLog.new_eq_ok.mpr ⟨⟨1 / 2, 4, 2, 1, Binary64.half.isBinary64, by norm_num [oneMicro],
      by norm_num, by decide, by decide, by decide, by decide⟩, by norm_num [Shape.Bounded], rfl, rfl,
      rfl, rfl, rfl⟩
  obtain ⟨cpp, hcpp, hops⟩ := backends_equivalent .ternary _ _ hnew
  exact ⟨hnew, cpp, hcpp, (hops [.ingest true (.event (.int 7) 0), .ingest true (.event (.int 7) 4),
    .ingest true (.unique (.int (-1))), .merge true true]).2⟩

end Sketchlog
