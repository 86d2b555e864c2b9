import Sketchlog.Python.Json
import Sketchlog.Server.Storage

/-!
# Durable saves and their stamps

`SQLAlchemyStorage.save` serializes the log in a worker thread, then reads `last_updated`, then
compares and writes, each a step that updates and other saves can come between. The stamp decides
whether a later save is skipped, so a row must have every update stamped at or before its stamp. It
does as long as no update is stamped between the serialization of a save and its read of the stamp;
otherwise the row claims an update that it lacks, and the next save, which has it, is skipped.
-/

namespace Sketchlog.Storage

open Imperative Runs

variable {E : Encodings} {C : LogCodec}

/-- A call of `save`, by how far it is. `calls` is the number of calls that the payload has. -/
inductive SavePhase where
  | serialized (payload : Bytes) (calls : ℕ)
  | labelled (payload : Bytes) (calls : ℕ) (lastUpdated : Binary64)
  | done

/-- A log, its row, and the saves of it that have begun. -/
structure Saving (C : LogCodec) where
  timeline : Timeline C.Log
  row : Option Row
  saves : List SavePhase

namespace Saving

inductive Action (C : LogCodec) where
  | call (call : EStateM PyError C.Log Unit)
  | stamp (now : Binary64)
  /-- `to_dict` in the worker thread, which takes the lock. A save that raises here is over. -/
  | serialize
  /-- `last_updated = getattr(log, 'last_updated', ...)`, with no lock. -/
  | label (i : ℕ)
  | write (i : ℕ)

/-- One step of the log or of one of the saves. -/
def step (E : Encodings) (s : Saving C) : Action C → Option (Saving C)
  | .call call => (s.timeline.apply call).map fun timeline => { s with timeline := timeline }
  | .stamp now => (s.timeline.stamp now).map fun timeline => { s with timeline := timeline }
  | .serialize =>
    if s.timeline.locked then none
    else
      match serializeAndCompressStream E C s.timeline.log with
      | .ok payload =>
        some { s with saves := s.saves ++ [.serialized payload (s.timeline.states.length - 1)] }
      | .error _ => some s
  | .label i =>
    match s.saves[i]? with
    | some (.serialized payload calls) =>
      some { s with saves := s.saves.set i (.labelled payload calls s.timeline.lastUpdated) }
    | _ => none
  | .write i =>
    match s.saves[i]? with
    | some (.labelled payload _ lastUpdated) =>
      some { s with row := upsert payload lastUpdated s.row, saves := s.saves.set i .done }
    | _ => none

/-- The state after some of the calls, as it is stored. -/
def IsPayload (E : Encodings) (s : Saving C) (i : ℕ) (payload : Bytes) : Prop :=
  ∃ log, s.timeline.states[i]? = some log ∧ serializeAndCompressStream E C log = .ok payload

/-- The row has every update that was stamped at or before its stamp. -/
def RowFresh (E : Encodings) (s : Saving C) : Prop :=
  ∀ row, s.row = some row →
    ∃ i, s.IsPayload E i row.payload ∧ s.timeline.Contains i row.lastUpdated.val

/-- A save that will be skipped saves nothing that the row lacks. -/
def SkipsSafely (E : Encodings) (s : Saving C) : Prop :=
  ∀ payload calls lastUpdated row, .labelled payload calls lastUpdated ∈ s.saves → s.row = some row →
    ¬ row.lastUpdated.val < lastUpdated.val →
    ∃ i, s.IsPayload E i row.payload ∧ ∀ kt ∈ s.timeline.stamps, kt.1 ≤ calls → kt.1 ≤ i

/-- No update was stamped since the save that reads its stamp has serialized the log. -/
def Clean (s : Saving C) : Action C → Prop
  | .label i => ∀ payload calls, s.saves[i]? = some (.serialized payload calls) →
    ∀ kt ∈ s.timeline.stamps, kt.1 ≤ calls
  | _ => True

/-- The log is new, or was loaded from the row. -/
def Start (E : Encodings) (s : Saving C) : Prop :=
  ∃ log : ThreadSafeStreamLog C.Log, s.timeline = .start log ∧ s.saves = []
    ∧ (s.row = none ∨ ∃ payload, serializeAndCompressStream E C log.log = .ok payload
      ∧ s.row = some ⟨payload, log.lastUpdated⟩)

/-! ## The invariant

A save runs beside the updates: it serializes the log, reads the stamp, and writes. `PhaseOk` says
for each phase what the text and the label have to do with the states of the timeline. One lemma per
action. -/

/-- A save in progress: its payload is a past state, a call whose stamp is pending came later, and a
stamp that was read is right. -/
def PhaseOk (E : Encodings) (s : Saving C) : SavePhase → Prop
  | .serialized payload calls => s.IsPayload E calls payload
      ∧ (s.timeline.locked = true → calls < s.timeline.states.length - 1)
  | .labelled payload calls lastUpdated => s.IsPayload E calls payload
      ∧ (s.timeline.locked = true → calls < s.timeline.states.length - 1)
      ∧ lastUpdated.val ≤ s.timeline.clock
      ∧ s.timeline.Contains calls lastUpdated.val
      ∧ ∀ kt ∈ s.timeline.stamps, kt.1 ≤ calls → kt.2 ≤ lastUpdated.val
  | .done => True

structure Invariant (E : Encodings) (s : Saving C) : Prop where
  consistent : s.timeline.Consistent
  phases : ∀ phase ∈ s.saves, s.PhaseOk E phase
  row : ∀ row, s.row = some row → row.lastUpdated.val ≤ s.timeline.clock
    ∧ ∃ i, s.IsPayload E i row.payload ∧ s.timeline.Contains i row.lastUpdated.val

variable {s s' : Saving C}

/-- Past states stay where they are. -/
theorem IsPayload.mono {i : ℕ} {payload : Bytes} (h : s.IsPayload E i payload)
    (hstates : s.timeline.states <+: s'.timeline.states) : s'.IsPayload E i payload := by
  obtain ⟨log, hlog, hpayload⟩ := h
  obtain ⟨rest, hrest⟩ := hstates
  refine ⟨log, ?_, hpayload⟩
  rw [← hrest, List.getElem?_append_left (List.getElem?_eq_some_iff.mp hlog).1]
  exact hlog

/-- An updating call is applied. -/
theorem Invariant.call (h : s.Invariant E) {call : EStateM PyError C.Log Unit}
    {timeline : Timeline C.Log}
    (hcall : s.timeline.apply call = some timeline) :
    Invariant E { s with timeline := timeline } := by
  obtain ⟨hunlocked, log, hlog, hstates, hstamps, hlast, hclock⟩ := Timeline.apply_eq_some hcall
  have hprefix : s.timeline.states <+: timeline.states := hstates ▸ List.prefix_append _ _
  -- the new call comes after every payload
  have hlater : ∀ {i : ℕ} {payload : Bytes}, s.IsPayload E i payload
    → i < timeline.states.length - 1 := by
    intro i payload hpayload
    obtain ⟨past, hpast, -⟩ := hpayload
    have hi := (List.getElem?_eq_some_iff.mp hpast).1
    rw [hstates, List.length_append]
    exact hi
  refine ⟨h.consistent.apply hcall, ?_, ?_⟩
  · intro phase hphase
    have hok := h.phases phase hphase
    cases phase with
    | serialized payload calls =>
      exact ⟨hok.1.mono hprefix, fun _ => hlater hok.1⟩
    | labelled payload calls lastUpdated =>
      obtain ⟨hpayload, -, hle, hcontains, hstamped⟩ := hok
      refine ⟨hpayload.mono hprefix, fun _ => hlater hpayload, ?_, hcontains.apply hcall, ?_⟩
      · show lastUpdated.val ≤ timeline.clock
        rw [hclock]
        exact hle
      · show ∀ kt ∈ timeline.stamps, kt.1 ≤ calls → kt.2 ≤ lastUpdated.val
        rw [hstamps]
        exact hstamped
    | done => trivial
  · intro row hrow
    obtain ⟨hle, i, hpayload, hcontains⟩ := h.row row hrow
    refine ⟨?_, i, hpayload.mono hprefix, hcontains.apply hcall⟩
    show row.lastUpdated.val ≤ timeline.clock
    rw [hclock]
    exact hle

/-- A call is stamped. -/
theorem Invariant.stamp (h : s.Invariant E) {now : Binary64} {timeline : Timeline C.Log}
    (hstamp : s.timeline.stamp now = some timeline) :
    Invariant E { s with timeline := timeline } := by
  obtain ⟨hlocked, hnow, hlog, hstates, hstamps, hlast, hclock, hunlocked⟩ :=
    Timeline.stamp_eq_some hstamp
  have hprefix : s.timeline.states <+: timeline.states := hstates ▸ List.prefix_refl _
  have hreleased : ∀ {P : Prop}, timeline.locked = true → P := by
    intro P htrue
    rw [hunlocked] at htrue
    cases htrue
  refine ⟨h.consistent.stamp hstamp, ?_, ?_⟩
  · intro phase hphase
    have hok := h.phases phase hphase
    cases phase with
    | serialized payload calls => exact ⟨hok.1.mono hprefix, hreleased⟩
    | labelled payload calls lastUpdated =>
      obtain ⟨hpayload, hlater, hle, hcontains, hstamped⟩ := hok
      refine ⟨hpayload.mono hprefix, hreleased, ?_, hcontains.stamp hle hstamp, ?_⟩
      · show lastUpdated.val ≤ timeline.clock
        rw [hclock]
        exact hle.trans hnow.le
      · show ∀ kt ∈ timeline.stamps, kt.1 ≤ calls → kt.2 ≤ lastUpdated.val
        rw [hstamps]
        intro kt hkt hcalls
        rcases List.mem_append.mp hkt with hkt | hkt
        · exact hstamped kt hkt hcalls
        · -- the call that is stamped now is not in the payload
          rw [List.mem_singleton.mp hkt] at hcalls
          exact absurd hcalls (not_le.mpr (hlater hlocked))
    | done => trivial
  · intro row hrow
    obtain ⟨hle, i, hpayload, hcontains⟩ := h.row row hrow
    refine ⟨?_, i, hpayload.mono hprefix, hcontains.stamp hle hstamp⟩
    show row.lastUpdated.val ≤ timeline.clock
    rw [hclock]
    exact hle.trans hnow.le

/-- A save begins. -/
theorem Invariant.serialize (h : s.Invariant E) (hunlocked : ¬ s.timeline.locked = true)
    {payload : Bytes}
    (hpayload : serializeAndCompressStream E C s.timeline.log = .ok payload) :
    Invariant E
      { s with saves := s.saves ++ [.serialized payload (s.timeline.states.length - 1)] } := by
  refine ⟨h.consistent, ?_, h.row⟩
  intro phase hphase
  rcases List.mem_append.mp hphase with hphase | hphase
  · exact h.phases phase hphase
  · rw [List.mem_singleton.mp hphase]
    exact ⟨⟨_, h.consistent.get_current, hpayload⟩, fun hlocked => absurd hlocked hunlocked⟩

/-- A save that reads its stamp, and no update was stamped in between. -/
theorem Invariant.label (h : s.Invariant E) {i calls : ℕ} {payload : Bytes}
    (hsave : s.saves[i]? = some (.serialized payload calls))
    (hclean : ∀ kt ∈ s.timeline.stamps, kt.1 ≤ calls) :
    Invariant E
      { s with saves := s.saves.set i (.labelled payload calls s.timeline.lastUpdated) } := by
  refine ⟨h.consistent, ?_, h.row⟩
  intro phase hphase
  rcases List.mem_or_eq_of_mem_set hphase with hphase | rfl
  · exact h.phases phase hphase
  · obtain ⟨hpayload, hlater⟩ := h.phases _ (List.mem_of_getElem? hsave)
    exact ⟨hpayload, hlater, h.consistent.stamped, fun kt hkt _ => hclean kt hkt,
      fun kt hkt _ => (h.consistent.stamps_le kt hkt).2⟩

/-- A save writes its row, or is skipped. -/
theorem Invariant.write (h : s.Invariant E) {i calls : ℕ} {payload : Bytes} {lastUpdated : Binary64}
    (hsave : s.saves[i]? = some (.labelled payload calls lastUpdated)) :
    Invariant E { s with row := upsert payload lastUpdated s.row, saves := s.saves.set i .done } := by
  obtain ⟨hpayload, -, hle, hcontains, -⟩ := h.phases _ (List.mem_of_getElem? hsave)
  refine ⟨h.consistent, ?_, ?_⟩
  · intro phase hphase
    rcases List.mem_or_eq_of_mem_set hphase with hphase | rfl
    · exact h.phases phase hphase
    · trivial
  · intro row hrow
    have hwritten : row = ⟨payload, lastUpdated⟩ ∨ s.row = some row := by
      change upsert payload lastUpdated s.row = some row at hrow
      cases hold : s.row with
      | none =>
        rw [hold] at hrow
        exact .inl (Option.some.inj hrow).symm
      | some old =>
        rw [hold, upsert] at hrow
        split at hrow
        · exact .inl (Option.some.inj hrow).symm
        · exact .inr hrow
    rcases hwritten with rfl | hold
    · exact ⟨hle, calls, hpayload, hcontains⟩
    · exact h.row row hold

/-- **Every step** that reads no stamp too late keeps the invariant. -/
theorem step_invariant {a : Action C} (h : s.Invariant E) (hclean : s.Clean a)
    (hstep : s.step E a = some s') : s'.Invariant E := by
  -- a call and a stamp go to the timeline; the other three to the saves under way
  cases a with
  | call call =>
    obtain ⟨timeline, hcall, rfl⟩ := Option.map_eq_some_iff.mp hstep
    exact h.call hcall
  | stamp now =>
    obtain ⟨timeline, hstamp, rfl⟩ := Option.map_eq_some_iff.mp hstep
    exact h.stamp hstamp
  | serialize =>
    rw [step] at hstep
    by_cases hlocked : s.timeline.locked = true
    · rw [if_pos hlocked] at hstep
      cases hstep
    · rw [if_neg hlocked] at hstep
      cases hpayload : serializeAndCompressStream E C s.timeline.log with
      | ok payload =>
        rw [hpayload] at hstep
        cases hstep
        exact h.serialize hlocked hpayload
      | error e =>
        rw [hpayload] at hstep
        cases hstep
        exact h
  -- the label read must be the one of the content that was serialized, which `Clean` says
  | label i =>
    rw [step] at hstep
    split at hstep
    · next payload calls hsave =>
      cases hstep
      exact h.label hsave (hclean payload calls hsave)
    · cases hstep
  | write i =>
    rw [step] at hstep
    split at hstep
    · next payload calls lastUpdated hsave =>
      cases hstep
      exact h.write hsave
    · cases hstep

theorem Start.invariant (h : s.Start E) : s.Invariant E := by
  obtain ⟨log, htimeline, hsaves, hrow⟩ := h
  refine ⟨htimeline ▸ Timeline.consistent_start log, ?_, ?_⟩
  · rw [hsaves]
    exact fun phase hphase => absurd hphase List.not_mem_nil
  · intro row hsome
    rcases hrow with hnone | ⟨payload, hpayload, hloaded⟩
    · rw [hnone] at hsome
      cases hsome
    · rw [hloaded] at hsome
      cases hsome
      refine ⟨?_, 0, ⟨log.log, ?_, hpayload⟩, ?_⟩
      · rw [htimeline]
        exact le_rfl
      · rw [htimeline]
        rfl
      · rw [htimeline]
        exact fun kt hkt => absurd hkt List.not_mem_nil

theorem Invariant.skipsSafely (h : s.Invariant E) : s.SkipsSafely E := by
  intro payload calls lastUpdated row hsave hrow hskip
  obtain ⟨-, i, hpayload, hcontains⟩ := h.row row hrow
  obtain ⟨-, -, -, -, hstamped⟩ := h.phases _ hsave
  refine ⟨i, hpayload, fun kt hkt hcalls => hcontains kt hkt ?_⟩
  exact (hstamped kt hkt hcalls).trans (not_lt.mp hskip)

end Saving

open Saving

/-- **Saves label their content rightly when they read the stamp in time.** In every interleaving of
updates and saves in which no update is stamped between the serialization of a save and its read of
`last_updated`, the row always has every update stamped at or before its stamp, and a save is only
skipped when the row has all the updates it would have written. -/
theorem saves_label_content (E : Encodings) {C : LogCodec} {s₀ s : Saving C}
    {as : List (Saving.Action C)}
    (h₀ : s₀.Start E) (hclean : Meets (Saving.step E) Saving.Clean s₀ as)
    (hrun : run (Saving.step E) s₀ as = some s) : s.RowFresh E ∧ s.SkipsSafely E := by
  have hinv : s.Invariant E :=
    run_invariant (fun _ _ _ h hcond hstep => step_invariant h hcond hstep) h₀.invariant hclean hrun
  exact ⟨fun row hrow => (hinv.row row hrow).2, hinv.skipsSafely⟩

/-- Compact JSON, which is ASCII, for documents whose only float is `0.5`. -/
@[irreducible]
def compactDumps (v : PyVal) : Bytes :=
  match Json.text (fun _ => "0.5".toList) v with
  | .ok text => text.map fun c => .ofNat c.toNat
  | .error _ => []

/-- Compact JSON, left uncompressed. -/
def Encodings.compact : Encodings where
  dumps := compactDumps
  loads _ := .error (.valueError "")
  compress bytes := bytes
  decompress _ _ := .error (.valueError "")
  b64encode _ := ""
  b64decode _ := .error (.valueError "")
  parseFloat _ := .error (.valueError "")

theorem serialize_compact {C : LogCodec} {log : C.Log} {payload : Bytes} :
    serializeAndCompressStream .compact C log = .ok payload
      ↔ (compactDumps (C.toDict log)).length ≤ maxSerializedStateBytes ∧ compactDumps (C.toDict log)
        = payload :=
  serializeAndCompressStream_eq_ok

theorem Saving.step_serialize {s : Saving C} {payload : Bytes} (hfree : s.timeline.locked = false)
    (hpayload : serializeAndCompressStream E C s.timeline.log = .ok payload) :
    Saving.step E s .serialize
      = some { s with saves := s.saves ++ [.serialized payload (s.timeline.states.length - 1)] } := by
  rw [Saving.step, hfree, hpayload]
  rfl

/-- The timeline of a log with one update. -/
def Saving.updated (log : ThreadSafeStreamLog C.Log) (log' : C.Log) (now : Binary64) : Timeline C.Log :=
  ⟨⟨log', now⟩, now.val, false, [log.log, log'], [(1, now.val)]⟩

/-- An update and its stamp. -/
theorem Saving.apply_stamp {log : ThreadSafeStreamLog C.Log} {call : EStateM PyError C.Log Unit}
    {log' : C.Log}
    {now : Binary64} (hcall : call.run log.log = .ok () log') (hnow : log.lastUpdated.val < now.val) :
    ∃ timeline, (Timeline.start log).apply call = some timeline
      ∧ timeline.stamp now = some (Saving.updated log log' now) := by
  refine ⟨⟨⟨log', log.lastUpdated⟩, log.lastUpdated.val, true, [log.log, log'], []⟩, ?_,
    if_pos ⟨rfl, hnow⟩⟩
  have hrun : call.run (Timeline.start log).log = .ok () log' := hcall
  have hfree : ¬ (Timeline.start log).locked = true := Bool.false_ne_true
  rw [Timeline.apply, if_neg hfree, hrun]
  rfl

/-- An update, a save of it, and a second save with the same stamp that is yet to be skipped. -/
theorem Saving.run_saved {log : ThreadSafeStreamLog C.Log} {call : EStateM PyError C.Log Unit}
    {log' : C.Log}
    {payload : Bytes} {now : Binary64} (hpayload : serializeAndCompressStream E C log' = .ok payload)
    (hcall : call.run log.log = .ok () log') (hnow : log.lastUpdated.val < now.val) :
    run (Saving.step E) ⟨.start log, none, []⟩
          [.call call, .stamp now, .serialize, .label 0, .write 0, .serialize, .label 1]
        = some ⟨Saving.updated log log' now, some ⟨payload, now⟩, [.done, .labelled payload 1 now]⟩
      ∧ Meets (Saving.step E) Saving.Clean ⟨.start log, none, []⟩
          [.call call, .stamp now, .serialize, .label 0, .write 0, .serialize, .label 1] := by
  obtain ⟨timeline, happly, hstamp⟩ := Saving.apply_stamp hcall hnow
  -- both saves have the one update that is stamped
  have hclean : ∀ {s : Saving C} {i : ℕ}, s.timeline = Saving.updated log log' now →
      s.saves[i]? = some (.serialized payload 1) → s.Clean (.label i) := by
    intro s i htimeline hsave payload' calls hsave' kt hkt
    rw [htimeline] at hkt
    cases hsave.symm.trans hsave'
    rw [List.mem_singleton.mp hkt]
  refine run_meets_cons (congrArg (Option.map _) happly) trivial ?_
  refine run_meets_cons (congrArg (Option.map _) hstamp) trivial ?_
  refine run_meets_cons (Saving.step_serialize rfl hpayload) trivial ?_
  refine run_meets_cons rfl (hclean rfl rfl) ?_
  refine run_meets_cons rfl trivial ?_
  refine run_meets_cons (Saving.step_serialize rfl hpayload) trivial ?_
  exact run_meets_cons rfl (hclean rfl rfl) ⟨rfl, trivial⟩

/-- A save with an update that is stamped between its serialization and its read of the stamp. -/
theorem Saving.run_late {log : ThreadSafeStreamLog C.Log} {call : EStateM PyError C.Log Unit}
    {log' : C.Log}
    {payload : Bytes} {now : Binary64} (hpayload : serializeAndCompressStream E C log.log = .ok payload)
    (hcall : call.run log.log = .ok () log') (hnow : log.lastUpdated.val < now.val) :
    run (Saving.step E) ⟨.start log, none, []⟩ [.serialize, .call call, .stamp now, .label 0, .write 0]
      = some ⟨⟨⟨log', now⟩, now.val, false, [log.log, log'], [(1, now.val)]⟩, some ⟨payload, now⟩,
        [.done]⟩ := by
  obtain ⟨timeline, happly, hstamp⟩ := Saving.apply_stamp hcall hnow
  refine run_cons.mpr ⟨_, Saving.step_serialize rfl hpayload,
    run_cons.mpr ⟨_, congrArg (Option.map _) happly, ?_⟩⟩
  exact run_cons.mpr ⟨_, congrArg (Option.map _) hstamp, rfl⟩

/-- An empty log of accuracy `1/2` with two cells, created at the time 0. -/
def Saving.empty : ThreadSafeStreamLog StreamLog :=
  ⟨⟨.empty (1 / 2), .empty 2 1, .empty 4, 0, false⟩, .ofInt 0 Binary64.abs_zero_lt⟩

/-- The same after ten occurrences of an event. -/
def Saving.ten : StreamLog := after (StreamLog.addEvent (.int 7) 10) Saving.empty.log

theorem Saving.addEvent_empty : (StreamLog.addEvent (.int 7) 10).run Saving.empty.log
    = .ok () Saving.ten := rfl

/-- The document of such a log, by its total and its cells. -/
def Saving.document (total : ℤ) (cells : List ℤ) : PyVal :=
  .dict [(.str "version", .int 1), (.str "total", .int total), (.str "deterministic", .bool false),
    (.str "latency", .dict [(.str "alpha", .float (.fin .half)), (.str "positive", .dict []),
      (.str "negative", .dict []), (.str "zero_count", .int 0), (.str "count", .int 0),
        (.str "min", .none),
      (.str "max", .none)]),
    (.str "uniques", .dict [(.str "precision", .int 4),
      (.str "registers", .list (List.replicate 16 (.int 0)))]),
    (.str "events", .dict [(.str "width", .int 2), (.str "depth", .int 1),
      (.str "table", .list [.list (cells.map .int)]),
      (.str "total", .int total)])]

theorem Saving.ofRat_half : PyVal.ofRat (1 / 2) = .float (.fin .half) :=
  dif_pos Binary64.half.isBinary64

theorem Saving.toDict_empty : Saving.empty.log.toDict = Saving.document 0 [0, 0] := by
  show PyVal.dict [_, _, _, (_, .dict [(_, PyVal.ofRat (1 / 2)), _, _, _, _, _, _]), _, _] = _
  rw [Saving.ofRat_half]
  rfl

theorem Saving.toDict_ten : Saving.ten.toDict = Saving.document 10 [10, 0] := by
  show PyVal.dict [_, _, _, (_, .dict [(_, PyVal.ofRat (1 / 2)), _, _, _, _, _, _]), _, _] = _
  rw [Saving.ofRat_half]
  rfl

theorem Saving.serialize_empty :
    serializeAndCompressStream .compact (.python .ternary) Saving.empty.log
      = .ok (compactDumps (Saving.document 0 [0, 0])) := by
  have hlength : (compactDumps (Saving.document 0 [0, 0])).length ≤ maxSerializedStateBytes := by
    decide +kernel
  rw [← Saving.toDict_empty] at hlength ⊢
  exact serialize_compact.mpr ⟨hlength, rfl⟩

theorem Saving.serialize_ten :
    serializeAndCompressStream .compact (.python .ternary) Saving.ten
      = .ok (compactDumps (Saving.document 10 [10, 0])) := by
  have hlength : (compactDumps (Saving.document 10 [10, 0])).length ≤ maxSerializedStateBytes := by
    decide +kernel
  rw [← Saving.toDict_ten] at hlength ⊢
  exact serialize_compact.mpr ⟨hlength, rfl⟩

/-- A row is not written again under its own stamp. -/
theorem Saving.upsert_same (payload : Bytes) (now : Binary64) :
    upsert payload now (some ⟨payload, now⟩) = some ⟨payload, now⟩ := if_neg (lt_irrefl now.val)

/-- Ten occurrences of an event, stamped at 1 and saved; a second save, with the same stamp, is
skipped. -/
theorem saves_label_content_single : ∃ s s' : Saving (.python .ternary),
    run (Saving.step .compact) ⟨.start Saving.empty, none, []⟩
        [.call (StreamLog.addEvent (.int 7) 10), .stamp (.ofInt 1 Binary64.abs_one_lt),
          .serialize, .label 0, .write 0, .serialize, .label 1] = some s
      ∧ s.row = some ⟨compactDumps (Saving.document 10 [10, 0]), .ofInt 1 Binary64.abs_one_lt⟩
      ∧ s.RowFresh .compact ∧ s.SkipsSafely .compact
      ∧ s.step .compact (.write 1) = some s' ∧ s'.row = s.row := by
  have hnow : Saving.empty.lastUpdated.val < (Binary64.ofInt 1 Binary64.abs_one_lt).val := by decide
  obtain ⟨hrun, hclean⟩ := Saving.run_saved Saving.serialize_ten Saving.addEvent_empty hnow
  obtain ⟨hfresh, hskips⟩ := saves_label_content .compact ⟨_, rfl, rfl, .inl rfl⟩ hclean hrun
  exact ⟨_, _, hrun, rfl, hfresh, hskips, rfl,
    Saving.upsert_same (compactDumps (Saving.document 10 [10, 0])) (.ofInt 1 Binary64.abs_one_lt)⟩

/-- An update that is stamped between the serialization of a save and its read of the stamp: the row
says 1, and lacks the update stamped at 1. -/
theorem save_labels_late : ∃ s : Saving (.python .ternary),
    run (Saving.step .compact) ⟨.start Saving.empty, none, []⟩
        [.serialize, .call (StreamLog.addEvent (.int 7) 10), .stamp (.ofInt 1 Binary64.abs_one_lt),
          .label 0, .write 0]
        = some s
      ∧ ¬ s.RowFresh .compact := by
  refine ⟨_, Saving.run_late Saving.serialize_empty Saving.addEvent_empty
    (by decide : (0 : ℚ) < (1 : ℤ)), fun hfresh => ?_⟩
  obtain ⟨i, ⟨log, hlog, hpayload⟩, hcontains⟩ := hfresh _ rfl
  have hi : 1 ≤ i := hcontains _ List.mem_cons_self le_rfl
  -- only the state after the update has it, and that one is not what was written
  have hone : i = 1 := by
    have hlt := (List.getElem?_eq_some_iff.mp hlog).1
    exact le_antisymm (Nat.lt_succ_iff.mp hlt) hi
  subst hone
  cases hlog
  -- the document of that state is longer
  have hdiffer : (compactDumps (Saving.document 10 [10, 0])).length
      ≠ (compactDumps (Saving.document 0 [0, 0])).length := by
    decide +kernel
  have hsame : compactDumps Saving.ten.toDict = compactDumps (Saving.document 0 [0, 0]) :=
    (serialize_compact.mp hpayload).2
  rw [Saving.toDict_ten] at hsame
  exact hdiffer (congrArg List.length hsame)

end Sketchlog.Storage
