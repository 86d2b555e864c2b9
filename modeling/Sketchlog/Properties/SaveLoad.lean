import Sketchlog.Lib.LastWriter
import Sketchlog.Properties.RoundTrip
import Sketchlog.Properties.SaveLabels
import Sketchlog.Refine.LogKind
import Sketchlog.Server.Storage

/-!
# Save, then load

With no update beside a save, a save followed by a load should give the log back as it is. Both storage
backends skip a save whose stamp is not newer than the stored one, and an update is stamped with a
clock that need not have moved since the last save. So the log comes back exactly when the state
that is stored under its stamp, if there is one, is its state, and when its document can be read
back at all.
-/

namespace Sketchlog.Storage

open Imperative Runs Checked

variable {E : Encodings} {C : LogCodec}

/-! ## The encodings of one state

What is assumed of JSON, compression and base64: what was written is read back. -/

/-- JSON and zlib give a document back, and it is within the limit. -/
structure Encodings.Faithful (E : Encodings) (d : PyVal) : Prop where
  loads_dumps : E.loads (E.dumps d) = .ok (throughJson d)
  length_json : (E.dumps d).length ≤ maxSerializedStateBytes
  length_payload : (E.compress (E.dumps d)).length ≤ maxSerializedStateBytes
  decompress_compress : E.decompress (E.compress (E.dumps d)) (maxSerializedStateBytes + 1)
    = .ok ⟨E.dumps d, [], [], true, []⟩

/-- The envelope of a state: base64 gives the payload back, and JSON the envelope. -/
structure Encodings.FaithfulEnvelope (E : Encodings) (d : PyVal) (lastUpdated : Binary64) : Prop where
  b64decode_encode : E.b64decode (E.b64encode (E.compress (E.dumps d))) = .ok (E.compress (E.dumps d))
  loads_dumps : E.loads (E.dumps (envelopeDict E (E.compress (E.dumps d)) lastUpdated))
    = .ok (throughJson (envelopeDict E (E.compress (E.dumps d)) lastUpdated))

theorem Encodings.Faithful.serialize {log : C.Log} (h : E.Faithful (C.toDict log)) :
    serializeAndCompressStream E C log = .ok (E.compress (E.dumps (C.toDict log))) :=
  serializeAndCompressStream_eq_ok.mpr ⟨h.length_json, rfl⟩

theorem Encodings.Faithful.deserialize {d : PyVal} (h : E.Faithful d) :
    decompressAndDeserializeStream E (E.compress (E.dumps d)) = .ok (throughJson d) := by
  simp only [decompressAndDeserializeStream, bind_eq_ok, failIf_eq_ok, exists_unit, not_lt]
  refine ⟨h.length_payload, _, h.decompress_compress, ?_, ?_, by simp, ?_⟩
  · exact not_or.mpr ⟨not_lt.mpr h.length_json, not_not.mpr rfl⟩
  · rw [List.append_nil]
    exact h.length_json
  · rw [List.append_nil]
    exact h.loads_dumps

/-- JSON leaves an envelope as it is. -/
theorem throughJson_envelopeDict (payload : Bytes) (lastUpdated : Binary64) :
    throughJson (envelopeDict E payload lastUpdated) = envelopeDict E payload lastUpdated := rfl

theorem parse_envelope {d : PyVal} {lastUpdated : Binary64} (h : E.Faithful d)
    (henv : E.FaithfulEnvelope d lastUpdated) :
    parseStateEnvelope E (E.dumps (envelopeDict E (E.compress (E.dumps d)) lastUpdated))
      = .ok (throughJson d, .fin lastUpdated) := by
  have hload : loadEnvelope E (E.dumps (envelopeDict E (E.compress (E.dumps d)) lastUpdated))
      = .ok (E.compress (E.dumps d), .fin lastUpdated) := by
    unfold loadEnvelope
    rw [henv.loads_dumps, throughJson_envelopeDict]
    show (E.b64decode (E.b64encode (E.compress (E.dumps d))) >>= fun payload =>
      Except.ok (payload, PyFloat.fin lastUpdated)) = _
    rw [henv.b64decode_encode]
    rfl
  unfold parseStateEnvelope
  rw [hload]
  show (decompressAndDeserializeStream E (E.compress (E.dumps d)) >>= _) = _
  rw [h.deserialize]
  rfl

/-! ## What the two backends do

Both kinds of storage keep the newest row. `Durable.Keeps` is the interface that the sessions use. -/

/-- What a load gives for a log that was stored. -/
def restored (C : LogCodec) (kept : ThreadSafeStreamLog C.Log) : Option (C.Log × PyFloat) :=
  match C.fromDict (throughJson (C.toDict kept.log)) with
  | .ok log => some (log, .fin kept.lastUpdated)
  | .error _ => none

/-- A storage backend that keeps logs as `encode` has them: it stores a log unless what is stored
has a stamp that is not older. `Assumed` is what is assumed of the encodings for a log. -/
structure Durable.Keeps (D : Durable C.Log) (Assumed : ThreadSafeStreamLog C.Log → Prop)
    (encode : ThreadSafeStreamLog C.Log → D.Stored) : Prop where
  save_none : ∀ log, Assumed log → D.save log none = .ok (some (encode log))
  save_skipped : ∀ log kept, Assumed log → Assumed kept → log.lastUpdated.val ≤ kept.lastUpdated.val →
    D.save log (some (encode kept)) = .ok (some (encode kept))
  save_newer : ∀ log kept, Assumed log → Assumed kept → kept.lastUpdated.val < log.lastUpdated.val →
    D.save log (some (encode kept)) = .ok (some (encode log))
  load_some : ∀ kept, Assumed kept → D.load (some (encode kept)) = restored C kept

/-- Assumed of a log for `SQLAlchemyStorage`. -/
def AssumedSql (E : Encodings) (C : LogCodec) (log : ThreadSafeStreamLog C.Log) : Prop :=
  E.Faithful (C.toDict log.log)

/-- Assumed of a log for `OmniKVEmbeddedStorage`. -/
def AssumedOmniKV (E : Encodings) (C : LogCodec) (log : ThreadSafeStreamLog C.Log) : Prop :=
  E.Faithful (C.toDict log.log) ∧ E.FaithfulEnvelope (C.toDict log.log) log.lastUpdated

theorem sqlAlchemy_keeps (E : Encodings) (C : LogCodec) :
    (sqlAlchemy E C).Keeps (AssumedSql E C)
      fun log => ⟨E.compress (E.dumps (C.toDict log.log)), log.lastUpdated⟩ where
  save_none := by
    intro log h
    show (serializeAndCompressStream E C log.log >>= _) = _
    rw [Encodings.Faithful.serialize h]
    rfl
  save_skipped := by
    intro log kept h _ hold
    show (serializeAndCompressStream E C log.log >>= _) = _
    rw [Encodings.Faithful.serialize h]
    exact congrArg Except.ok (if_neg (not_lt.mpr hold))
  save_newer := by
    intro log kept h _ hnew
    show (serializeAndCompressStream E C log.log >>= _) = _
    rw [Encodings.Faithful.serialize h]
    exact congrArg Except.ok (if_pos hnew)
  load_some := by
    intro kept h
    show (match decompressAndDeserializeStream E _ >>= C.fromDict with | .ok _ => _ | .error _ => _) = _
    rw [Encodings.Faithful.deserialize h]
    rfl

theorem omniKV_keeps (E : Encodings) (C : LogCodec) :
    (omniKV E C).Keeps (AssumedOmniKV E C)
      fun log => E.dumps (envelopeDict E (E.compress (E.dumps (C.toDict log.log)))
        log.lastUpdated) where
  save_none := by
    intro log h
    show (stateEnvelope E C log.log log.lastUpdated >>= _) = _
    rw [stateEnvelope, h.1.serialize]
    rfl
  save_skipped := by
    intro log kept h hkept hold
    simp only [omniKV, stateEnvelope, h.1.serialize, bind, Except.bind, parse_envelope hkept.1 hkept.2]
    exact if_pos (decide_eq_true hold)
  save_newer := by
    intro log kept h hkept hnew
    simp only [omniKV, stateEnvelope, h.1.serialize, bind, Except.bind, parse_envelope hkept.1 hkept.2]
    exact if_neg fun hle => absurd (of_decide_eq_true hle) (not_le.mpr hnew)
  load_some := by
    intro kept h
    simp only [omniKV, parse_envelope h.1 h.2]
    rfl

/-! ## Sessions

Updates and saves in any order. The row holds the newest state that was saved, unless a save was
skipped because an update and an earlier save share one reading of the clock. -/

variable {M : IndexMapping} {K : LogKind M}

/-- A log and what a storage backend has of it, with no update beside a save. `written` is the log
as it was when a save last wrote it. -/
structure Session (K : LogKind M) (D : Durable K.Log) where
  log : ThreadSafeStreamLog K.Log
  clock : ℚ
  stored : Option D.Stored
  written : Option (ThreadSafeStreamLog K.Log)

namespace Session

inductive Action (K : LogKind M) where
  | update (u : K.Update) (now : Binary64)
  | save

/-- One update or one save; the clock does not go back. A save that raises stores nothing. -/
def step {D : Durable K.Log} (s : Session K D) : Action K → Option (Session K D)
  | .update u now =>
    if s.clock ≤ now.val then some { s with log := s.log.update u.call now, clock := now.val } else none
  | .save =>
    match D.save s.log s.stored with
    | .ok stored =>
      some { s with
        stored := stored
        written := LastWriter.write (fun log : ThreadSafeStreamLog K.Log =>
          log.lastUpdated.val) s.written
          s.log }
    | .error _ => some s

/-- The encodings are as assumed for every log that is saved. -/
def Assumes {D : Durable K.Log} (Assumed : ThreadSafeStreamLog K.Log → Prop) (s : Session K D) :
    Action K → Prop
  | .save => Assumed s.log
  | .update _ _ => True

/-- A log of which nothing is stored yet. -/
structure Initial {D : Durable K.Log} (s : Session K D) : Prop where
  reachable : K.Reachable s.log.log
  stamped : s.log.lastUpdated.val ≤ s.clock
  stored : s.stored = none
  written : s.written = none

/-- What is stored is the log as it was last written, and that was not later than its stamp. -/
structure Invariant {D : Durable K.Log} (Assumed : ThreadSafeStreamLog K.Log → Prop)
    (encode : ThreadSafeStreamLog K.Log → D.Stored) (s : Session K D) : Prop where
  reachable : K.Reachable s.log.log
  stamped : s.log.lastUpdated.val ≤ s.clock
  stored : s.stored = s.written.map encode
  written : ∀ kept, s.written = some kept → Assumed kept ∧ K.Reachable kept.log
    ∧ kept.lastUpdated.val ≤ s.log.lastUpdated.val

variable {D : Durable K.Log} {Assumed : ThreadSafeStreamLog K.Log → Prop}
  {encode : ThreadSafeStreamLog K.Log → D.Stored} {s s' : Session K D}

theorem Initial.invariant (h : s.Initial) : s.Invariant Assumed encode where
  reachable := h.reachable
  stamped := h.stamped
  stored := by rw [h.stored, h.written]; rfl
  written := by
    intro kept hkept
    rw [h.written] at hkept
    cases hkept

/-- An update keeps the log reachable, and its stamp is the old one or the new reading. -/
theorem update_log (u : K.Update) (now : Binary64) (log : ThreadSafeStreamLog K.Log)
    (h : K.Reachable log.log) : K.Reachable (log.update u.call now).log
      ∧ ((log.update u.call now).lastUpdated = log.lastUpdated ∨ (log.update u.call now).lastUpdated
        = now) := by
  have hreach := u.reachable h
  unfold ThreadSafeStreamLog.update
  cases hrun : u.call.run log.log with
  | ok x log' =>
    rw [after, hrun] at hreach
    exact ⟨hreach, .inr rfl⟩
  | error e log' =>
    rw [after, hrun] at hreach
    exact ⟨hreach, .inl rfl⟩

/-- The first save. -/
theorem step_save_none (hD : D.Keeps (C := K.codec) Assumed encode) (hassumed : Assumed s.log)
    (hstored : s.stored = none) (hwritten : s.written = none) :
    s.step .save = some { s with stored := some (encode s.log), written := some s.log } := by
  have hsave := hD.save_none s.log hassumed
  simp only [step, hstored, hsave, hwritten]
  rfl

/-- A save whose encodings are as assumed is completed, and writes unless what is stored is not
older. -/
theorem Invariant.save_eq (hD : D.Keeps (C := K.codec) Assumed encode) (h : s.Invariant Assumed encode)
    (hassumed : Assumed s.log) :
    D.save s.log s.stored
      = .ok ((LastWriter.write (fun log : ThreadSafeStreamLog K.Log => log.lastUpdated.val) s.written
        s.log).map encode) := by
  rw [h.stored]
  cases hwritten : s.written with
  | none => exact hD.save_none s.log hassumed
  | some kept =>
    have hkept := (h.written kept hwritten).1
    by_cases hold : s.log.lastUpdated.val ≤ kept.lastUpdated.val
    · rw [LastWriter.write, if_pos hold]
      exact hD.save_skipped s.log kept hassumed hkept hold
    · rw [LastWriter.write, if_neg hold]
      exact hD.save_newer s.log kept hassumed hkept (not_le.mp hold)

theorem step_invariant (hD : D.Keeps (C := K.codec) Assumed encode) {a : Action K}
    (h : s.Invariant Assumed encode) (hassumes : s.Assumes Assumed a) (hstep : s.step a = some s') :
    s'.Invariant Assumed encode := by
  cases a with
  | update u now =>
    obtain ⟨hnow, hs'⟩ := Option.ite_none_right_eq_some.mp hstep
    cases hs'
    obtain ⟨hreach, hstamp⟩ := update_log u now s.log h.reachable
    -- an update moves the stamp forward, but not past the clock
    have hlater : s.log.lastUpdated.val ≤ (s.log.update u.call now).lastUpdated.val
        ∧ (s.log.update u.call now).lastUpdated.val ≤ now.val := by
      rcases hstamp with heq | heq
      · rw [heq]
        exact ⟨le_rfl, h.stamped.trans hnow⟩
      · rw [heq]
        exact ⟨h.stamped.trans hnow, le_rfl⟩
    refine ⟨hreach, hlater.2, h.stored, fun kept hkept => ?_⟩
    obtain ⟨hassumed, hreach', hle⟩ := h.written kept hkept
    exact ⟨hassumed, hreach', hle.trans hlater.1⟩
  | save =>
    have hsave := h.save_eq hD hassumes
    simp only [step, hsave, Option.some.injEq] at hstep
    subst hstep
    refine ⟨h.reachable, h.stamped, rfl, fun kept hkept => ?_⟩
    -- the row is replaced unless it carries a stamp that is as late
    change LastWriter.write (fun log : ThreadSafeStreamLog K.Log => log.lastUpdated.val) s.written s.log
      = some kept at hkept
    cases hwritten : s.written with
    | none =>
      rw [hwritten] at hkept
      cases hkept
      exact ⟨hassumes, h.reachable, le_rfl⟩
    | some old =>
      rw [hwritten, LastWriter.write] at hkept
      split at hkept
      · cases hkept
        exact h.written kept hwritten
      · cases hkept
        exact ⟨hassumes, h.reachable, le_rfl⟩

end Session

open Session

/-- After a completed save, a load gives the log back exactly when the state that a save has written
under the log's stamp, if there is one, is its state, and the log is `Restorable`. In every session
of updates and saves, for the storage backend `D`. -/
def LoadsWhatWasSaved (K : LogKind M) (Restorable : K.Log → Prop) (D : Durable K.Log)
    (Assumed : ThreadSafeStreamLog K.Log → Prop) : Prop :=
  ∀ (s₀ s : Session K D) (as : List (Session.Action K)), s₀.Initial →
    Meets Session.step (Assumes Assumed) s₀ as → run Session.step s₀ as = some s → Assumed s.log →
    ∃ stored, D.save s.log s.stored = .ok stored
      ∧ (D.load stored = some (s.log.log, .fin s.log.lastUpdated)
        ↔ Restorable s.log.log ∧ ∀ kept, s.written = some kept →
          kept.lastUpdated.val = s.log.lastUpdated.val → kept.log = s.log.log)

/-- Only restorable logs can be read back from their documents. -/
def ReadsOnly (K : LogKind M) (Restorable : K.Log → Prop) : Prop :=
  ∀ log other, K.Reachable log → K.fromDict (throughJson (K.toDict log)) = .ok other → Restorable log

theorem restored_eq_some_iff {Restorable : K.Log → Prop}
    (hround : RoundTrip K.Reachable Restorable K.toDict K.fromDict) (hreads : ReadsOnly K Restorable)
    {kept : ThreadSafeStreamLog K.Log} (hreach : K.Reachable kept.log) {log : K.Log}
    {lastUpdated : Binary64} :
    restored K.codec kept = some (log, .fin lastUpdated)
      ↔ Restorable kept.log ∧ kept.log = log ∧ kept.lastUpdated = lastUpdated := by
  unfold restored
  cases hread : K.codec.fromDict (throughJson (K.codec.toDict kept.log)) with
  | ok other =>
    have hrestorable : Restorable kept.log := hreads _ _ hreach hread
    -- what is read is the log itself
    have hsame : other = kept.log := by
      have hback := ((hround.restores _ hreach).mpr hrestorable).2
      exact Except.ok.inj (hread.symm.trans hback)
    subst hsame
    show some (kept.log, PyFloat.fin kept.lastUpdated) = some (log, PyFloat.fin lastUpdated) ↔ _
    rw [Option.some.injEq, Prod.mk.injEq, PyFloat.fin.injEq]
    exact (and_iff_right hrestorable).symm
  | error e =>
    refine iff_of_false (fun h => by cases h) fun h => ?_
    have hback := ((hround.restores _ hreach).mpr h.1).2
    cases hread.symm.trans hback

/-- What a save writes, and what a load then gives, for one storage backend and one log type. -/
theorem loadsWhatWasSaved {D : Durable K.Log} {Assumed : ThreadSafeStreamLog K.Log → Prop}
    {encode : ThreadSafeStreamLog K.Log → D.Stored} {Restorable : K.Log → Prop}
    (hD : D.Keeps (C := K.codec) Assumed encode)
    (hround : RoundTrip K.Reachable Restorable K.toDict K.fromDict) (hreads : ReadsOnly K Restorable) :
    LoadsWhatWasSaved K Restorable D Assumed := by
  intro s₀ s as h₀ hassumes hrun hassumed
  have hinv : s.Invariant Assumed encode :=
    run_invariant (fun _ _ _ h hcond hstep => step_invariant hD h hcond hstep) h₀.invariant hassumes
      hrun
  refine ⟨_, hinv.save_eq hD hassumed, ?_⟩
  cases hwritten : s.written with
  | none =>
    show D.load (some (encode s.log)) = _ ↔ _
    rw [hD.load_some s.log hassumed]
    refine (restored_eq_some_iff hround hreads hinv.reachable).trans ?_
    simp
  | some kept =>
    obtain ⟨hkept, hreach, hle⟩ := hinv.written kept hwritten
    by_cases hold : s.log.lastUpdated.val ≤ kept.lastUpdated.val
    · -- skipped: the stamps are equal, and what is stored is `kept`
      have hstamps : kept.lastUpdated = s.log.lastUpdated := Binary64.ext (le_antisymm hle hold)
      rw [LastWriter.write, if_pos hold]
      show D.load (some (encode kept)) = _ ↔ _
      rw [hD.load_some kept hkept]
      refine (restored_eq_some_iff hround hreads hreach).trans ?_
      constructor
      · intro hback
        obtain ⟨hrestorable, hlog, -⟩ := hback
        refine ⟨hlog ▸ hrestorable, fun other hother _ => ?_⟩
        cases hother
        exact hlog
      · intro hrestorable
        obtain ⟨hrestorable, hsame⟩ := hrestorable
        have hlog := hsame kept rfl (congrArg Binary64.val hstamps)
        exact ⟨hlog ▸ hrestorable, hlog, hstamps⟩
    · -- written: no stamp is shared
      rw [LastWriter.write, if_neg hold]
      show D.load (some (encode s.log)) = _ ↔ _
      rw [hD.load_some s.log hassumed]
      refine (restored_eq_some_iff hround hreads hinv.reachable).trans ?_
      constructor
      · intro hback
        refine ⟨hback.1, fun other hother hstamp => ?_⟩
        cases hother
        exact absurd hstamp.ge hold
      · intro hrestorable
        exact ⟨hrestorable.1, rfl, rfl⟩

theorem readsOnly_cpp : ReadsOnly (.cpp M) Cpp.StreamLog.CellsBounded := by
  intro log other hreach hread
  obtain ⟨S, c, hrep, -⟩ := hreach.holds
  obtain ⟨d, hd, hdoc⟩ := Cpp.StreamLog.toDict_isLogDoc hrep
  change Cpp.StreamLog.fromDict M (throughJson log.toDict) = .ok other at hread
  rw [Cpp.StreamLog.throughJson_toDict hrep, hd] at hread
  obtain ⟨v, hv, -⟩ := Cpp.StreamLog.fromDict_eq_ok hread
  exact Cpp.StreamLog.bounded_of_fromDict hdoc hv

/-- **Save, then load.** In both storage backends, a completed save is followed by a load that gives
the log and its stamp back exactly when no other state was written under that stamp and, for a C++
log, its table has at most a million cells. -/
theorem save_then_load_iff (E : Encodings) (hM : M.Monotone) (hR : M.RoundsInts) (hK : M.Int32Keys) :
    LoadsWhatWasSaved (.python M) (fun _ => True) (sqlAlchemy E (LogKind.python M).codec)
        (AssumedSql E (LogKind.python M).codec)
      ∧ LoadsWhatWasSaved (.python M) (fun _ => True) (omniKV E (LogKind.python M).codec)
        (AssumedOmniKV E (LogKind.python M).codec)
      ∧ LoadsWhatWasSaved (.cpp M) Cpp.StreamLog.CellsBounded (sqlAlchemy E (LogKind.cpp M).codec)
        (AssumedSql E (LogKind.cpp M).codec)
      ∧ LoadsWhatWasSaved (.cpp M) Cpp.StreamLog.CellsBounded (omniKV E (LogKind.cpp M).codec)
        (AssumedOmniKV E (LogKind.cpp M).codec) := by
  have hpython : ReadsOnly (.python M) fun _ => True := fun _ _ _ _ => trivial
  exact ⟨loadsWhatWasSaved (sqlAlchemy_keeps E _) (StreamLog.roundTrip hM) hpython,
    loadsWhatWasSaved (omniKV_keeps E _) (StreamLog.roundTrip hM) hpython,
    loadsWhatWasSaved (sqlAlchemy_keeps E _) (Cpp.StreamLog.roundTrip hM hR hK) readsOnly_cpp,
    loadsWhatWasSaved (omniKV_keeps E _) (Cpp.StreamLog.roundTrip hM hR hK) readsOnly_cpp⟩

/-! ## A tie

A session that saves, updates and saves again, once at later readings and once within a single one. -/

/-- Compact JSON that can be read back for two documents. -/
def Encodings.known : Encodings where
  dumps := compactDumps
  loads bytes :=
    match [Saving.document 0 [0, 0], Saving.document 10 [10, 0]].find? fun d =>
      compactDumps d = bytes with
    | some d => .ok d
    | none => .error (.valueError "Expecting value")
  compress bytes := bytes
  decompress bytes _ := .ok ⟨bytes, [], [], true, []⟩
  b64encode _ := ""
  b64decode _ := .error (.valueError "Incorrect padding")
  parseFloat _ := .error (.valueError "could not convert string to float")

theorem Encodings.known_faithful {total : ℤ} {cells : List ℤ}
    (hlength : (compactDumps (Saving.document total cells)).length ≤ maxSerializedStateBytes)
    (hloads : Encodings.known.loads (compactDumps (Saving.document total cells))
      = .ok (throughJson (Saving.document total cells))) :
    Encodings.known.Faithful (Saving.document total cells) :=
  ⟨hloads, hlength, hlength, rfl⟩

theorem Encodings.known_empty : AssumedSql .known (.python .coarse) Saving.empty := by
  have hlength : (compactDumps (Saving.document 0 [0, 0])).length ≤ maxSerializedStateBytes := by
    decide +kernel
  show Encodings.known.Faithful Saving.empty.log.toDict
  rw [Saving.toDict_empty]
  refine Encodings.known_faithful hlength ?_
  simp only [Encodings.known, List.find?_cons, decide_true]
  rfl

theorem Encodings.known_ten (now : Binary64) :
    AssumedSql .known (.python .coarse) ⟨Saving.ten, now⟩ := by
  have hlength : (compactDumps (Saving.document 10 [10, 0])).length ≤ maxSerializedStateBytes := by
    decide +kernel
  have hdiffer : compactDumps (Saving.document 0 [0, 0]) ≠ compactDumps
    (Saving.document 10 [10, 0]) := by
    decide +kernel
  show Encodings.known.Faithful Saving.ten.toDict
  rw [Saving.toDict_ten]
  refine Encodings.known_faithful hlength ?_
  simp only [Encodings.known, List.find?_cons, decide_eq_false hdiffer, decide_true]
  rfl

/-- The session that begins with the empty log, at the time 0. -/
def Session.empty : Session (.python .coarse) (sqlAlchemy .known (LogKind.python .coarse).codec) :=
  ⟨Saving.empty, 0, none, none⟩

theorem Session.empty_initial : Session.empty.Initial where
  reachable := .new ⟨.fin Binary64.half, 4, 2, 1, false⟩ (StreamLog.new_eq_ok.mpr
    ⟨.oneRow 2 (by norm_num), by norm_num [Shape.Bounded, Shape.oneRow], rfl, rfl, rfl, rfl, rfl⟩)
  stamped := le_rfl
  stored := rfl
  written := rfl

/-- The empty log is saved at the time 0 and then counts an event. -/
theorem Session.run_save_event (now : Binary64) (hnow : 0 ≤ now.val) :
    run Session.step Session.empty [.save, .update (.ingest (.event (.int 7) 10)) now]
      = some { Session.empty with
        log := ⟨Saving.ten, now⟩
        clock := now.val
        stored := some ⟨Encodings.known.compress (Encodings.known.dumps Saving.empty.log.toDict),
          Saving.empty.lastUpdated⟩
        written := some Saving.empty } := by
  have hsave := Session.step_save_none (s := Session.empty)
    (sqlAlchemy_keeps .known (LogKind.python .coarse).codec) Encodings.known_empty rfl rfl
  refine run_cons.mpr ⟨_, hsave, run_cons.mpr ⟨_, if_pos hnow, rfl⟩⟩

theorem Session.meets_save_event (now : Binary64) :
    Meets Session.step (Assumes (AssumedSql .known (LogKind.python .coarse).codec)) Session.empty
      [.save, .update (.ingest (.event (.int 7) 10)) now] :=
  ⟨Encodings.known_empty, fun _ _ => ⟨trivial, fun _ _ => trivial⟩⟩

/-- With the event counted at the time 1, the second save writes again, and a load gives the log with
the event and its stamp. -/
theorem save_then_load_again : ∃ s stored,
    run Session.step Session.empty
        [.save, .update (.ingest (.event (.int 7) 10)) (.ofInt 1 Binary64.abs_one_lt)] = some s
      ∧ s.written = some Saving.empty ∧ s.log = ⟨Saving.ten, .ofInt 1 Binary64.abs_one_lt⟩
      ∧ (sqlAlchemy .known (LogKind.python .coarse).codec).save s.log s.stored = .ok stored
      ∧ (sqlAlchemy .known (LogKind.python .coarse).codec).load stored
        = some (s.log.log, .fin s.log.lastUpdated) := by
  obtain ⟨hsql, -⟩ := save_then_load_iff .known IndexMapping.coarse_monotone
    IndexMapping.coarse_roundsInts IndexMapping.coarse_int32Keys
  have hrun := Session.run_save_event (.ofInt 1 Binary64.abs_one_lt) (by decide)
  obtain ⟨stored, hsave, hload⟩ := hsql _ _ _ Session.empty_initial (Session.meets_save_event _) hrun
    (Encodings.known_ten _)
  have hstamps : (Binary64.ofInt 0 Binary64.abs_zero_lt).val
    ≠ (Binary64.ofInt 1 Binary64.abs_one_lt).val
    := by decide
  refine ⟨_, stored, hrun, rfl, rfl, hsave, hload.mpr ⟨trivial, fun kept hkept hstamp => ?_⟩⟩
  -- what was written before has another stamp
  cases hkept
  exact absurd hstamp hstamps

/-- The log is saved at the time 0 and then counts an event, at the time 0 still. -/
def Session.tied : List (Session.Action (.python .coarse)) :=
  [.save, .update (.ingest (.event (.int 7) 10)) (.ofInt 0 Binary64.abs_zero_lt)]

/-- The next save is skipped, and a load gives the log without the event. -/
theorem save_skipped_at_tie :
    ∃ s stored, run Session.step Session.empty Session.tied = some s
      ∧ Meets Session.step (Assumes (AssumedSql .known (LogKind.python .coarse).codec)) Session.empty
        Session.tied
      ∧ AssumedSql .known (LogKind.python .coarse).codec s.log
      ∧ (sqlAlchemy .known (LogKind.python .coarse).codec).save s.log s.stored = .ok stored
      ∧ (sqlAlchemy .known (LogKind.python .coarse).codec).load stored
        ≠ some (s.log.log, .fin s.log.lastUpdated) := by
  have hrun := Session.run_save_event (.ofInt 0 Binary64.abs_zero_lt) (by decide)
  have hmeets := Session.meets_save_event (.ofInt 0 Binary64.abs_zero_lt)
  obtain ⟨stored, hstored, hload⟩ :=
    loadsWhatWasSaved (sqlAlchemy_keeps .known (LogKind.python .coarse).codec)
    (StreamLog.roundTrip IndexMapping.coarse_monotone) (fun _ _ _ _ => trivial) Session.empty _ _
    Session.empty_initial hmeets hrun (Encodings.known_ten _)
  refine ⟨_, stored, hrun, hmeets, Encodings.known_ten _, hstored, fun hback => ?_⟩
  -- what was written under the stamp 0 is the empty log, which has counted no event
  have hsame : Saving.empty.log = Saving.ten := (hload.mp hback).2 Saving.empty rfl rfl
  have hdocument : Saving.document 0 [0, 0] = Saving.document 10 [10, 0] := by
    rw [← Saving.toDict_empty, ← Saving.toDict_ten, hsame]
  simp [Saving.document] at hdocument

end Sketchlog.Storage
