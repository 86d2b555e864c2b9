import Sketchlog.Lib.StaleCopies
import Sketchlog.Properties.SaveLoad
import Sketchlog.Properties.RegistryLimits

/-!
# Eviction loses no update

With a storage backend the resident streams are a write-back cache: a stream is changed in memory
only, an eviction saves it first, and the flush loop saves copies that may be stale when they are
written. Seen from outside there is one map without a limit, from which a stream is never evicted:
`replay` of what was accepted. `Coherent` says how the cache and the storage hold that map between
two steps, and every step keeps it (`streams_refine_replay`).

Some things can break it, and are excluded (`Orderly`). An update that is stamped at the reading of
the clock of the last save is not saved again. A `DELETE` that commits while a save of its stream is
pending, or while the flush loop takes a snapshot, is undone by that save, and a `DELETE` of a mesh
loses what is added to its stream before it takes that out of the memory. And a save of
`SQLAlchemyStorage` that reads its stamp after an update that it did not serialize claims that
update.
-/

namespace Sketchlog.Server

open Storage Runs

variable {M : IndexMapping} {K : LogKind M} {D : Saver K.Log} {empty : K.Log} {clock : ℚ}

/-! ## The updates of one caller

Each call that is accepted stamps the log with a reading of the clock, and the readings increase
(`Ticks`). -/

abbrev stampOf (log : ThreadSafeStreamLog K.Log) : ℚ := log.lastUpdated.val

/-- A log that two stamps and one state make the same. -/
theorem eq_of_stampOf {a b : ThreadSafeStreamLog K.Log} (hlog : a.log = b.log)
    (hstamp : stampOf a = stampOf b) :
    a = b := by
  obtain ⟨log, lastUpdated⟩ := a
  obtain ⟨log', lastUpdated'⟩ := b
  have hlast : lastUpdated = lastUpdated' := Binary64.ext hstamp
  have hlog' : log = log' := hlog
  rw [hlast, hlog']

/-- Readings of a clock that strictly increases. -/
def Ticks (clock : ℚ) (times : List Binary64) : Prop :=
  (clock :: times.map Binary64.val).IsChain (· < ·)

instance (clock : ℚ) (times : List Binary64) : Decidable (Ticks clock times) :=
  inferInstanceAs (Decidable ((clock :: times.map Binary64.val).IsChain (· < ·)))

theorem ticks_cons {now : Binary64} {times : List Binary64} :
    Ticks clock (now :: times) ↔ clock < now.val ∧ Ticks now.val times := List.isChain_cons_cons

theorem clockAfter_cons (now : Binary64) (times : List Binary64) :
    clockAfter clock (now :: times) = clockAfter now.val times := by
  cases times with
  | nil => rfl
  | cons next times => rfl

theorem le_clockAfter {times : List Binary64} (h : Ticks clock times) :
    clock ≤ clockAfter clock times := by
  induction times generalizing clock with
  | nil => exact le_rfl
  | cons now times ih =>
    obtain ⟨hnow, hrest⟩ := ticks_cons.mp h
    rw [clockAfter_cons]
    exact hnow.le.trans (ih hrest)

/-- The calls leave the log as it was, or stamp it later. -/
theorem applyCalls_stamp {calls : List (K.Update × Binary64)} {log : ThreadSafeStreamLog K.Log}
    (hlog : K.Reachable log.log) (hclock : stampOf log ≤ clock) (h : Ticks clock (calls.map Prod.snd)) :
    K.Reachable (applyCalls calls log).log
      ∧ stampOf (applyCalls calls log) ≤ clockAfter clock (calls.map Prod.snd)
      ∧ (applyCalls calls log = log ∨ stampOf log < stampOf (applyCalls calls log)) := by
  induction calls generalizing log clock with
  | nil => exact ⟨hlog, hclock, .inl rfl⟩
  | cons call calls ih =>
    obtain ⟨u, now⟩ := call
    obtain ⟨hnow, hrest⟩ := ticks_cons.mp h
    have hreach := u.reachable hlog
    have hafter : clockAfter clock (((u, now) :: calls).map Prod.snd) = clockAfter now.val
      (calls.map Prod.snd) :=
      clockAfter_cons now _
    rw [hafter]
    unfold applyCalls
    cases hrun : u.call.run log.log with
    | ok x log' =>
      rw [Imperative.after, hrun] at hreach
      have hnext : stampOf (⟨log', now⟩ : ThreadSafeStreamLog K.Log) ≤ now.val := le_rfl
      have hreachable : K.Reachable (⟨log', now⟩ : ThreadSafeStreamLog K.Log).log := hreach
      obtain ⟨hreach', hle, hsame⟩ := ih hreachable hnext hrest
      have hlater : stampOf log < now.val := hclock.trans_lt hnow
      refine ⟨hreach', hle, .inr ?_⟩
      obtain heq | hlt := hsame
      · show stampOf log < stampOf (applyCalls calls ⟨log', now⟩)
        rw [heq]
        exact hlater
      · exact hlater.trans hlt
    | error e log' =>
      -- a call that raises leaves the log as it was
      have hback : log' = log.log := u.error_state hlog hrun
      subst hback
      exact ⟨hlog, hclock.trans (hnow.le.trans (le_clockAfter hrest)), .inl rfl⟩

/-! ## The two backends, once more -/

/-- A save of a backend that keeps logs is a write to a register with the greatest stamp. -/
theorem keeps_save {D : Durable K.Log} {Assumed : ThreadSafeStreamLog K.Log → Prop}
    {encode : ThreadSafeStreamLog K.Log → D.Stored} (hD : D.Keeps (C := K.codec) Assumed encode)
    {row : Option (ThreadSafeStreamLog K.Log)} (hrow : ∀ kept, row = some kept → Assumed kept)
    {log : ThreadSafeStreamLog K.Log} (hlog : Assumed log) :
    D.save log (row.map encode) = .ok ((LastWriter.write stampOf row log).map encode) := by
  cases row with
  | none => exact hD.save_none log hlog
  | some kept =>
    by_cases hold : stampOf log ≤ stampOf kept
    · rw [LastWriter.write, if_pos hold]
      exact hD.save_skipped log kept hlog (hrow kept rfl) hold
    · rw [LastWriter.write, if_neg hold]
      exact hD.save_newer log kept hlog (hrow kept rfl) (not_le.mp hold)

/-- A state that a backend gives back: the encodings are as assumed for it, and its document can be
read. -/
def Fine (Assumed : ThreadSafeStreamLog K.Log → Prop) (Restorable : K.Log → Prop)
    (log : ThreadSafeStreamLog K.Log) :
    Prop := Assumed log ∧ Restorable log.log

/-- What the server relies on: a save writes to a register that keeps the latest stamp, a load reads
it. -/
structure Serves (D : Durable K.Log) (Good : ThreadSafeStreamLog K.Log → Prop)
    (encode : ThreadSafeStreamLog K.Log → D.Stored) : Prop where
  save : ∀ (row : Option (ThreadSafeStreamLog K.Log)) log, (∀ kept, row = some kept → Good kept)
    → Good log →
    D.save log (row.map encode) = .ok ((LastWriter.write stampOf row log).map encode)
  load_none : D.load none = none
  load_some : ∀ log, Good log → K.Reachable log.log →
    D.load (some (encode log)) = some (log.log, .fin log.lastUpdated)

theorem Serves.of_keeps {D : Durable K.Log} {Assumed : ThreadSafeStreamLog K.Log → Prop}
    {Restorable : K.Log → Prop}
    {encode : ThreadSafeStreamLog K.Log → D.Stored} (hD : D.Keeps (C := K.codec) Assumed encode)
    (hnone : D.load none = none) (hround : RoundTrip K.Reachable Restorable K.toDict K.fromDict)
    (hreads : ReadsOnly K Restorable) : Serves D (Fine Assumed Restorable) encode where
  save := fun row log hrow hlog => keeps_save hD (fun kept hkept => (hrow kept hkept).1) hlog.1
  load_none := hnone
  load_some := fun log hlog hreach => by
    rw [hD.load_some log hlog.1]
    exact (restored_eq_some_iff hround hreads hreach).mpr ⟨hlog.2, rfl, rfl⟩

/-! ## The invariant

What is resident, what is stored and what is on its way to the storage agree with the updates that
were accepted. One lemma for each part of the host's step. -/

namespace Host

variable {s s' : Host K D}

/-- The deletion of the stream has committed, and the stream is still in memory. -/
def Deleting (s : Host K D) (name : StreamName) : Prop :=
  ∃ request, s.operation = some ⟨request, name, .deleted⟩

/-- What is stored for a stream is a copy of what the map has for it; of a stream that is not
resident it is all. -/
structure StoredFor (encode : ThreadSafeStreamLog K.Log → D.Stored)
    (Good : ThreadSafeStreamLog K.Log → Prop)
    (current : Option (ThreadSafeStreamLog K.Log)) (resident : Option ℕ) (stored : Option D.Stored)
    (row : Option (ThreadSafeStreamLog K.Log)) : Prop where
  stored : stored = row.map encode
  good : ∀ kept, row = some kept → Good kept
  honest : ∀ kept, row = some kept → ∃ log, current = some log ∧ LastWriter.Honest stampOf log kept
  absent : resident = none → row = current

/-- What the flush loop has read of the log `log` of a stream, of which the map has `current`. -/
structure CopyOf (log current : ThreadSafeStreamLog K.Log) (copy : Copy K.Log) : Prop where
  reachable : ∀ l, copy.log = some l → K.Reachable l
  stamped : ∀ t, copy.lastUpdated = some t → t.val ≤ stampOf log
  honest : ∀ l t, copy.log = some l → copy.lastUpdated = some t
    → LastWriter.Honest stampOf current ⟨l, t⟩

/-- What the holder of the lock knows. -/
def Knows (encode : ThreadSafeStreamLog K.Log → D.Stored) (Good : ThreadSafeStreamLog K.Log → Prop)
    (contents : Contents K) (s : Host K D) (op : Operation K.Log) : Prop :=
  match op.stage with
  | .loading => s.registry.peek op.name = none
  | .loaded stream => s.registry.peek op.name = none ∧ stream = contents op.name
  | .saving stream victim => s.registry.peek op.name = none ∧ stream = contents op.name
      ∧ s.registry.peek victim.1 = some victim.2
  | .saved stream victim => s.registry.peek op.name = none ∧ stream = contents op.name
      ∧ s.registry.peek victim.1 = some victim.2
      ∧ ∃ log, contents victim.1 = some log ∧ s.stored victim.1 = some (encode log) ∧ Good log
  | .deleting => True
  | .deleted => contents op.name = none ∧ s.stored op.name = none ∧ ∀ item ∈ s.pending, item.1 ≠ op.name

/-- The resident streams and the storage hold the map `contents`. -/
structure Coherent (encode : ThreadSafeStreamLog K.Log → D.Stored)
    (Good : ThreadSafeStreamLog K.Log → Prop)
    (contents : Contents K) (s : Host K D) : Prop where
  storage : s.registry.storage = true
  /-- Every stream has an object of its own. -/
  bound : ∀ name ref, s.registry.peek name = some ref → ref < s.objects.length
  distinct : ∀ name name' ref, s.registry.peek name = some ref → s.registry.peek name' = some ref
    → name = name'
  resident : ∀ name ref, s.registry.peek name = some ref → ¬ s.Deleting name
    → s.objects[ref]? = contents name
  reachable : ∀ name log, contents name = some log → K.Reachable log.log ∧ stampOf log ≤ s.clock
  stored : ∀ name, ∃ row, StoredFor encode Good (contents name) (s.registry.peek name)
    (s.stored name) row
  /-- The flush loop goes through streams of the map. Their objects need not be the latest. -/
  pending : ∀ item ∈ s.pending, ∃ log current, s.objects[item.2]? = some log ∧ contents item.1
    = some current
    ∧ LastWriter.Honest stampOf current log ∧ K.Reachable log.log
  owner : ∀ item ∈ s.pending, ∀ name, s.registry.peek name = some item.2 → name = item.1
  copy : ∀ item rest log current, s.pending = item :: rest → s.objects[item.2]? = some log →
    contents item.1 = some current → CopyOf log current s.copy
  operation : ∀ op, s.operation = some op → s.Knows encode Good contents op

variable {encode : ThreadSafeStreamLog K.Log → D.Stored} {Good : ThreadSafeStreamLog K.Log → Prop}
  {contents : Contents K} {name : StreamName} {ref : ℕ} {log : ThreadSafeStreamLog K.Log}

theorem coherent_new (registry : StreamRegistry ℕ) (hstorage : registry.storage = true)
    (hregistry : registry.namespaces = ∅) (clock : ℚ) :
    (new registry clock : Host K D).Coherent encode Good fun _ => none := by
  have hpeek (name : StreamName) (ref : ℕ) : registry.peek name ≠ some ref := by
    rw [StreamRegistry.peek, hregistry]
    exact fun h => by cases h
  refine ⟨hstorage, ?_, ?_, ?_, ?_, ?_, ?_, ?_, ?_, ?_⟩
  · exact fun name ref h => absurd h (hpeek name ref)
  · exact fun name _ ref h => absurd h (hpeek name ref)
  · exact fun name ref h => absurd h (hpeek name ref)
  · intro name log h
    cases h
  · intro name
    refine ⟨none, rfl, fun kept h => ?_, fun kept h => ?_, fun _ => rfl⟩
    · cases h
    · cases h
  · exact fun item h => absurd h List.not_mem_nil
  · exact fun item h => absurd h List.not_mem_nil
  · intro item rest _ _ h
    cases h
  · intro op h
    cases h

theorem not_deleting_of_none (h : s.operation = none) (name : StreamName) : ¬ s.Deleting name := by
  intro hdeleting
  obtain ⟨request, hop⟩ := hdeleting
  rw [h] at hop
  cases hop

theorem not_deleting_of_stage {op : Operation K.Log} (hop : s.operation = some op)
    (hstage : op.stage ≠ .deleted)
    (name : StreamName) : ¬ s.Deleting name := by
  intro hdeleting
  obtain ⟨request, hdeleting⟩ := hdeleting
  rw [hop, Option.some.injEq] at hdeleting
  exact hstage (congrArg Operation.stage hdeleting)

/-- The holder of the lock goes on to another stage, or gives the lock back, and has not just
deleted a stream. -/
theorem Coherent.set_operation (h : s.Coherent encode Good contents) (hnot : ∀ name, ¬ s.Deleting name)
    {operation : Option (Operation K.Log)}
    (hknows : ∀ op, operation = some op
      → Knows encode Good contents { s with operation := operation } op) :
    Coherent encode Good contents { s with operation := operation } where
  storage := h.storage
  bound := h.bound
  distinct := h.distinct
  resident := fun name ref hpeek _ => h.resident name ref hpeek (hnot name)
  reachable := h.reachable
  stored := h.stored
  pending := h.pending
  owner := h.owner
  copy := h.copy
  operation := hknows

/-- Time goes by. -/
theorem Coherent.tick (h : s.Coherent encode Good contents) {now : ℚ} (hnow : s.clock ≤ now) :
    Coherent encode Good contents { s with clock := now } where
  storage := h.storage
  bound := h.bound
  distinct := h.distinct
  resident := h.resident
  reachable := fun name log hlog =>
    ⟨(h.reachable name log hlog).1, (h.reachable name log hlog).2.trans hnow⟩
  stored := h.stored
  pending := h.pending
  owner := h.owner
  copy := h.copy
  operation := h.operation

/-- The registry finds the same streams in another order. -/
theorem Coherent.of_peek (h : s.Coherent encode Good contents) {registry : StreamRegistry ℕ}
    (hstorage : registry.storage = s.registry.storage)
    (hpeek : ∀ name, registry.peek name = s.registry.peek name)
    (uses : List StreamName) :
      Coherent encode Good contents { s with registry := registry, uses := uses } where
  storage := hstorage.trans h.storage
  bound := fun name ref hfind => h.bound name ref ((hpeek name).symm.trans hfind)
  distinct := fun name name' ref hfind hfind' =>
    h.distinct name name' ref ((hpeek name).symm.trans hfind) ((hpeek name').symm.trans hfind')
  resident := fun name ref hfind hnot => h.resident name ref ((hpeek name).symm.trans hfind) hnot
  reachable := h.reachable
  stored := fun name => by
    show ∃ row, StoredFor encode Good (contents name) (registry.peek name) (s.stored name) row
    rw [hpeek]
    exact h.stored name
  pending := h.pending
  owner := fun item hitem name hfind => h.owner item hitem name ((hpeek name).symm.trans hfind)
  copy := h.copy
  operation := fun op hop => by
    have hknows := h.operation op hop
    unfold Knows at hknows ⊢
    simp only [hpeek]
    exact hknows

theorem Coherent.use (h : s.Coherent encode Good contents) (name : StreamName) :
    (s.use name).Coherent encode Good contents :=
  h.of_peek (s.registry.moveToEnd_limits name).2.2 (fun _ => StreamRegistry.peek_moveToEnd) _

/-- A stream is put into the registry: what the map has of it, or a new one. -/
theorem Coherent.enter (h : s.Coherent encode Good contents) (name : StreamName)
    (log : ThreadSafeStreamLog K.Log)
    (hnot : ∀ name, ¬ s.Deleting name)
    (hlog : ∀ current, contents name = some current → current = log)
    (hreach : K.Reachable log.log) (hstamp : stampOf log ≤ s.clock) :
    (s.enter name log).Coherent encode Good (Function.update contents name (some log)) := by
  -- a name finds the new stream or what it found before
  have hfind (name' : StreamName) (ref : ℕ)
    (hfind : (s.registry.put name s.objects.length).peek name' = some ref) :
      name' = name ∧ ref = s.objects.length ∨ name' ≠ name ∧ s.registry.peek name' = some ref := by
    rw [StreamRegistry.peek_put] at hfind
    by_cases heq : name' = name
    · rw [if_pos heq, Option.some.injEq] at hfind
      exact .inl ⟨heq, hfind.symm⟩
    · rw [if_neg heq] at hfind
      exact .inr ⟨heq, hfind⟩
  -- whatever the contents said of a name they still say
  have hcurrent (name' : StreamName) (current : ThreadSafeStreamLog K.Log)
    (hc : contents name' = some current) :
      Function.update contents name (some log) name' = some current := by
    by_cases heq : name' = name
    · rw [heq] at hc ⊢
      rw [Function.update_self, hlog current hc]
    · rw [Function.update_of_ne heq, hc]
  -- the earlier objects keep their places
  have hold (ref : ℕ) (l : ThreadSafeStreamLog K.Log) (hl : s.objects[ref]? = some l) :
      (s.objects ++ [log])[ref]? = some l := by
    rw [List.getElem?_append_left (List.getElem?_eq_some_iff.mp hl).1, hl]
  refine ⟨h.storage, ?_, ?_, ?_, ?_, ?_, ?_, ?_, ?_, ?_⟩
  · -- the reference is new, so it is in range and no other name has it
    intro name' ref hfind'
    show ref < (s.objects ++ [log]).length
    rw [List.length_append, List.length_singleton]
    obtain ⟨-, heq⟩ | ⟨-, hpeek'⟩ := hfind name' ref hfind'
    · omega
    · have hlt := h.bound name' ref hpeek'
      omega
  · intro name₁ name₂ ref hfind₁ hfind₂
    obtain ⟨heq₁, href₁⟩ | ⟨-, hpeek₁⟩ := hfind name₁ ref hfind₁
    · obtain ⟨heq₂, -⟩ | ⟨-, hpeek₂⟩ := hfind name₂ ref hfind₂
      · rw [heq₁, heq₂]
      · have hlt := h.bound name₂ ref hpeek₂
        omega
    · obtain ⟨-, href₂⟩ | ⟨-, hpeek₂⟩ := hfind name₂ ref hfind₂
      · have hlt := h.bound name₁ ref hpeek₁
        omega
      · exact h.distinct name₁ name₂ ref hpeek₁ hpeek₂
  · -- the new object is what the contents say of its name
    intro name' ref hfind' _
    show (s.objects ++ [log])[ref]? = _
    obtain ⟨heq, href⟩ | ⟨hne, hpeek'⟩ := hfind name' ref hfind'
    · rw [heq, href, Function.update_self, List.getElem?_concat_length]
    · rw [Function.update_of_ne hne, List.getElem?_append_left (h.bound name' ref hpeek')]
      exact h.resident name' ref hpeek' (hnot name')
  · intro name' current hc
    by_cases heq : name' = name
    · rw [heq, Function.update_self, Option.some.injEq] at hc
      rw [← hc]
      exact ⟨hreach, hstamp⟩
    · rw [Function.update_of_ne heq] at hc
      exact h.reachable name' current hc
  · -- the row says of its stream what it said; the name itself is resident from now on
    intro name'
    obtain ⟨row, hstored, hgood, hhonest, habsent⟩ := h.stored name'
    refine ⟨row, hstored, hgood, fun kept hkept => ?_, fun hnone => ?_⟩
    · obtain ⟨current, hc, hcopy⟩ := hhonest kept hkept
      exact ⟨current, hcurrent name' current hc, hcopy⟩
    · change (s.registry.put name s.objects.length).peek name' = none at hnone
      rw [StreamRegistry.peek_put] at hnone
      by_cases heq : name' = name
      · rw [if_pos heq] at hnone
        cases hnone
      · rw [if_neg heq] at hnone
        rw [Function.update_of_ne heq]
        exact habsent hnone
  · -- the flush under way refers to earlier objects only
    intro item hitem
    obtain ⟨l, current, hl, hc, hcopy, hreach'⟩ := h.pending item hitem
    exact ⟨l, current, hold item.2 l hl, hcurrent item.1 current hc, hcopy, hreach'⟩
  · intro item hitem name' hfind'
    obtain ⟨-, href⟩ | ⟨-, hpeek'⟩ := hfind name' item.2 hfind'
    · obtain ⟨l, _, hl, -⟩ := h.pending item hitem
      have hlt := (List.getElem?_eq_some_iff.mp hl).1
      omega
    · exact h.owner item hitem name' hpeek'
  · intro item rest l current hpending hl hc
    have hitem : item ∈ s.pending := by
      change s.pending = item :: rest at hpending
      rw [hpending]
      exact List.mem_cons_self
    obtain ⟨l', current', hl', hc', -⟩ := h.pending item hitem
    have hsame : l' = l := Option.some.inj ((hold item.2 l' hl').symm.trans hl)
    have hsame' : current' = current := Option.some.inj ((hcurrent item.1 current' hc').symm.trans hc)
    exact h.copy item rest l current hpending (hsame ▸ hl') (hsame' ▸ hc')
  · intro op hop
    cases hop

/-- The caller of `get_or_create` updates the stream that it has got. -/
theorem Coherent.call (h : s.Coherent encode Good contents) (hnone : s.operation = none)
    (hpeek : s.registry.peek name = some ref) (hlog : contents name = some log)
    {calls : List (K.Update × Binary64)}
    (hticks : Ticks s.clock (calls.map Prod.snd)) (history : List (StreamName × Event K)) :
    Coherent encode Good (Function.update contents name (some (applyCalls calls log)))
      { s with
        objects := s.objects.modify ref (applyCalls calls)
        clock := clockAfter s.clock (calls.map Prod.snd)
        history := history } := by
  obtain ⟨hreach, hstamp⟩ := h.reachable name log hlog
  obtain ⟨hreach', hstamp', hlater⟩ := applyCalls_stamp hreach hstamp hticks
  have hobject : s.objects[ref]? = some log :=
    (h.resident name ref hpeek (not_deleting_of_none hnone name)).trans hlog
  have hle := le_clockAfter hticks
  -- what was a copy of the log is a copy of the updated log
  have hhonest (copy : ThreadSafeStreamLog K.Log) (hcopy : LastWriter.Honest stampOf log copy) :
      LastWriter.Honest stampOf (applyCalls calls log) copy := by
    obtain heq | hlt := hlater
    · rw [heq]
      exact hcopy
    · exact hcopy.of_lt hlt
  have hget (ref' : ℕ) : (s.objects.modify ref (applyCalls calls))[ref']?
      = (s.objects[ref']?).map fun l => if ref = ref' then applyCalls calls l else l :=
        List.getElem?_modify ..
  have hself : (s.objects.modify ref (applyCalls calls))[ref]? = some (applyCalls calls log) := by
    rw [hget, hobject, Option.map_some, if_pos rfl]
  have hother (ref' : ℕ) (hne : ref' ≠ ref) : (s.objects.modify ref (applyCalls calls))[ref']?
    = s.objects[ref']? := by
    rw [hget]
    simp only [if_neg hne.symm, Option.map_id']
  have hcurrent (name' : StreamName) (current copy : ThreadSafeStreamLog K.Log)
    (hc : contents name' = some current)
      (hcopy : LastWriter.Honest stampOf current copy) :
      ∃ current', Function.update contents name (some (applyCalls calls log)) name' = some current'
        ∧ LastWriter.Honest stampOf current' copy := by
    by_cases heq : name' = name
    · rw [heq, hlog, Option.some.injEq] at hc
      rw [heq, Function.update_self]
      exact ⟨_, rfl, hhonest copy (hc ▸ hcopy)⟩
    · rw [Function.update_of_ne heq]
      exact ⟨current, hc, hcopy⟩
  refine ⟨h.storage, ?_, h.distinct, ?_, ?_, ?_, ?_, h.owner, ?_, ?_⟩
  · intro name' ref' hfind
    show ref' < (s.objects.modify ref (applyCalls calls)).length
    rw [List.length_modify]
    exact h.bound name' ref' hfind
  · intro name' ref' hfind hnot
    show (s.objects.modify ref (applyCalls calls))[ref']? = _
    by_cases heq : name' = name
    · have href : ref' = ref := Option.some.inj ((heq ▸ hfind).symm.trans hpeek)
      rw [heq, href, hself, Function.update_self]
    · have hne : ref' ≠ ref := fun href => heq (h.distinct name' name ref (href ▸ hfind) hpeek)
      rw [hother ref' hne, Function.update_of_ne heq]
      exact h.resident name' ref' hfind (not_deleting_of_none hnone name')
  · intro name' current hc
    by_cases heq : name' = name
    · rw [heq, Function.update_self, Option.some.injEq] at hc
      rw [← hc]
      exact ⟨hreach', hstamp'⟩
    · rw [Function.update_of_ne heq] at hc
      exact ⟨(h.reachable name' current hc).1, (h.reachable name' current hc).2.trans hle⟩
  · intro name'
    obtain ⟨row, hstored, hgood, hrow, habsent⟩ := h.stored name'
    refine ⟨row, hstored, hgood, fun kept hkept => ?_, fun hmissing => ?_⟩
    · obtain ⟨current, hc, hcopy⟩ := hrow kept hkept
      exact hcurrent name' current kept hc hcopy
    · have hne : name' ≠ name := fun heq => by
        change s.registry.peek name' = none at hmissing
        rw [heq, hpeek] at hmissing
        cases hmissing
      rw [Function.update_of_ne hne]
      exact habsent hmissing
  · intro item hitem
    obtain ⟨l, current, hl, hc, hcopy, hreachl⟩ := h.pending item hitem
    by_cases href : item.2 = ref
    · have hname : name = item.1 := h.owner item hitem name (href ▸ hpeek)
      refine ⟨applyCalls calls log, applyCalls calls log, ?_, ?_, .refl _, hreach'⟩
      · rw [href]
        exact hself
      · rw [← hname, Function.update_self]
    · obtain ⟨current', hc', hcopy'⟩ := hcurrent item.1 current l hc hcopy
      exact ⟨l, current', (hother item.2 href).trans hl, hc', hcopy', hreachl⟩
  · intro item rest l current' hpending hl hc
    have hitem : item ∈ s.pending := by
      change s.pending = item :: rest at hpending
      rw [hpending]
      exact List.mem_cons_self
    obtain ⟨l₀, current, hl₀, hc₀, -⟩ := h.pending item hitem
    obtain ⟨hreachl, hstamped, hboth⟩ := h.copy item rest l₀ current hpending hl₀ hc₀
    refine ⟨hreachl, fun t ht => (hstamped t ht).trans ?_, fun l' t hl' ht => ?_⟩
    · -- the object of the copy only gets a later stamp
      by_cases href : item.2 = ref
      · rw [href, hobject, Option.some.injEq] at hl₀
        rw [href] at hl
        rw [← Option.some.inj (hself.symm.trans hl), ← hl₀]
        obtain heq | hlt := hlater
        · rw [heq]
        · exact hlt.le
      · rw [Option.some.inj (hl₀.symm.trans ((hother item.2 href).symm.trans hl))]
    · obtain ⟨current₁, hc₁, hcopy⟩ := hcurrent item.1 current ⟨l', t⟩ hc₀ (hboth l' t hl' ht)
      rw [Option.some.inj (hc.symm.trans hc₁)]
      exact hcopy
  · intro op hop
    change s.operation = some op at hop
    rw [hnone] at hop
    cases hop

/-- A stream leaves the memory: it was stored as it is, or the map does not have it. -/
theorem Coherent.remove (h : s.Coherent encode Good contents) (name : StreamName)
    {registry : StreamRegistry ℕ}
    (hstorage : registry.storage = s.registry.storage)
    (hpeek : ∀ name', registry.peek name' = if name' = name then none else s.registry.peek name')
    (hnot : ∀ name', name' ≠ name → ¬ s.Deleting name')
    (hrow : StoredFor encode Good (contents name) none (s.stored name) (contents name)) :
    Coherent encode Good contents { s with registry := registry, operation := none } := by
  -- a name still found is another name, with the reference it had
  have hfind (name' : StreamName) (ref : ℕ) (hfind : registry.peek name' = some ref) :
      name' ≠ name ∧ s.registry.peek name' = some ref := by
    rw [hpeek] at hfind
    exact Option.ite_none_left_eq_some.mp hfind
  refine ⟨hstorage.trans h.storage, ?_, ?_, ?_, h.reachable, ?_, h.pending, ?_, h.copy, ?_⟩
  · intro name' ref hfind'
    exact h.bound name' ref (hfind name' ref hfind').2
  · intro name₁ name₂ ref hfind₁ hfind₂
    exact h.distinct name₁ name₂ ref (hfind name₁ ref hfind₁).2 (hfind name₂ ref hfind₂).2
  · intro name' ref hfind' _
    obtain ⟨hne, hfind₁⟩ := hfind name' ref hfind'
    exact h.resident name' ref hfind₁ (hnot name' hne)
  · -- the row of `name` is the one given; the rest is as it was
    intro name'
    show ∃ row, StoredFor encode Good (contents name') (registry.peek name') (s.stored name') row
    rw [hpeek]
    by_cases heq : name' = name
    · rw [if_pos heq, heq]
      exact ⟨_, hrow⟩
    · rw [if_neg heq]
      exact h.stored name'
  · intro item hitem name' hfind'
    exact h.owner item hitem name' (hfind name' item.2 hfind').2
  · intro op hop
    cases hop

/-- The readings of the clock by the caller of `get_or_create` that gets `stream`, or a new one. -/
def readings (stream : Option (ThreadSafeStreamLog K.Log)) (created : Binary64)
    (calls : List (K.Update × Binary64)) : List Binary64 :=
  match stream with
  | some _ => calls.map Prod.snd
  | none => created :: calls.map Prod.snd

/-- `get_or_create` puts in what the map has, or a new stream, and its caller updates it. -/
theorem Coherent.finish (h : s.Coherent encode Good contents) (hnone : s.operation = none)
    (hempty : K.Reachable empty) (hpeek : s.registry.peek name = none) {created : Binary64}
    {calls : List (K.Update × Binary64)}
    (hticks : Ticks s.clock (readings (contents name) created calls)) :
    (s.finish empty name (contents name) created calls).Coherent encode Good
      ((Event.updated created calls).apply empty contents name) := by
  have hnot := not_deleting_of_none hnone
  have hput : (s.registry.put name s.objects.length).peek name = some s.objects.length :=
    StreamRegistry.peek_put.trans (if_pos rfl)
  unfold Host.finish Event.apply
  rw [hpeek]
  cases hc : contents name with
  | some current =>
    obtain ⟨hreach, hstamp⟩ := h.reachable _ _ hc
    rw [hc] at hticks
    have henter := h.enter name current hnot
      (fun other hother => Option.some.inj (hother.symm.trans hc)) hreach hstamp
    have hcall := henter.call rfl hput (Function.update_self ..) hticks
      (s.history ++ [(name, .updated created calls)])
    rw [Function.update_idem] at hcall
    exact hcall
  | none =>
    -- the new object is put in at the first reading of the clock, and then updated
    rw [hc] at hticks
    obtain ⟨hcreated, hrest⟩ := ticks_cons.mp hticks
    have henter := (h.tick hcreated.le).enter name ⟨empty, created⟩ hnot
      (fun other hother => by cases hother.symm.trans hc) hempty le_rfl
    have hcall := henter.call rfl hput (Function.update_self ..) hrest
      (s.history ++ [(name, .updated created calls)])
    rw [Function.update_idem] at hcall
    exact hcall

theorem history_finish (hpeek : s.registry.peek name = none)
    (stream : Option (ThreadSafeStreamLog K.Log)) (created : Binary64)
    (calls : List (K.Update × Binary64)) :
    (s.finish empty name stream created calls).history
      = s.history ++ [(name, .updated created calls)] := by
  unfold Host.finish
  rw [hpeek]
  cases stream <;> rfl

/-- The request ends; what was loaded is what the map has. -/
theorem Coherent.complete (h : s.Coherent encode Good contents) (hnone : s.operation = none)
    (hempty : K.Reachable empty) (op : Operation K.Log) (hpeek : s.registry.peek op.name = none)
    {created : Binary64} {calls : List (K.Update × Binary64)}
    (hticks : op.request = .getOrCreate → Ticks s.clock (readings (contents op.name) created calls))
    (hstep : s.complete empty op (contents op.name) created calls = some s') :
    ∃ events, s'.history = s.history ++ events ∧
      s'.Coherent encode Good (events.foldl (fun contents event =>
        event.2.apply empty contents event.1) contents) := by
  have hnot := not_deleting_of_none hnone
  unfold Host.complete at hstep
  -- a stream created here comes with its updates, a stream read comes as it was stored
  split at hstep
  · next hrequest =>
    cases hstep
    exact ⟨[(op.name, .updated created calls)], history_finish hpeek _ created calls,
      h.finish hnone hempty hpeek (hticks hrequest)⟩
  · next stream hrequest hstream =>
    cases hstep
    unfold finishGet
    rw [hpeek]
    refine ⟨[], (List.append_nil _).symm, ?_⟩
    have henter := h.enter op.name stream hnot (fun current hc =>
      Option.some.inj (hc.symm.trans hstream))
      (h.reachable _ _ hstream).1 (h.reachable _ _ hstream).2
    rwa [← hstream, Function.update_eq_self] at henter
  · cases hstep
    refine ⟨[], (List.append_nil _).symm, h.set_operation hnot fun op hop => ?_⟩
    cases hop
  · cases hstep

/-- What is stored for a stream that is not in memory is read as the map has it. -/
theorem Coherent.load_eq (hD : Serves D.toDurable Good encode) (h : s.Coherent encode Good contents)
    (hpeek : s.registry.peek name = none) :
    D.load (s.stored name) = (contents name).map fun log => (log.log, .fin log.lastUpdated) := by
  obtain ⟨row, hstored, hgood, -, habsent⟩ := h.stored name
  rw [hstored, habsent hpeek]
  cases hc : contents name with
  | none => exact hD.load_none
  | some log =>
      exact hD.load_some log (hgood log ((habsent hpeek).trans hc)) (h.reachable name log hc).1

/-- The steps that keep the map, in a state: the clock that stamps updates and new streams increases
strictly, a save is of a state that can be given back, `DELETE` is none of a mesh and does not commit
while a save of its stream is pending, no snapshot is taken between its commit and the end of the
request, and a save that serializes first reads the stamp of what it has serialized. -/
def Orderly (Good : ThreadSafeStreamLog K.Log → Prop) (s : Host K D) : Action K → Prop
  | .getOrCreate name _ calls => (s.registry.peek name).isSome → Ticks s.clock (calls.map Prod.snd)
  | .deleteStored _ => False
  | .forget _ => False
  | .storage =>
    match s.operation with
    | some ⟨_, _, .saving _ victim⟩ => ∀ log ∈ s.objects[victim.2]?, Good log
    | some ⟨_, name, .deleting⟩ => ∀ item ∈ s.pending, item.1 ≠ name
    | _ => True
  | .resume created calls =>
    match s.operation with
    | some ⟨.getOrCreate, _, .loaded stream⟩ => Ticks s.clock (readings stream created calls)
    | some ⟨.getOrCreate, _, .saved stream _⟩ => Ticks s.clock (readings stream created calls)
    | _ => True
  | .flush .snapshot =>
    match s.operation with
    | some ⟨_, _, .deleted⟩ => False
    | _ => True
  | .flush .stamp => D.stampFirst = false → ∀ item ∈ s.pending.head?,
    ∀ log ∈ s.objects[item.2]?, ∀ l ∈ s.copy.log, l = log.log
  | .flush .write => ∀ l ∈ s.copy.log, ∀ t ∈ s.copy.lastUpdated, Good ⟨l, t⟩
  | _ => True

instance decidableOrderly [DecidableEq K.Log] [DecidablePred Good] (s : Host K D) :
    ∀ a, Decidable (s.Orderly Good a)
  | .getOrCreate name _ calls =>
    inferInstanceAs (Decidable ((s.registry.peek name).isSome → Ticks s.clock (calls.map Prod.snd)))
  | .get _ => .isTrue trivial
  | .delete _ => .isTrue trivial
  | .deleteStored _ => .isFalse id
  | .forget _ => .isFalse id
  | .storage => by dsimp only [Orderly]; split <;> infer_instance
  | .resume created calls => by dsimp only [Orderly]; split <;> infer_instance
  | .raise => .isTrue trivial
  | .flush .snapshot => by dsimp only [Orderly]; split <;> infer_instance
  | .flush .serialize => .isTrue trivial
  | .flush .stamp => inferInstanceAs (Decidable (D.stampFirst = false → _))
  | .flush .write => inferInstanceAs (Decidable (∀ l ∈ s.copy.log, ∀ t ∈ s.copy.lastUpdated, _))
  | .flush .skip => .isTrue trivial

theorem not_deleting_of_orderly (h : s.Orderly Good (.flush .snapshot)) (name : StreamName) :
    ¬ s.Deleting name := by
  intro hdeleting
  obtain ⟨request, hop⟩ := hdeleting
  unfold Orderly at h
  rw [hop] at h
  exact h

theorem Coherent.storageStep (hD : Serves D.toDurable Good encode) (h : s.Coherent encode Good contents)
    (hcond : s.Orderly Good .storage) (hstep : s.storageStep = some s') :
    ∃ events, s'.history = s.history ++ events ∧
      s'.Coherent encode Good (events.foldl (fun contents event =>
        event.2.apply empty contents event.1) contents) := by
  unfold Host.storageStep at hstep
  split at hstep
  · next request name hop =>
    -- a load reads what the map has
    have hpeek : s.registry.peek name = none := h.operation _ hop
    have hnot := not_deleting_of_stage hop fun hstage => by cases hstage
    obtain ⟨stream, hstream, hs'⟩ := Option.map_eq_some_iff.mp hstep
    subst hs'
    refine ⟨[], (List.append_nil _).symm, h.set_operation hnot fun op hop' => ?_⟩
    cases hop'
    refine ⟨hpeek, ?_⟩
    rw [h.load_eq hD hpeek] at hstream
    show stream = contents name
    cases hc : contents name with
    | none =>
      rw [hc] at hstream
      cases hstream
      rfl
    | some log =>
      rw [hc] at hstream
      cases hstream
      rfl
  · next request name stream victim hop =>
    obtain ⟨hpeek, hstream, hvictim⟩ := h.operation _ hop
    have hnot := not_deleting_of_stage hop fun hstage => by cases hstage
    split at hstep
    · next log hlog =>
      have hgood : Good log := by
        unfold Orderly at hcond
        rw [hop] at hcond
        exact hcond log hlog
      have hcurrent : contents victim.1 = some log := (h.resident _ _ hvictim (hnot _)).symm.trans hlog
      obtain ⟨row, hstored, hgoods, hhonest, habsent⟩ := h.stored victim.1
      have hsave : D.save log (s.stored victim.1) = .ok (some (encode log)) := by
        rw [hstored, hD.save row log hgoods hgood, LastWriter.write_current]
        · rfl
        · intro kept hkept
          obtain ⟨current, hc, hcopy⟩ := hhonest kept hkept
          rw [Option.some.inj (hcurrent.symm.trans hc)]
          exact hcopy
      rw [hsave] at hstep
      cases hstep
      refine ⟨[], (List.append_nil _).symm, ?_⟩
      have hcoherent : Coherent encode Good contents { s with
          stored := Function.update s.stored victim.1 (some (encode log)) } := by
        refine ⟨h.storage, h.bound, h.distinct, h.resident, h.reachable, fun other =>
          ?_, h.pending, h.owner, h.copy, ?_⟩
        · show ∃ row, StoredFor encode Good (contents other) (s.registry.peek other)
            (Function.update s.stored victim.1 (some (encode log)) other) row
          by_cases hother : other = victim.1
          · rw [hother, Function.update_self]
            refine ⟨some log, rfl, fun kept hkept => ?_, fun kept hkept => ?_, fun _ => hcurrent.symm⟩
            · cases hkept
              exact hgood
            · cases hkept
              exact ⟨log, hcurrent, .refl _⟩
          · rw [Function.update_of_ne hother]
            exact h.stored other
        · intro op hop'
          have hsame : op = ⟨request, name, .saving stream victim⟩ :=
            Option.some.inj (hop'.symm.trans hop)
          rw [hsame]
          exact ⟨hpeek, hstream, hvictim⟩
      refine hcoherent.set_operation (fun other hdeleting => hnot other hdeleting) fun op hop' => ?_
      cases hop'
      exact ⟨hpeek, hstream, hvictim, log, hcurrent, Function.update_self .., hgood⟩
    · cases hstep
  · next request name hop =>
    have hpending : ∀ item ∈ s.pending, item.1 ≠ name := by
      unfold Orderly at hcond
      rw [hop] at hcond
      exact hcond
    have hnot := not_deleting_of_stage hop fun hstage => by cases hstage
    cases hstep
    refine ⟨[(name, .deleted)], rfl, ?_⟩
    show Coherent encode Good (Function.update contents name none) _
    have hkept (other : StreamName) (current : ThreadSafeStreamLog K.Log)
        (hc : Function.update contents name none other = some current) :
          other ≠ name ∧ contents other = some current := by
      by_cases heq : other = name
      · rw [heq, Function.update_self] at hc
        cases hc
      · rw [Function.update_of_ne heq] at hc
        exact ⟨heq, hc⟩
    refine ⟨h.storage, h.bound, h.distinct, ?_, ?_, ?_, ?_, h.owner, ?_, ?_⟩
    · intro other ref hfind hother
      have hne : other ≠ name := fun heq => hother ⟨request, by rw [heq]⟩
      rw [Function.update_of_ne hne]
      exact h.resident other ref hfind (hnot other)
    · intro other current hc
      exact h.reachable other current (hkept other current hc).2
    · intro other
      show ∃ row, StoredFor encode Good _ (s.registry.peek other)
        (Function.update s.stored name none other) row
      by_cases heq : other = name
      · rw [heq, Function.update_self, Function.update_self]
        refine ⟨none, rfl, fun kept hkept => ?_, fun kept hkept => ?_, fun _ => rfl⟩
        · cases hkept
        · cases hkept
      · rw [Function.update_of_ne heq, Function.update_of_ne heq]
        exact h.stored other
    · intro item hitem
      rw [Function.update_of_ne (hpending item hitem)]
      exact h.pending item hitem
    · intro item rest log current hrest hlog hc
      exact h.copy item rest log current hrest hlog (hkept item.1 current hc).2
    · intro op hop'
      cases hop'
      exact ⟨Function.update_self .., Function.update_self .., hpending⟩
  · cases hstep

/-- The end of a request gives the lock back, whoever held it. -/
theorem complete_operation (s : Host K D) (op : Operation K.Log)
    (stream : Option (ThreadSafeStreamLog K.Log))
    (created : Binary64) (calls : List (K.Update × Binary64)) :
    s.complete empty op stream created calls
      = Host.complete empty { s with operation := none } op stream created calls := by
  have hfinish (stream : Option (ThreadSafeStreamLog K.Log)) :
    s.finish empty op.name stream created calls
      = Host.finish empty { s with operation := none } op.name stream created calls := by
    unfold finish
    cases s.registry.peek op.name with
    | none => rfl
    | some existing => rfl
  have hget (log : ThreadSafeStreamLog K.Log) :
      s.finishGet op.name log = Host.finishGet { s with operation := none } op.name log := by
    unfold finishGet
    cases s.registry.peek op.name with
    | none => rfl
    | some existing => rfl
  unfold Host.complete
  simp only [hfinish, hget]

theorem Coherent.resumeStep (h : s.Coherent encode Good contents) (hempty : K.Reachable empty)
    {created : Binary64} {calls : List (K.Update × Binary64)}
    (hcond : s.Orderly Good (.resume created calls))
    (hstep : s.resumeStep empty created calls = some s') :
    ∃ events, s'.history = s.history ++ events ∧
      s'.Coherent encode Good (events.foldl (fun contents event =>
        event.2.apply empty contents event.1) contents) := by
  unfold Host.resumeStep at hstep
  split at hstep
  · next request name stream hop =>
    obtain ⟨hpeek, hstream⟩ := h.operation _ hop
    have hnot := not_deleting_of_stage hop fun hstage => by cases hstage
    split at hstep
    · cases hstep
      refine ⟨[], (List.append_nil _).symm, h.set_operation hnot fun op hop' => ?_⟩
      cases hop'
    · split at hstep
      · next victim hvictim =>
        cases hstep
        refine ⟨[], (List.append_nil _).symm, h.set_operation hnot fun op hop' => ?_⟩
        cases hop'
        exact ⟨hpeek, hstream, StreamRegistry.victim_peek hvictim⟩
      · have hfree : Coherent encode Good contents { s with operation := none } :=
          h.set_operation hnot fun op hop' => by cases hop'
        have hstream' : stream = contents name := hstream
        rw [hstream', complete_operation] at hstep
        refine hfree.complete rfl hempty ⟨request, name, _⟩ hpeek (fun hrequest => ?_) hstep
        have hrequest' : request = .getOrCreate := hrequest
        unfold Orderly at hcond
        rw [hop, hrequest', hstream'] at hcond
        exact hcond
  · next request name stream victim hop =>
    obtain ⟨hpeek, hstream, hvictim, log, hcurrent, hstored, hgood⟩ := h.operation _ hop
    have hnot := not_deleting_of_stage hop fun hstage => by cases hstage
    -- the victim leaves the memory: it is stored as it is
    have hevicted := h.remove victim.1 (s.registry.remove_limits victim.1).2.2
      (fun _ => StreamRegistry.peek_remove) (fun other _ => hnot other) (by
        rw [hcurrent]
        refine ⟨hstored, fun kept hkept => ?_, fun kept hkept => ?_, fun _ => rfl⟩
        · cases hkept
          exact hgood
        · cases hkept
          exact ⟨log, rfl, .refl _⟩)
    have hpeek' : (s.registry.remove victim.1).peek name = none := by
      rw [StreamRegistry.peek_remove]
      split
      · rfl
      · exact hpeek
    have hstream' : stream = contents name := hstream
    rw [StreamRegistry.evict_of_peek hvictim, hstream', complete_operation] at hstep
    refine hevicted.complete rfl hempty ⟨request, name, _⟩ hpeek' (fun hrequest => ?_) hstep
    have hrequest' : request = .getOrCreate := hrequest
    unfold Orderly at hcond
    rw [hop, hrequest', hstream'] at hcond
    exact hcond
  · next request name hop =>
    obtain ⟨hgone, hstored, -⟩ := h.operation _ hop
    cases hstep
    refine ⟨[], (List.append_nil _).symm, ?_⟩
    have hlimits : (s.registry.discard name).storage = s.registry.storage := by
      obtain ⟨heq, -⟩ | heq := s.registry.discard_eq name
      · rw [heq]
      · rw [heq]
        exact (s.registry.remove_limits name).2.2
    refine h.remove name hlimits (fun _ => StreamRegistry.peek_discard) (fun other hne hdeleting =>
      ?_) ?_
    · obtain ⟨_, hdeleting⟩ := hdeleting
      rw [hop] at hdeleting
      cases hdeleting
      exact hne rfl
    · have hgone' : contents name = none := hgone
      rw [hgone']
      refine ⟨hstored, fun kept hkept => ?_, fun kept hkept => ?_, fun _ => rfl⟩
      · cases hkept
      · cases hkept
  · cases hstep

/-- The flush loop reads a part of the first stream of the rest of its snapshot. -/
theorem Coherent.readStep (h : s.Coherent encode Good contents)
    {read : Copy K.Log → ThreadSafeStreamLog K.Log → Option (Copy K.Log)}
    (hread : ∀ item rest log current copy, s.pending = item :: rest → s.objects[item.2]? = some log →
      contents item.1 = some current → read s.copy log = some copy → CopyOf log current copy)
    (hstep : s.readStep read = some s') :
      s'.history = s.history ∧ s'.Coherent encode Good contents := by
  unfold Host.readStep at hstep
  split at hstep
  · cases hstep
  · next item rest hpending =>
    split at hstep
    · next log hlog =>
      obtain ⟨copy, hcopy, hs'⟩ := Option.map_eq_some_iff.mp hstep
      subst hs'
      refine ⟨rfl, h.storage, h.bound, h.distinct, h.resident, h.reachable, h.stored, h.pending,
        h.owner, ?_, h.operation⟩
      intro item' rest' log' current hpending' hlog' hc
      obtain ⟨hitem, -⟩ := List.cons.inj (hpending.symm.trans hpending')
      rw [← hitem] at hlog' hc
      rw [← Option.some.inj (hlog.symm.trans hlog')]
      exact hread item rest log current copy hpending hlog hc hcopy
    · cases hstep

/-- The flush loop goes on to the next stream. -/
theorem Coherent.next (h : s.Coherent encode Good contents) {item : StreamName × ℕ}
    {rest : List (StreamName × ℕ)}
    (hpending : s.pending = item :: rest) :
    Coherent encode Good contents { s with pending := rest, copy := ⟨none, none⟩ } := by
  -- what remains is part of what was pending
  have hmem (other : StreamName × ℕ) (hother : other ∈ rest) : other ∈ s.pending := by
    rw [hpending]
    exact List.mem_cons_of_mem _ hother
  refine ⟨h.storage, h.bound, h.distinct, h.resident, h.reachable, h.stored,
    fun other hother => h.pending other (hmem other hother), fun other hother =>
      h.owner other (hmem other hother), ?_,
    fun op hop => ?_⟩
  · -- the copy is empty again
    intro _ _ log current _ _ _
    refine ⟨fun l hl => ?_, fun t ht => ?_, fun l t hl => ?_⟩
    · cases hl
    · cases ht
    · cases hl
  · have hknows := h.operation op hop
    unfold Knows at hknows ⊢
    split at hknows
    · next hstage => simpa only [hstage] using hknows
    · next hstage => simpa only [hstage] using hknows
    · next hstage => simpa only [hstage] using hknows
    · next hstage => simpa only [hstage] using hknows
    · trivial
    · exact ⟨hknows.1, hknows.2.1, fun other hother => hknows.2.2 other (hmem other hother)⟩

theorem Coherent.flushStep (hD : Serves D.toDurable Good encode)
    (h : s.Coherent encode Good contents) {part : Flush}
    (hcond : s.Orderly Good (.flush part)) (hstep : s.flushStep part = some s') :
    s'.history = s.history ∧ s'.Coherent encode Good contents := by
  cases part with
  | snapshot =>
    simp only [Host.flushStep] at hstep
    split at hstep
    · cases hstep
      have hitems (item : StreamName × ℕ) (hitem : item ∈ s.registry.snapshotItems) :
          s.registry.peek item.1 = some item.2 := StreamRegistry.mem_snapshotItems.mp hitem
      refine ⟨rfl, h.storage, h.bound, h.distinct, h.resident, h.reachable, h.stored,
        fun item hitem => ?_,
        fun item hitem name hfind => ?_, ?_, fun op hop => ?_⟩
      · have hfind := hitems item hitem
        have hobject := h.resident item.1 item.2 hfind (not_deleting_of_orderly hcond _)
        have hlt := h.bound item.1 item.2 hfind
        rw [List.getElem?_eq_getElem hlt] at hobject
        exact ⟨_, _, List.getElem?_eq_getElem hlt, hobject.symm, .refl _,
          (h.reachable item.1 _ hobject.symm).1⟩
      · exact h.distinct name item.1 item.2 hfind (hitems item hitem)
      · intro _ _ log current _ _ _
        refine ⟨fun l hl => ?_, fun t ht => ?_, fun l t hl => ?_⟩
        · cases hl
        · cases ht
        · cases hl
      · have hknows := h.operation op hop
        have hnot : op.stage ≠ .deleted := fun hstage => by
          obtain ⟨request, name, stage⟩ := op
          have hstage' : stage = .deleted := hstage
          rw [hstage'] at hop
          exact not_deleting_of_orderly hcond name ⟨request, hop⟩
        unfold Knows at hknows ⊢
        split at hknows
        · next hstage => simpa only [hstage] using hknows
        · next hstage => simpa only [hstage] using hknows
        · next hstage => simpa only [hstage] using hknows
        · next hstage => simpa only [hstage] using hknows
        · trivial
        · next hstage => exact absurd hstage hnot
    · cases hstep
  | serialize =>
    simp only [Host.flushStep] at hstep
    refine h.readStep (fun item rest log current copy hpending hlog hc hread => ?_) hstep
    obtain ⟨hfree, hcopy⟩ := Option.ite_none_right_eq_some.mp hread
    obtain ⟨hreach, hstamped, -⟩ := h.copy item rest log current hpending hlog hc
    obtain ⟨l, current', hl, hc', hhonest, hreachl⟩ := h.pending item (hpending ▸ List.mem_cons_self)
    rw [Option.some.inj (hl.symm.trans hlog)] at hhonest hreachl
    rw [Option.some.inj (hc'.symm.trans hc)] at hhonest
    cases hcopy
    refine ⟨fun l' hl' => ?_, hstamped, fun l' t hl' ht => ?_⟩
    · cases hl'
      exact hreachl
    · cases hl'
      -- a stamp that was read before is not later than that of the log
      have hle := hstamped t ht
      refine ⟨hle.trans hhonest.1, fun heq => ?_⟩
      have hsame : log = current := hhonest.2 (le_antisymm hhonest.1 (heq ▸ hle))
      have hlogs : log.log = current.log := by rw [hsame]
      exact eq_of_stampOf hlogs heq
  | stamp =>
    simp only [Host.flushStep] at hstep
    refine h.readStep (fun item rest log current copy hpending hlog hc hread => ?_) hstep
    obtain ⟨hfree, hcopy⟩ := Option.ite_none_right_eq_some.mp hread
    obtain ⟨hreach, -, -⟩ := h.copy item rest log current hpending hlog hc
    obtain ⟨l, current', hl, hc', hhonest, -⟩ := h.pending item (hpending ▸ List.mem_cons_self)
    rw [Option.some.inj (hl.symm.trans hlog), Option.some.inj (hc'.symm.trans hc)] at hhonest
    cases hcopy
    refine ⟨hreach, fun t ht => ?_, fun l' t hl' ht => ?_⟩
    · cases ht
      exact le_rfl
    · cases ht
      have hl'' : s.copy.log = some l' := hl'
      -- what was serialized is what is stamped
      have hfirst : s.copy.lastUpdated = none ∧ D.stampFirst = false := by
        rw [hl''] at hfree
        simpa using hfree
      rw [hcond hfirst.2 item (by rw [hpending]; rfl) log hlog l' hl'']
      exact hhonest
  | write =>
    simp only [Host.flushStep] at hstep
    split at hstep
    · next item rest l t hpending hcopy =>
      have hgood : Good ⟨l, t⟩ := hcond l (by rw [hcopy]; rfl) t (by rw [hcopy]; rfl)
      obtain ⟨log, current, hlog, hc, -, -⟩ := h.pending item (hpending ▸ List.mem_cons_self)
      have hhonest : LastWriter.Honest stampOf current ⟨l, t⟩ :=
        (h.copy item rest log current hpending hlog hc).honest l t (by rw [hcopy]) (by rw [hcopy])
      obtain ⟨row, hstored, hgoods, hrow, habsent⟩ := h.stored item.1
      have hsave : D.save ⟨l, t⟩ (s.stored item.1)
        = .ok ((LastWriter.write stampOf row ⟨l, t⟩).map encode) := by
        rw [hstored]
        exact hD.save row ⟨l, t⟩ hgoods hgood
      rw [hsave] at hstep
      cases hstep
      have hrows : ∀ kept, row = some kept → LastWriter.Honest stampOf current kept :=
        fun kept hkept => by
        obtain ⟨current', hc', hcopy'⟩ := hrow kept hkept
        rw [Option.some.inj (hc.symm.trans hc')]
        exact hcopy'
      have hcoherent : Coherent encode Good contents { s with
          stored := Function.update s.stored item.1
            ((LastWriter.write stampOf row ⟨l, t⟩).map encode) } := by
        refine ⟨h.storage, h.bound, h.distinct, h.resident, h.reachable, fun other =>
          ?_, h.pending, h.owner, h.copy,
          fun op hop => ?_⟩
        · show ∃ row, StoredFor encode Good (contents other) (s.registry.peek other)
            (Function.update s.stored item.1 _ other) row
          by_cases hother : other = item.1
          · rw [hother, Function.update_self]
            refine ⟨_, rfl, fun kept hkept => ?_, fun kept hkept => ?_, fun hnone => ?_⟩
            · exact LastWriter.write_induction hgoods hgood hkept
            · exact ⟨current, hc, LastWriter.write_induction hrows hhonest hkept⟩
            · rw [habsent hnone, hc]
              exact LastWriter.write_stale hhonest
          · rw [Function.update_of_ne hother]
            exact h.stored other
        · have hknows := h.operation op hop
          unfold Knows at hknows ⊢
          split at hknows
          · next hstage => simpa only [hstage] using hknows
          · next hstage => simpa only [hstage] using hknows
          · next hstage => simpa only [hstage] using hknows
          · next stream victim hstage =>
            obtain ⟨hpeek, hstream, hvictim, log', hlog', hstored', hgood'⟩ := hknows
            refine ⟨hpeek, hstream, hvictim, log', hlog', ?_, hgood'⟩
            by_cases hname : victim.1 = item.1
            · -- the victim was saved as it is, and the copy is no newer
              rw [hname] at hlog' hstored' ⊢
              rw [Option.some.inj (hc.symm.trans hlog')] at hhonest
              have hskip := hD.save (some log') ⟨l, t⟩ (fun kept hkept =>
                Option.some.inj hkept ▸ hgood') hgood
              rw [LastWriter.write_stale hhonest, Option.map_some, ← hstored', hsave,
                Except.ok.injEq, hstored'] at hskip
              show Function.update s.stored item.1 _ item.1 = _
              rw [Function.update_self, hskip]
            · show Function.update s.stored item.1 _ victim.1 = _
              rw [Function.update_of_ne hname]
              exact hstored'
          · trivial
          · have hname : op.name ≠ item.1 :=
              fun heq => hknows.2.2 item (hpending ▸ List.mem_cons_self) heq.symm
            refine ⟨hknows.1, ?_, hknows.2.2⟩
            show Function.update s.stored item.1 _ op.name = none
            rw [Function.update_of_ne hname]
            exact hknows.2.1
      exact ⟨rfl, hcoherent.next hpending⟩
    · cases hstep
  | skip =>
    simp only [Host.flushStep] at hstep
    split at hstep
    · next item rest hpending =>
      cases hstep
      exact ⟨rfl, h.next hpending⟩
    · cases hstep

/-- One step. -/
theorem Coherent.step (hD : Serves D.toDurable Good encode) (hempty : K.Reachable empty) {a : Action K}
    (h : s.Coherent encode Good (replay empty s.history)) (hcond : s.Orderly Good a)
    (hstep : s.step empty a = some s') :
    s'.Coherent encode Good (replay empty s'.history) := by
  have hevents (hafter : ∃ events, s'.history = s.history ++ events ∧ s'.Coherent encode Good
      (events.foldl (fun contents event => event.2.apply empty contents event.1)
        (replay empty s.history))) :
      s'.Coherent encode Good (replay empty s'.history) := by
    obtain ⟨events, hhistory, hafter⟩ := hafter
    rw [hhistory, replay, List.foldl_append]
    exact hafter
  cases a with
  | getOrCreate name created calls =>
    simp only [Host.step] at hstep
    split at hstep
    · cases hstep
    · next hnone =>
      split at hstep
      · next hload =>
        cases hstep
        refine h.set_operation (not_deleting_of_none hnone) fun op hop => ?_
        cases hop
        rw [Bool.and_eq_true, Option.isNone_iff_eq_none] at hload
        exact hload.1
      · next hload =>
        -- the stream is in memory, as there is a storage backend
        obtain ⟨ref, hpeek⟩ : ∃ ref, s.registry.peek name = some ref := by
          rw [h.storage, Bool.and_true, Bool.not_eq_true, Option.isNone_eq_false_iff] at hload
          exact Option.isSome_iff_exists.mp hload
        have hticks : Ticks s.clock (calls.map Prod.snd) := hcond (by rw [hpeek]; rfl)
        rw [hpeek] at hstep
        have hlt := h.bound name ref hpeek
        have hobject := h.resident name ref hpeek (not_deleting_of_none hnone name)
        rw [List.getElem?_eq_getElem hlt] at hobject
        have hcall := (h.use name).call hnone (StreamRegistry.peek_moveToEnd.trans hpeek)
          hobject.symm hticks (s.history ++ [(name, .updated created calls)])
        refine hevents ⟨[(name, .updated created calls)], ?_, ?_⟩
        · cases hstep
          unfold Host.finish
          rw [hpeek]
          rfl
        · cases hstep
          unfold Host.finish
          rw [hpeek]
          show Coherent encode Good (Function.update (replay empty s.history) name
            (some (applyCalls calls ((replay empty s.history name).getD ⟨empty, created⟩)))) _
          rw [← hobject, Option.getD_some]
          exact hcall.set_operation (not_deleting_of_none hnone) fun op hop => by cases hop
  | get name =>
    simp only [Host.step] at hstep
    split at hstep
    · cases hstep
      exact h.use name
    · next hpeek =>
      split at hstep
      · next hnone _ =>
        cases hstep
        refine h.set_operation (not_deleting_of_none hnone) fun op hop => ?_
        cases hop
        exact hpeek
      · cases hstep
        exact h
      · cases hstep
  | delete name =>
    simp only [Host.step, h.storage] at hstep
    split at hstep
    · cases hstep
    · next hnone _ =>
      cases hstep
      refine h.set_operation (not_deleting_of_none hnone) fun op hop => ?_
      cases hop
      trivial
    · next hstorage => cases hstorage
  | deleteStored name => exact hcond.elim
  | forget name => exact hcond.elim
  | storage => exact hevents (h.storageStep hD hcond hstep)
  | resume created calls => exact hevents (h.resumeStep hempty hcond hstep)
  | raise =>
    have hfree {op : Operation K.Log} (hop : s.operation = some op) (hstage : op.stage ≠ .deleted) :
        Coherent encode Good (replay empty s.history) { s with operation := none } :=
      h.set_operation (not_deleting_of_stage hop hstage) fun op hop => by cases hop
    simp only [Host.step] at hstep
    split at hstep
    · next hop =>
      cases hstep
      exact hfree hop fun hstage => by cases hstage
    · next hop =>
      cases hstep
      exact hfree hop fun hstage => by cases hstage
    · next hop =>
      cases hstep
      exact hfree hop fun hstage => by cases hstage
    · cases hstep
  | flush part =>
    obtain ⟨hhistory, hafter⟩ := h.flushStep hD hcond hstep
    rw [hhistory]
    exact hafter

/-- The streams are those of the map `replay` has made: in memory as they are, out of it in the
storage, and what has been loaded for a request is still what the map has. -/
def AnswersAs (empty : K.Log) (s : Host K D) : Prop :=
  ∀ name,
    (∀ ref, s.registry.peek name = some ref → ¬ s.Deleting name
      → s.objects[ref]? = replay empty s.history name)
    ∧ (s.registry.peek name = none →
      D.load (s.stored name) = (replay empty s.history name).map fun log =>
        (log.log, .fin log.lastUpdated))
    ∧ ∀ request stream, s.operation = some ⟨request, name, .loaded stream⟩
      → stream = replay empty s.history name

theorem Coherent.answersAs (hD : Serves D.toDurable Good encode)
    (h : s.Coherent encode Good (replay empty s.history)) : s.AnswersAs empty := by
  intro name
  refine ⟨h.resident name, h.load_eq hD, fun request stream hop => ?_⟩
  obtain ⟨-, hstream⟩ := h.operation _ hop
  exact hstream

end Host

open Host

/-- In every run of a server with a storage backend, from an empty one. -/
def RefinesReplay (K : LogKind M) (D : Saver K.Log) (Good : ThreadSafeStreamLog K.Log → Prop) : Prop :=
  ∀ (maxStreamsPerNs maxStreams : ℕ) (empty : K.Log) (clock : ℚ) (actions : List (Host.Action K))
    (s₀ s : Host K D),
    K.Reachable empty → s₀ = .new (.new maxStreamsPerNs maxStreams true) clock →
    Meets (Host.step empty) (Orderly Good) s₀ actions → run (Host.step empty) s₀ actions = some s
      → s.AnswersAs empty

theorem refinesReplay {Good : ThreadSafeStreamLog K.Log → Prop}
    {encode : ThreadSafeStreamLog K.Log → D.Stored}
    (hD : Serves D.toDurable Good encode) : RefinesReplay K D Good := by
  intro maxStreamsPerNs maxStreams empty clock actions s₀ s hempty hs₀ hmeets hrun
  subst hs₀
  have hcoherent : s.Coherent encode Good (replay empty s.history) :=
    run_invariant (I := fun s => s.Coherent encode Good (replay empty s.history))
      (fun _ _ _ h hcond hstep => h.step hD hempty hcond hstep)
      (coherent_new (.new maxStreamsPerNs maxStreams true) rfl rfl clock) hmeets hrun
  exact hcoherent.answersAs hD

/-- **Write-back.** With any limits of the registry and for both storage backends and both log
types, however the requests, the evictions and the flush loop interleave, the streams of a server
are those of a map without a limit to which the accepted requests were applied in turn. -/
theorem streams_refine_replay (E : Encodings) (hM : M.Monotone) (hR : M.RoundsInts) (hK : M.Int32Keys) :
    RefinesReplay (.python M) (sqlAlchemySaver E (LogKind.python M).codec)
        (Fine (K := .python M) (AssumedSql E (LogKind.python M).codec) fun _ => True)
      ∧ RefinesReplay (.python M) (omniKVSaver E (LogKind.python M).codec)
        (Fine (K := .python M) (AssumedOmniKV E (LogKind.python M).codec) fun _ => True)
      ∧ RefinesReplay (.cpp M) (sqlAlchemySaver E (LogKind.cpp M).codec)
        (Fine (K := .cpp M) (AssumedSql E (LogKind.cpp M).codec) Cpp.StreamLog.CellsBounded)
      ∧ RefinesReplay (.cpp M) (omniKVSaver E (LogKind.cpp M).codec)
        (Fine (K := .cpp M) (AssumedOmniKV E (LogKind.cpp M).codec) Cpp.StreamLog.CellsBounded) := by
  have hpython : ReadsOnly (.python M) fun _ => True := fun _ _ _ _ => trivial
  exact ⟨refinesReplay (.of_keeps (sqlAlchemy_keeps E _) rfl (StreamLog.roundTrip hM) hpython),
    refinesReplay (.of_keeps (omniKV_keeps E _) rfl (StreamLog.roundTrip hM) hpython),
    refinesReplay (.of_keeps (sqlAlchemy_keeps E _) rfl (Cpp.StreamLog.roundTrip hM hR hK)
      readsOnly_cpp),
    refinesReplay (.of_keeps (omniKV_keeps E _) rfl (Cpp.StreamLog.roundTrip hM hR hK) readsOnly_cpp)⟩

theorem Host.Orderly.mono {Good Good' : ThreadSafeStreamLog K.Log → Prop}
    (hmono : ∀ log, Good log → Good' log) {s : Host K D} {a : Host.Action K}
    (h : s.Orderly Good a) : s.Orderly Good' a := by
  unfold Orderly at h ⊢
  split
  · exact h
  · exact h
  · exact h
  · dsimp only at h
    split
    · next hop =>
      rw [hop] at h
      exact fun log hlog => hmono log (h log hlog)
    · next hop =>
      rw [hop] at h
      exact h
    · trivial
  · exact h
  · exact h
  · exact h
  · exact fun l hl t ht => hmono _ (h l hl t ht)
  · trivial

namespace Evicting

instance instDecidableEqLog : DecidableEq (LogKind.python .coarse).Log :=
  inferInstanceAs (DecidableEq StreamLog)

/-- The states of the logs, which the encodings know. -/
def Known (log : ThreadSafeStreamLog (LogKind.python .coarse).Log) : Prop :=
  log.log = Saving.empty.log ∨ log.log = Saving.ten

instance : DecidablePred Known := fun log =>
  @instDecidableOr _ _ (instDecidableEqLog log.log Saving.empty.log)
    (instDecidableEqLog log.log Saving.ten)

/-- A server with room for one stream. -/
def start : Host (.python .coarse) (sqlAlchemySaver .known (LogKind.python .coarse).codec) :=
  new (.new 1 1 true) 0

instance (s : Host (.python .coarse) (sqlAlchemySaver .known (LogKind.python .coarse).codec))
    (a : Host.Action (.python .coarse)) : Decidable (s.Orderly Known a) :=
  decidableOrderly s a

/-- A stream is made and counts ten events, is evicted for another one, and is asked for again, for
which the other one is evicted. Then the flush loop saves it. -/
def actions : List (Host.Action (.python .coarse)) :=
  let calls := [(.ingest (.event (.int 7) 10), .ofInt 3 Binary64.abs_three_lt)]
  let one := .ofInt 1 Binary64.abs_one_lt
  let five := .ofInt 5 Binary64.abs_five_lt
  [.getOrCreate ("ns", "a") one [], .storage, .resume one calls,
    .getOrCreate ("ns", "b") five [], .storage, .resume five [], .storage, .resume five [],
    .getOrCreate ("ns", "a") five [], .storage, .resume five [], .storage, .resume five [],
    .flush .snapshot, .flush .serialize, .flush .stamp, .flush .write]

/-- Whether the lock is free, where the first stream is, and the total of the third object. -/
def seen (s : Host (.python .coarse) (sqlAlchemySaver .known (LogKind.python .coarse).codec)) :
    Bool × Option ℕ × Option ℤ :=
  (s.operation.isNone, s.registry.peek ("ns", "a"),
    (s.objects[2]?).map fun stream => stream.log.total)

theorem seen_run : (run (Host.step Saving.empty.log) start actions).map seen
    = some (true, some 2, some 10) := by
  decide +kernel

theorem meets_actions : Meets (Host.step Saving.empty.log) (Orderly Known) start actions := by
  decide +kernel

/-- The encodings read back what they have written of the logs. -/
theorem fine_of_known {log : ThreadSafeStreamLog (LogKind.python .coarse).Log} (h : Known log) :
    Fine (K := .python .coarse) (AssumedSql .known (LogKind.python .coarse).codec) (fun _ => True)
      log := by
  obtain ⟨log, lastUpdated⟩ := log
  rcases h with rfl | rfl
  · exact ⟨Encodings.known_empty, trivial⟩
  · exact ⟨Encodings.known_ten _, trivial⟩

end Evicting

/-- The stream that was evicted is back, with its ten events. -/
theorem streams_refine_replay_evicting :
    ∃ s, run (Host.step Saving.empty.log) Evicting.start Evicting.actions = some s
      ∧ s.AnswersAs Saving.empty.log
      ∧ (replay Saving.empty.log s.history ("ns", "a")).map (fun stream => stream.log.total)
        = some 10 := by
  obtain ⟨s, hrun, hseen⟩ := Option.map_eq_some_iff.mp Evicting.seen_run
  obtain ⟨hfree, hfound⟩ := Prod.mk.inj hseen
  obtain ⟨hpeek, htotal⟩ := Prod.mk.inj hfound
  have hmeets : Meets (Host.step Saving.empty.log)
      (Orderly (Fine (K := .python .coarse) (AssumedSql .known (LogKind.python .coarse).codec)
        fun _ => True)) Evicting.start Evicting.actions :=
    meets_iff_forall_steps.mpr fun bs a hprefix t ht =>
      (meets_iff_forall_steps.mp Evicting.meets_actions bs a hprefix t ht).mono
        fun _ => Evicting.fine_of_known
  obtain ⟨hsql, -⟩ := streams_refine_replay .known IndexMapping.coarse_monotone
    IndexMapping.coarse_roundsInts IndexMapping.coarse_int32Keys
  have hanswers := hsql 1 1 Saving.empty.log 0 _ _ _ Session.empty_initial.reachable rfl hmeets hrun
  refine ⟨s, hrun, hanswers, ?_⟩
  have hnot : ¬ s.Deleting ("ns", "a") :=
    not_deleting_of_none (Option.isNone_iff_eq_none.mp hfree) _
  rw [← (hanswers ("ns", "a")).1 2 hpeek hnot]
  exact htotal

end Sketchlog.Server
