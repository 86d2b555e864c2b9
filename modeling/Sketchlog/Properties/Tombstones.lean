import Mathlib.Algebra.Order.BigOperators.Group.List
import Mathlib.Order.WithBot
import Sketchlog.Lib.LockOrder
import Sketchlog.Lib.Runs
import Sketchlog.Refine.OmniKVKeys

/-!
# Tombstones in OmniKV

A call that is about to put a tombstone has read a lower version, and holds the stripe of the
tombstone: no other call has put one since (`Tidy.newer`). So what is put is always higher than what
was stored, versions never decrease, and a state is deleted only behind its tombstone
(`tombstones_monotone`). Stripes are taken in order, so calls never wait for each other in a circle
(`exists_advance`).
-/

namespace Sketchlog.Storage

open Checked Runs

variable {E : Encodings} {hash : String → String → ℤ} {s s' : Running} {i : ℕ} {call : Call}
    {n sk : String}

/-! ## Versions -/

/-- The stored version of a tombstone, as `_tombstone_version` reads it. -/
def storedVersion (E : Encodings) (store : Dict String Bytes) (n sk : String) : WithBot ℚ :=
  match tombstoneVersion E (store.get? (tombstoneKey n sk)) with
  | .ok (.fin x) => (x.val : ℚ)
  | _ => ⊥

theorem storedVersion_of_get? {store store' : Dict String Bytes}
    (h : store'.get? (tombstoneKey n sk) = store.get? (tombstoneKey n sk)) :
    storedVersion E store' n sk = storedVersion E store n sk := by
  unfold storedVersion
  rw [h]

/-- A state that is put or deleted leaves the tombstones alone. -/
theorem storedVersion_setState (store : Dict String Bytes) (space streamId : String) (value : Bytes)
    (n sk : String) :
    storedVersion E (store.set (stateKey space streamId) value) n sk = storedVersion E store n sk :=
  storedVersion_of_get? (Dict.get?_set_of_ne (stateKey_ne_tombstoneKey space streamId n sk).symm)

theorem storedVersion_popState (store : Dict String Bytes) (space streamId n sk : String) :
    storedVersion E (store.pop (stateKey space streamId)) n sk = storedVersion E store n sk := by
  apply storedVersion_of_get?
  rw [Dict.get?_pop, if_neg (stateKey_ne_tombstoneKey space streamId n sk).symm]

theorem storedVersion_put (hE : E.KeepsTombstones) (store : Dict String Bytes) (n sk : String)
    (v : Binary64)
    (n' sk' : String) :
    storedVersion E (store.set (tombstoneKey n sk) (tombstoneEnvelope E sk v)) n' sk'
      = if n' = n ∧ sk' = sk then (v.val : WithBot ℚ) else storedVersion E store n' sk' := by
  split
  · next heq =>
    obtain ⟨rfl, rfl⟩ := heq
    unfold storedVersion
    rw [Dict.get?_set_self, tombstoneVersion_envelope hE]
  · next hne =>
    exact storedVersion_of_get? (Dict.get?_set_of_ne fun heq => hne (tombstoneKey_inj.mp heq))

/-- The comparison of `_put_tombstone_if_newer`. -/
theorem tombstoneVersion_cases (hE : E.KeepsTombstones) {store : Dict String Bytes}
    (hkept : Kept E store) (n sk : String)
    (v : Binary64) :
    ∃ current, tombstoneVersion E (store.get? (tombstoneKey n sk)) = .ok current
      ∧ (atLeast current v = true ↔ (v.val : WithBot ℚ) ≤ storedVersion E store n sk) := by
  unfold storedVersion
  cases hget : store.get? (tombstoneKey n sk) with
  | none =>
    refine ⟨.inf true, rfl, ?_⟩
    show false = true ↔ (v.val : WithBot ℚ) ≤ ⊥
    simp
  | some value =>
    rcases hkept _ value hget with ⟨space, streamId, heq⟩ | ⟨n', sk', x, heq, rfl⟩
    · exact absurd heq.symm (stateKey_ne_tombstoneKey space streamId n sk)
    · obtain ⟨rfl, rfl⟩ := tombstoneKey_inj.mp heq
      rw [tombstoneVersion_envelope hE]
      refine ⟨.fin x, rfl, ?_⟩
      show decide (v.val ≤ x.val) = true ↔ _
      rw [decide_eq_true_iff, WithBot.coe_le_coe]

/-! ## The invariant

No two calls hold one lock, and each call has recorded what its phase says. -/

/-- The call has stored its tombstone, or found one as high. -/
def Call.recorded (call : Call) : Bool :=
  match call.phase with
  | .syncing | .gettingState | .deleting | .syncingState | .done _ => true
  | _ => false

/-- The call has returned, or was stopped. -/
def Call.finished (call : Call) : Bool :=
  match call.phase with
  | .done _ | .stopped => true
  | _ => false

/-- The phase is one that the request gets to. -/
def Call.Fits (hash : String → String → ℤ) (call : Call) : Prop :=
  match call.phase with
  | .locking taken => taken < (call.locks hash).length
  | .gettingState | .deleting | .syncingState =>
      ∃ space streamId, call.request = .deleteWithTombstone space streamId
  | _ => True

/-- What holds in every state. -/
structure Tidy (E : Encodings) (hash : String → String → ℤ) (s : Running) : Prop where
  kept : Kept E s.store
  fits : ∀ call ∈ s.calls, call.Fits hash
  /-- No stripe is held twice. -/
  exclusive : ∀ (i j : ℕ) (a b : Call), i ≠ j → s.calls[i]? = some a → s.calls[j]? = some b →
    ∀ l ∈ a.held hash, l ∉ b.held hash
  newer : ∀ call ∈ s.calls, call.phase = .putting →
    storedVersion E s.store call.nodeId call.streamKey < (call.version.val : WithBot ℚ)
  covered : ∀ call ∈ s.calls, call.recorded →
    (call.version.val : WithBot ℚ) ≤ storedVersion E s.store call.nodeId call.streamKey
  /-- What is stored is the version of a call. -/
  attained : ∀ n sk, storedVersion E s.store n sk = ⊥ ∨ ∃ call ∈ s.calls, call.nodeId = n
    ∧ call.streamKey = sk
    ∧ storedVersion E s.store n sk = (call.version.val : WithBot ℚ)

theorem tidy_init : Tidy E hash .init where
  kept key value h := by cases h
  fits call h := absurd h List.not_mem_nil
  exclusive i j a b hne ha := by cases ha
  newer call h := absurd h List.not_mem_nil
  covered call h := absurd h List.not_mem_nil
  attained n sk := .inl rfl

/-! ## Stripes

The stripes of a call are sorted and without repetition. A call that has taken all of them holds
that of its tombstone. -/

/-- The stripe of the tombstone is among those of the call. -/
theorem tombstone_mem_locks (call : Call) :
    lockIndexFor hash call.nodeId call.streamKey ∈ call.locks hash := by
  unfold Call.locks
  split
  · exact List.mem_singleton_self _
  · unfold lockPairFor
    dsimp only
    split
    · next heq =>
      rw [heq]
      exact List.mem_singleton_self _
    · rcases le_total (lockIndexFor hash _ _)
        (lockIndexFor hash call.nodeId call.streamKey) with hle | hle
      · rw [max_eq_right hle]
        exact List.mem_cons_of_mem _ List.mem_cons_self
      · rw [min_eq_right hle]
        exact List.mem_cons_self

theorem sorted_locks (call : Call) : (call.locks hash).Pairwise (· < ·) := by
  unfold Call.locks
  split
  · exact List.pairwise_singleton _ _
  · unfold lockPairFor
    dsimp only
    split
    · exact List.pairwise_singleton _ _
    · next hne =>
      rw [List.pairwise_pair]
      exact min_lt_max.mpr hne

theorem taken_of_putting (hash : String → String → ℤ) (hphase : call.phase = .putting) :
    call.taken hash = (call.locks hash).length := by
  unfold Call.taken
  rw [hphase]

/-- A call that has all its stripes has that of its tombstone. -/
theorem tombstone_mem_held (htaken : call.taken hash = (call.locks hash).length) :
    lockIndexFor hash call.nodeId call.streamKey ∈ call.held hash := by
  unfold Call.held
  rw [htaken, List.take_length]
  exact tombstone_mem_locks call

/-- A call that has all its stripes takes no other. -/
theorem held_subset (htaken : call.taken hash = (call.locks hash).length) (phase : Phase) :
    ({ call with phase := phase } : Call).held hash ⊆ call.held hash := by
  unfold Call.held
  rw [htaken, List.take_length]
  exact List.take_subset _ _

/-! ## What a step keeps

One lemma per transition: a lock that is taken, a step of the client, a write, the end of a call. -/

theorem getElem?_set_cases {α : Type} {l : List α} {i j : ℕ} {a b : α} (h : (l.set i a)[j]? = some b) :
    (j = i ∧ b = a) ∨ (j ≠ i ∧ l[j]? = some b) := by
  rw [List.getElem?_set] at h
  split at h
  · next heq =>
    split at h
    · exact .inl ⟨heq.symm, (Option.some.inj h).symm⟩
    · cases h
  · next hne => exact .inr ⟨Ne.symm hne, h⟩

/-- The exclusion of a call that changes its stripes. -/
theorem Tidy.exclusive_set (h : Tidy E hash s) (hi : s.calls[i]? = some call) {call' : Call}
    (hheld : ∀ l ∈ call'.held hash, l ∈ call.held hash ∨ ∀ other ∈ s.calls, l ∉ other.held hash) :
    ∀ (j k : ℕ) (a b : Call), j ≠ k → (s.calls.set i call')[j]? = some a → (s.calls.set i call')[k]?
      = some b →
      ∀ l ∈ a.held hash, l ∉ b.held hash := by
  intro j k a b hjk ha hb l hla hlb
  rcases getElem?_set_cases ha with ⟨rfl, rfl⟩ | ⟨hj, ha'⟩
  · rcases getElem?_set_cases hb with ⟨rfl, -⟩ | ⟨-, hb'⟩
    · exact hjk rfl
    · rcases hheld l hla with hl | hfree
      · exact h.exclusive j k call b hjk hi hb' l hl hlb
      · exact hfree b (List.mem_of_getElem? hb') hlb
  · rcases getElem?_set_cases hb with ⟨rfl, rfl⟩ | ⟨-, hb'⟩
    · rcases hheld l hlb with hl | hfree
      · exact h.exclusive j k a call hjk ha' hi l hla hl
      · exact hfree a (List.mem_of_getElem? ha') hla
    · exact h.exclusive j k a b hjk ha' hb' l hla hlb

/-- A call goes to its next phase. -/
theorem Tidy.moveTo (h : Tidy E hash s) (hi : s.calls[i]? = some call) {phase : Phase}
    (hheld : ∀ l ∈ ({ call with phase := phase } : Call).held hash,
      l ∈ call.held hash ∨ ∀ other ∈ s.calls, l ∉ other.held hash)
    (hfits : ({ call with phase := phase } : Call).Fits hash)
    (hnewer : phase = .putting → storedVersion E s.store call.nodeId call.streamKey
      < (call.version.val : WithBot ℚ))
    (hcovered : ({ call with phase := phase } : Call).recorded →
      (call.version.val : WithBot ℚ) ≤ storedVersion E s.store call.nodeId call.streamKey) :
    Tidy E hash (s.moveTo i call phase) where
  kept := h.kept
  fits := fun call' hmem => by
    rcases List.mem_or_eq_of_mem_set hmem with hmem | rfl
    · exact h.fits call' hmem
    · exact hfits
  exclusive := h.exclusive_set hi hheld
  newer := fun call' hmem hphase => by
    rcases List.mem_or_eq_of_mem_set hmem with hmem | rfl
    · exact h.newer call' hmem hphase
    · exact hnewer hphase
  covered := fun call' hmem hrecorded => by
    rcases List.mem_or_eq_of_mem_set hmem with hmem | rfl
    · exact h.covered call' hmem hrecorded
    · exact hcovered hrecorded
  attained := fun n sk => by
    -- the call that attains the stored version is kept; it may be the one that moves on
    rcases h.attained n sk with hbot | ⟨call', hmem, hn, hsk, heq⟩
    · exact .inl hbot
    · refine .inr ?_
      obtain ⟨j, hj⟩ := List.mem_iff_getElem?.mp hmem
      by_cases hji : j = i
      · subst hji
        cases hi.symm.trans hj
        refine ⟨{ call with phase := phase }, ?_, hn, hsk, heq⟩
        exact List.mem_of_getElem? (List.getElem?_set_self (List.getElem?_eq_some_iff.mp hj).1)
      · refine ⟨call', ?_, hn, hsk, heq⟩
        apply List.mem_of_getElem? (i := j)
        show (s.calls.set i _)[j]? = _
        rw [List.getElem?_set_ne fun heq => hji heq.symm]
        exact hj

/-- A store that changes, but for its tombstones. -/
theorem Tidy.withStore (h : Tidy E hash s) {store : Dict String Bytes} (hkept : Kept E store)
    (hsame : ∀ n sk, storedVersion E store n sk = storedVersion E s.store n sk) :
      Tidy E hash { s with store := store } where
  kept := hkept
  fits := h.fits
  exclusive := h.exclusive
  newer := fun call hmem hphase => by
    rw [hsame]
    exact h.newer call hmem hphase
  covered := fun call hmem hrecorded => by
    rw [hsame]
    exact h.covered call hmem hrecorded
  attained := fun n sk => by
    rw [hsame]
    exact h.attained n sk

theorem kept_setState {store : Dict String Bytes} (h : Kept E store) (space streamId : String)
    (value : Bytes) :
    Kept E (store.set (stateKey space streamId) value) := by
  intro key value' hget
  rw [Dict.get?_set] at hget
  split at hget
  · next heq => exact .inl ⟨space, streamId, heq⟩
  · exact h key value' hget

theorem kept_pop {store : Dict String Bytes} (h : Kept E store) (k : String) :
    Kept E (store.pop k) := by
  intro key value hget
  rw [Dict.get?_pop] at hget
  split at hget
  · cases hget
  · exact h key value hget

theorem kept_put {store : Dict String Bytes} (h : Kept E store) (n sk : String) (v : Binary64) :
    Kept E (store.set (tombstoneKey n sk) (tombstoneEnvelope E sk v)) := by
  intro key value hget
  rw [Dict.get?_set] at hget
  split at hget
  · next heq =>
    cases hget
    exact .inr ⟨n, sk, v, heq, rfl⟩
  · exact h key value hget

/-- What is stored after a put. -/
theorem le_storedVersion_put (hE : E.KeepsTombstones) {store : Dict String Bytes}
    (hnewer : storedVersion E store call.nodeId call.streamKey < (call.version.val : WithBot ℚ))
    (n sk : String) :
    storedVersion E store n sk ≤ storedVersion E (store.set call.tombstoneKey
      (tombstoneEnvelope E call.streamKey call.version)) n sk := by
  rw [Call.tombstoneKey, storedVersion_put hE]
  split
  · next heq =>
    rw [heq.1, heq.2]
    exact hnewer.le
  · exact le_rfl

/-- The put of a tombstone. No other call that is about to put this one holds its stripe. -/
theorem Tidy.put (hE : E.KeepsTombstones) (h : Tidy E hash s) (hi : s.calls[i]? = some call)
    (hphase : call.phase = .putting) :
    Tidy E hash ({ s with
      store := s.store.set call.tombstoneKey (tombstoneEnvelope E call.streamKey call.version)
        }.moveTo i call
        .syncing) := by
  have hnewer := h.newer call (List.mem_of_getElem? hi) hphase
  have hmono := le_storedVersion_put hE hnewer
  have hself : storedVersion E
    (s.store.set call.tombstoneKey (tombstoneEnvelope E call.streamKey call.version))
      call.nodeId call.streamKey = (call.version.val : WithBot ℚ) := by
    rw [Call.tombstoneKey, storedVersion_put hE, if_pos ⟨rfl, rfl⟩]
  have htaken := taken_of_putting hash hphase
  have hmem' : ∀ j : ℕ, ∀ other, j ≠ i → s.calls[j]? = some other →
      other ∈ s.calls.set i { call with phase := .syncing } := by
    intro j other hne hj
    apply List.mem_of_getElem? (i := j)
    rw [List.getElem?_set_ne hne.symm]
    exact hj
  have hnext : ({ call with phase := .syncing } : Call) ∈ s.calls.set i
    { call with phase := .syncing } :=
    List.mem_of_getElem? (List.getElem?_set_self (List.getElem?_eq_some_iff.mp hi).1)
  refine ⟨kept_put h.kept _ _ _, ?_, h.exclusive_set hi fun l hl =>
    .inl (held_subset htaken _ hl), ?_, ?_, ?_⟩
  · intro other hmem
    rcases List.mem_or_eq_of_mem_set hmem with hmem | rfl
    · exact h.fits other hmem
    · trivial
  · intro other hmem hputting
    obtain ⟨j, hj⟩ := List.mem_iff_getElem?.mp hmem
    rcases getElem?_set_cases hj with ⟨-, rfl⟩ | ⟨hji, hold⟩
    · cases hputting
    · show storedVersion E (s.store.set _ _) _ _ < _
      rw [Call.tombstoneKey, storedVersion_put hE]
      split
      · next heq =>
        -- both hold the stripe of the tombstone
        have hstripe := tombstone_mem_held (taken_of_putting hash hputting)
        rw [heq.1, heq.2] at hstripe
        exact absurd hstripe (h.exclusive i j call other (Ne.symm hji) hi hold _
          (tombstone_mem_held htaken))
      · exact h.newer other (List.mem_of_getElem? hold) hputting
  · intro other hmem hrecorded
    rcases List.mem_or_eq_of_mem_set hmem with hmem | rfl
    · exact (h.covered other hmem hrecorded).trans (hmono _ _)
    · exact hself.ge
  · intro n sk
    by_cases heq : n = call.nodeId ∧ sk = call.streamKey
    · obtain ⟨rfl, rfl⟩ := heq
      exact .inr ⟨_, hnext, rfl, rfl, hself⟩
    · have hsame : storedVersion E
        (s.store.set call.tombstoneKey (tombstoneEnvelope E call.streamKey call.version)) n sk
          = storedVersion E s.store n sk := by
        rw [Call.tombstoneKey, storedVersion_put hE, if_neg heq]
      show storedVersion E (s.store.set _ _) n sk = ⊥ ∨ _
      rw [hsame]
      rcases h.attained n sk with hbot | ⟨other, hmem, hn, hsk, hversion⟩
      · exact .inl hbot
      · obtain ⟨j, hj⟩ := List.mem_iff_getElem?.mp hmem
        refine .inr ⟨other, hmem' j other ?_ hj, hn, hsk, hsame.trans hversion⟩
        rintro rfl
        cases hi.symm.trans hj
        exact heq ⟨hn.symm, hsk.symm⟩

theorem locks_ne_nil (call : Call) : 0 < (call.locks hash).length :=
  List.length_pos_of_mem (tombstone_mem_locks call)

/-- What a call holds with one more stripe. -/
theorem mem_held_next {taken index : ℕ} (hphase : call.phase = .locking taken)
    (hindex : (call.locks hash)[taken]? = some index)
    {phase : Phase} (htaken : ({ call with phase := phase } : Call).taken hash = taken + 1) :
    ∀ l ∈ ({ call with phase := phase } : Call).held hash, l ∈ call.held hash ∨ l = index := by
  obtain ⟨hlt, hget⟩ := List.getElem?_eq_some_iff.mp hindex
  intro l hl
  unfold Call.held at hl
  rw [htaken] at hl
  have hsplit : (call.locks hash).take (taken + 1) = (call.locks hash).take taken ++ [index] := by
    rw [List.take_succ_eq_append_getElem hlt, hget]
  rcases List.mem_append.mp (hsplit ▸ hl : l ∈ (call.locks hash).take taken ++ [index]) with hl | hl
  · left
    unfold Call.held Call.taken
    rw [hphase]
    exact hl
  · exact .inr (List.mem_singleton.mp hl)

/-- The next stripe is taken. -/
theorem Tidy.lock (h : Tidy E hash s) (hi : s.calls[i]? = some call) {taken : ℕ}
    (hphase : call.phase = .locking taken)
    (hlock : s.lock hash i call taken = some s') : Tidy E hash s' := by
  unfold Running.lock at hlock
  split at hlock
  · next index hindex =>
    split at hlock
    · cases hlock
    · next hfree =>
      have hlt := (List.getElem?_eq_some_iff.mp hindex).1
      -- no call holds the lock that is taken now
      have hnone : ∀ other ∈ s.calls, index ∉ other.held hash := fun other hother hheld =>
        hfree (List.any_eq_true.mpr ⟨other, hother, decide_eq_true hheld⟩)
      cases hlock
      -- another lock is to come, or the client call can begin
      by_cases hmore : taken + 1 < (call.locks hash).length
      · rw [if_pos hmore]
        refine h.moveTo hi (fun l hl => ?_) hmore (fun heq => by cases heq) fun hrecorded => by
          cases hrecorded
        rcases mem_held_next hphase hindex rfl l hl with hl | rfl
        · exact .inl hl
        · exact .inr hnone
      · rw [if_neg hmore]
        have htaken : ({ call with phase := .getting } : Call).taken hash = taken + 1 := by
          show (call.locks hash).length = taken + 1
          omega
        refine h.moveTo hi (fun l hl => ?_) trivial (fun heq => by cases heq) fun hrecorded => by
          cases hrecorded
        rcases mem_held_next hphase hindex htaken l hl with hl | rfl
        · exact .inl hl
        · exact .inr hnone
  · cases hlock

/-- A call begins. -/
theorem Tidy.start (h : Tidy E hash s) (request : Request) (n sk : String) (v : Binary64) :
    Tidy E hash { s with calls := s.calls ++ [⟨request, n, sk, v, .locking 0⟩] } where
  kept := h.kept
  fits := fun call hmem => by
    rcases List.mem_append.mp hmem with hmem | hmem
    · exact h.fits call hmem
    · rw [List.mem_singleton.mp hmem]
      exact locks_ne_nil _
  exclusive := by
    -- the new call holds nothing
    have hnew : ∀ (j : ℕ) (a : Call), (s.calls ++ [⟨request, n, sk, v, .locking 0⟩])[j]? = some a →
        s.calls[j]? = some a ∨ a.held hash = [] := by
      intro j a ha
      rw [List.getElem?_append] at ha
      split at ha
      · exact .inl ha
      · rw [List.mem_singleton.mp (List.mem_of_getElem? ha)]
        exact .inr rfl
    intro i j a b hij ha hb l hla hlb
    rcases hnew i a ha with ha | ha
    · rcases hnew j b hb with hb | hb
      · exact h.exclusive i j a b hij ha hb l hla hlb
      · rw [hb] at hlb
        exact absurd hlb List.not_mem_nil
    · rw [ha] at hla
      exact absurd hla List.not_mem_nil
  newer := fun call hmem hphase => by
    rcases List.mem_append.mp hmem with hmem | hmem
    · exact h.newer call hmem hphase
    · rw [List.mem_singleton.mp hmem] at hphase
      cases hphase
  covered := fun call hmem hrecorded => by
    rcases List.mem_append.mp hmem with hmem | hmem
    · exact h.covered call hmem hrecorded
    · rw [List.mem_singleton.mp hmem] at hrecorded
      cases hrecorded
  attained := fun n' sk' => by
    rcases h.attained n' sk' with hbot | ⟨call, hmem, hrest⟩
    · exact .inl hbot
    · exact .inr ⟨call, List.mem_append_left _ hmem, hrest⟩

theorem Call.stop_cases (call : Call) : (call.stop = call ∧ ∃ r, call.phase = .done r) ∨ call.stop
    = { call with phase := .stopped } := by
  unfold Call.stop
  split
  · next r heq => exact .inl ⟨rfl, r, heq⟩
  · exact .inr rfl

/-- The process stops. -/
theorem Tidy.stop (h : Tidy E hash s) : Tidy E hash { s with calls := s.calls.map Call.stop } where
  kept := h.kept
  fits := fun call hmem => by
    obtain ⟨old, hold, rfl⟩ := List.mem_map.mp hmem
    -- a call that is stopped holds no lock and has recorded nothing
    rcases old.stop_cases with ⟨heq, -⟩ | heq
    · rw [heq]
      exact h.fits old hold
    · rw [heq]
      trivial
  exclusive := fun i j a b _ ha _ l hla => by
    rw [List.getElem?_map] at ha
    obtain ⟨old, -, rfl⟩ := Option.map_eq_some_iff.mp ha
    have hnone : old.stop.held hash = [] := by
      rcases old.stop_cases with ⟨heq, r, hphase⟩ | heq
      · rw [heq]
        unfold Call.held Call.taken
        rw [hphase]
        rfl
      · rw [heq]
        rfl
    rw [hnone] at hla
    exact absurd hla List.not_mem_nil
  newer := fun call hmem hphase => by
    obtain ⟨old, hold, rfl⟩ := List.mem_map.mp hmem
    rcases old.stop_cases with ⟨heq, -⟩ | heq
    · rw [heq] at hphase ⊢
      exact h.newer old hold hphase
    · rw [heq] at hphase
      cases hphase
  covered := fun call hmem hrecorded => by
    obtain ⟨old, hold, rfl⟩ := List.mem_map.mp hmem
    rcases old.stop_cases with ⟨heq, -⟩ | heq
    · rw [heq] at hrecorded ⊢
      exact h.covered old hold hrecorded
    · rw [heq] at hrecorded
      cases hrecorded
  attained := fun n sk => by
    rcases h.attained n sk with hbot | ⟨call, hmem, hn, hsk, heq⟩
    · exact .inl hbot
    · refine .inr ⟨call.stop, List.mem_map_of_mem hmem, ?_⟩
      rcases call.stop_cases with ⟨hstop, -⟩ | hstop
      · rw [hstop]
        exact ⟨hn, hsk, heq⟩
      · rw [hstop]
        exact ⟨hn, hsk, heq⟩

/-- What a client call does. -/
theorem clientCall_cases (h : s.clientCall E i call = some s') :
    (call.phase = .getting ∧ s' = s.getTombstone E i call)
      ∨ (call.phase = .putting ∧ s' = { s with
          store := s.store.set call.tombstoneKey (tombstoneEnvelope E call.streamKey call.version)
            }.moveTo i call .syncing)
      ∨ (call.phase = .syncing ∧ s' = s.moveTo i call call.afterTombstone)
      ∨ (∃ space streamId, call.request = .deleteWithTombstone space streamId ∧ call.phase
        = .gettingState ∧ s' = s.moveTo i
          call (if s.store.get? (stateKey space streamId) = none then .done (some false)
            else .deleting))
      ∨ (∃ space streamId, call.request = .deleteWithTombstone space streamId ∧ call.phase = .deleting
          ∧ s' = { s with store := s.store.pop (stateKey space streamId) }.moveTo i call .syncingState)
      ∨ (call.phase = .syncingState ∧ s' = s.moveTo i call (.done (some true))) := by
  unfold Running.clientCall at h
  -- one case for each pair of phase and request that the client has
  split at h
  · next hphase =>
    cases h
    exact .inl ⟨hphase, rfl⟩
  · next hphase =>
    cases h
    exact .inr (.inl ⟨hphase, rfl⟩)
  · next hphase =>
    cases h
    exact .inr (.inr (.inl ⟨hphase, rfl⟩))
  · next space streamId hphase hrequest =>
    cases h
    exact .inr (.inr (.inr (.inl ⟨space, streamId, hrequest, hphase, rfl⟩)))
  · next space streamId hphase hrequest =>
    cases h
    exact .inr (.inr (.inr (.inr (.inl ⟨space, streamId, hrequest, hphase, rfl⟩))))
  · next hphase =>
    cases h
    exact .inr (.inr (.inr (.inr (.inr ⟨hphase, rfl⟩))))
  · cases h

/-- A call that has all its stripes goes on. -/
theorem Tidy.proceed (h : Tidy E hash s) (hi : s.calls[i]? = some call) {phase : Phase}
    (htaken : call.taken hash = (call.locks hash).length)
    (hfits : ({ call with phase := phase } : Call).Fits hash)
    (hnewer : phase = .putting → storedVersion E s.store call.nodeId call.streamKey
      < (call.version.val : WithBot ℚ))
    (hcovered : ({ call with phase := phase } : Call).recorded →
      (call.version.val : WithBot ℚ) ≤ storedVersion E s.store call.nodeId call.streamKey) :
    Tidy E hash (s.moveTo i call phase) :=
  h.moveTo hi (fun _ hl => .inl (held_subset htaken _ hl)) hfits hnewer hcovered

/-- Behind its tombstone a call goes on. -/
theorem Tidy.proceed_covered (h : Tidy E hash s) (hi : s.calls[i]? = some call) {phase : Phase}
    (htaken : call.taken hash = (call.locks hash).length)
    (hfits : ({ call with phase := phase } : Call).Fits hash)
    (hphase : phase ≠ .putting)
    (hcovered : (call.version.val : WithBot ℚ) ≤ storedVersion E s.store call.nodeId call.streamKey) :
    Tidy E hash (s.moveTo i call phase) :=
  h.proceed hi htaken hfits (fun heq => absurd heq hphase) fun _ => hcovered

theorem afterTombstone_ne_putting (call : Call) : call.afterTombstone ≠ .putting := by
  unfold Call.afterTombstone
  split <;> exact fun h => by cases h

theorem fits_afterTombstone (call : Call) :
    ({ call with phase := call.afterTombstone } : Call).Fits hash := by
  unfold Call.Fits Call.afterTombstone
  split
  · next heq => split at heq <;> cases heq
  · next heq =>
    split at heq
    · cases heq
    · next space streamId hrequest => exact ⟨space, streamId, hrequest⟩
  · next heq => split at heq <;> cases heq
  · next heq => split at heq <;> cases heq
  · trivial

/-- **What a client call keeps.** -/
theorem Tidy.clientCall (hE : E.KeepsTombstones) (h : Tidy E hash s) (hi : s.calls[i]? = some call)
    (hstep : s.clientCall E i call = some s') : Tidy E hash s' := by
  have hcovered := h.covered call (List.mem_of_getElem? hi)
  rcases clientCall_cases hstep with ⟨hphase, rfl⟩ | ⟨hphase, rfl⟩ | ⟨hphase, rfl⟩ | ⟨space,
    streamId, hrequest, hphase, rfl⟩
    | ⟨space, streamId, hrequest, hphase, rfl⟩ | ⟨hphase, rfl⟩
  · -- the read: the tombstone is as high already, or is to be put
    obtain ⟨current, hcurrent, hiff⟩ :=
      tombstoneVersion_cases hE h.kept call.nodeId call.streamKey call.version
    have htaken : call.taken hash = (call.locks hash).length := by
      unfold Call.taken
      rw [hphase]
    unfold Running.getTombstone
    rw [Call.tombstoneKey, hcurrent]
    show Tidy E hash (s.moveTo i call (if atLeast current call.version then call.afterTombstone
      else .putting))
    by_cases hhigh : atLeast current call.version = true
    · rw [if_pos hhigh]
      exact h.proceed_covered hi htaken (fits_afterTombstone call) (afterTombstone_ne_putting call)
        (hiff.mp hhigh)
    · rw [if_neg hhigh]
      exact h.proceed hi htaken trivial (fun _ => not_le.mp fun hle => hhigh (hiff.mpr hle))
        fun hrecorded => by
        cases hrecorded
  · exact h.put hE hi hphase
  · have htaken : call.taken hash = (call.locks hash).length := by
      unfold Call.taken
      rw [hphase]
    have hrecorded : call.recorded = true := by
      unfold Call.recorded
      rw [hphase]
    exact h.proceed_covered hi htaken (fits_afterTombstone call) (afterTombstone_ne_putting call)
      (hcovered hrecorded)
  · have htaken : call.taken hash = (call.locks hash).length := by
      unfold Call.taken
      rw [hphase]
    have hrecorded : call.recorded = true := by
      unfold Call.recorded
      rw [hphase]
    split
    · exact h.proceed_covered hi htaken trivial (fun heq => by cases heq) (hcovered hrecorded)
    · exact h.proceed_covered hi htaken ⟨space, streamId, hrequest⟩ (fun heq => by cases heq)
        (hcovered hrecorded)
  · have htaken : call.taken hash = (call.locks hash).length := by
      unfold Call.taken
      rw [hphase]
    have hrecorded : call.recorded = true := by
      unfold Call.recorded
      rw [hphase]
    have hpop := storedVersion_popState (E := E) s.store space streamId
    have hstore := h.withStore (kept_pop h.kept (stateKey space streamId)) hpop
    refine hstore.proceed_covered hi htaken ⟨space, streamId, hrequest⟩ (fun heq => by cases heq) ?_
    rw [hpop]
    exact hcovered hrecorded
  · have htaken : call.taken hash = (call.locks hash).length := by
      unfold Call.taken
      rw [hphase]
    have hrecorded : call.recorded = true := by
      unfold Call.recorded
      rw [hphase]
    exact h.proceed_covered hi htaken trivial (fun heq => by cases heq) (hcovered hrecorded)

/-- **What a step keeps.** -/
theorem Tidy.step (hE : E.KeepsTombstones) (h : Tidy E hash s) {a : Running.Action}
    (hstep : s.step E hash a = some s') :
    Tidy E hash s' := by
  cases a with
  | start request n sk v =>
    cases hstep
    exact h.start request n sk v
  | stop =>
    cases hstep
    exact h.stop
  | putState space streamId value =>
    cases hstep
    exact h.withStore (kept_setState h.kept space streamId value)
      (storedVersion_setState s.store space streamId value)
  | advance i =>
    unfold Running.step at hstep
    dsimp only at hstep
    split at hstep
    · next call hi =>
      split at hstep
      · next hphase => exact h.lock hi hphase hstep
      · exact h.clientCall hE hi hstep
    · cases hstep

/-- What a step does to the store. -/
theorem step_store {a : Running.Action} (hstep : s.step E hash a = some s') :
    s'.store = s.store
      ∨ (∃ (i : ℕ) (call : Call), s.calls[i]? = some call ∧ call.phase = .putting
        ∧ s'.store = s.store.set call.tombstoneKey (tombstoneEnvelope E call.streamKey call.version))
      ∨ (∃ space streamId value, s'.store = s.store.set (stateKey space streamId) value)
      ∨ ∃ (i : ℕ) (call : Call) (space streamId : String), a = .advance i ∧ s.calls[i]? = some call
        ∧ call.phase = .deleting
        ∧ call.request = .deleteWithTombstone space streamId ∧ s'.store = s.store.pop
          (stateKey space streamId) := by
  -- of all actions, three write: a tombstone, a state, and the removal of a state
  cases a with
  | start request n sk v =>
    cases hstep
    exact .inl rfl
  | stop =>
    cases hstep
    exact .inl rfl
  | putState space streamId value =>
    cases hstep
    exact .inr (.inr (.inl ⟨space, streamId, value, rfl⟩))
  | advance i =>
    unfold Running.step at hstep
    dsimp only at hstep
    split at hstep
    · next call hi =>
      split at hstep
      · unfold Running.lock at hstep
        split at hstep
        · split at hstep
          · cases hstep
          · cases hstep
            exact .inl rfl
        · cases hstep
      · rcases clientCall_cases hstep with ⟨-, rfl⟩ | ⟨hphase, rfl⟩ | ⟨-, rfl⟩ | ⟨_, _, -, -, rfl⟩
          | ⟨space, streamId, hrequest, hphase, rfl⟩ | ⟨-, rfl⟩
        · left
          unfold Running.getTombstone
          split <;> rfl
        · exact .inr (.inl ⟨i, call, hi, hphase, rfl⟩)
        · exact .inl rfl
        · exact .inl rfl
        · exact .inr (.inr (.inr ⟨i, call, space, streamId, rfl, hi, hphase, hrequest, rfl⟩))
        · exact .inl rfl
    · cases hstep

/-- Versions do not decrease. -/
theorem Tidy.storedVersion_le (hE : E.KeepsTombstones) (h : Tidy E hash s) {a : Running.Action}
    (hstep : s.step E hash a = some s') (n sk : String) :
      storedVersion E s.store n sk ≤ storedVersion E s'.store n sk := by
  rcases step_store hstep with heq | ⟨i, call, hi, hphase, heq⟩ | ⟨space, streamId, value, heq⟩
    | ⟨i, call, space, streamId, -, -, -, -, heq⟩
  · rw [heq]
  · rw [heq]
    exact le_storedVersion_put hE (h.newer call (List.mem_of_getElem? hi) hphase) n sk
  · rw [heq, storedVersion_setState]
  · rw [heq, storedVersion_popState]

/-- Only a call of `delete_with_tombstone` removes a state, and behind a tombstone that is as high
as its own. -/
theorem Tidy.removed (h : Tidy E hash s) {a : Running.Action} (hstep : s.step E hash a = some s')
    {space streamId : String}
    (hbefore : s.store.get? (stateKey space streamId) ≠ none)
    (hafter : s'.store.get? (stateKey space streamId) = none) :
    ∃ (i : ℕ) (call : Call), a = .advance i ∧ s.calls[i]? = some call ∧ call.request
      = .deleteWithTombstone space streamId
      ∧ (call.version.val : WithBot ℚ) ≤ storedVersion E s.store call.nodeId call.streamKey := by
  -- only the removal takes a state away, and the call has recorded its tombstone by then
  rcases step_store hstep with heq | ⟨i, call, hi, hphase, heq⟩ | ⟨space', streamId', value, heq⟩
    | ⟨i, call, space', streamId', rfl, hi, hphase, hrequest, heq⟩
  · rw [heq] at hafter
    exact absurd hafter hbefore
  · rw [heq, Call.tombstoneKey, Dict.get?_set_of_ne (stateKey_ne_tombstoneKey _ _ _ _)] at hafter
    exact absurd hafter hbefore
  · rw [heq, Dict.get?_set] at hafter
    split at hafter
    · cases hafter
    · exact absurd hafter hbefore
  · rw [heq, Dict.get?_pop] at hafter
    split at hafter
    · next hkey =>
      have hrecorded : call.recorded = true := by
        unfold Call.recorded
        rw [hphase]
      obtain ⟨rfl, rfl⟩ := stateKey_inj hkey
      exact ⟨i, call, rfl, hi, hrequest, h.covered call (List.mem_of_getElem? hi) hrecorded⟩
    · exact absurd hafter hbefore

/-! ## Progress

The calls that wait form no cycle, since stripes are taken in ascending order. So some call can go
on, and the number of steps left falls. -/

/-- A bound on the steps that a call has left. -/
def Call.left (hash : String → String → ℤ) (call : Call) : ℕ :=
  match call.phase with
  | .locking taken => 7 + ((call.locks hash).length - taken)
  | .getting => 6
  | .putting => 5
  | .syncing => 4
  | .gettingState => 3
  | .deleting => 2
  | .syncingState => 1
  | .done _ | .stopped => 0

theorem not_mem_held_of_finished (h : call.finished = true) {l : ℕ} : l ∉ call.held hash := by
  have htaken : call.taken hash = 0 := by
    unfold Call.finished at h
    unfold Call.taken
    cases hphase : call.phase with
    | done deleted => rfl
    | stopped => rfl
    | _ =>
      rw [hphase] at h
      cases h
  unfold Call.held
  rw [htaken]
  exact List.not_mem_nil

/-- A call that has its stripes makes its next client call. -/
theorem exists_clientCall (s : Running) (i : ℕ) (hfits : call.Fits hash)
    (hrunning : call.finished = false)
    (hunlocked : ∀ taken, call.phase ≠ .locking taken) : ∃ s', s.clientCall E i call = some s' := by
  unfold Call.Fits at hfits
  unfold Call.finished at hrunning
  unfold Running.clientCall
  -- a locked phase waits for its lock, a finished one does nothing; all others go on
  cases hphase : call.phase with
  | locking taken => exact absurd hphase (hunlocked taken)
  | done deleted =>
    rw [hphase] at hrunning
    cases hrunning
  | stopped =>
    rw [hphase] at hrunning
    cases hrunning
  | gettingState =>
    rw [hphase] at hfits
    obtain ⟨space, streamId, hrequest⟩ := hfits
    rw [hrequest]
    exact ⟨_, rfl⟩
  | deleting =>
    rw [hphase] at hfits
    obtain ⟨space, streamId, hrequest⟩ := hfits
    rw [hrequest]
    exact ⟨_, rfl⟩
  | getting => exact ⟨_, rfl⟩
  | putting => exact ⟨_, rfl⟩
  | syncing => exact ⟨_, rfl⟩
  | syncingState => exact ⟨_, rfl⟩

/-- Some call that has not returned can go on. -/
theorem Tidy.exists_advance (h : Tidy E hash s) (hopen : ∃ call ∈ s.calls, call.finished = false) :
    ∃ i s', s.step E hash (.advance i) = some s' := by
  have hne : (s.calls.filter fun call => !call.finished).map (fun call =>
    LockOrder.Claim.mk (call.locks hash) (call.taken hash))
      ≠ [] := by
    obtain ⟨call, hmem, hfinished⟩ := hopen
    exact List.ne_nil_of_mem (List.mem_map_of_mem (List.mem_filter.mpr ⟨hmem, by rw [hfinished]; rfl⟩))
  obtain ⟨p, hp, hfree⟩ := LockOrder.exists_unblocked hne (by
    intro p hp
    obtain ⟨call, -, rfl⟩ := List.mem_map.mp hp
    exact sorted_locks call)
  obtain ⟨call, hcall, rfl⟩ := List.mem_map.mp hp
  obtain ⟨hmem, hfinished⟩ := List.mem_filter.mp hcall
  obtain ⟨i, hi⟩ := List.mem_iff_getElem?.mp hmem
  have hfits := h.fits call hmem
  refine ⟨i, ?_⟩
  by_cases hlocking : ∃ taken, call.phase = .locking taken
  · obtain ⟨taken, hphase⟩ := hlocking
    unfold Call.Fits at hfits
    rw [hphase] at hfits
    -- the stripe it waits for is free
    have htaken : call.taken hash = taken := by
      unfold Call.taken
      rw [hphase]
    have hwanted : (call.locks hash)[taken]? = some ((call.locks hash)[taken]) :=
      List.getElem?_eq_getElem hfits
    have hnone : ¬ (s.calls.any fun other => decide ((call.locks hash)[taken] ∈ other.held hash))
      = true := by
      intro hany
      obtain ⟨other, hother, hheld⟩ := List.any_eq_true.mp hany
      have hheld := of_decide_eq_true hheld
      cases hdone : other.finished with
      | true => exact absurd hheld (not_mem_held_of_finished hdone)
      | false =>
        refine hfree _ ?_ ⟨other.locks hash, other.taken hash⟩
          (List.mem_map_of_mem (List.mem_filter.mpr ⟨hother, ?_⟩)) hheld
        · rw [LockOrder.Claim.wanted, htaken]
          exact hwanted
        · rw [hdone]
          rfl
    have hstep : s.step E hash (.advance i) = s.lock hash i call taken := by
      unfold Running.step
      dsimp only
      rw [hi]
      dsimp only
      rw [hphase]
    rw [hstep, Running.lock, hwanted]
    exact ⟨_, if_neg hnone⟩
  · have hunlocked : ∀ taken, call.phase ≠ .locking taken := fun taken heq => hlocking ⟨taken, heq⟩
    obtain ⟨s', hs'⟩ := exists_clientCall (E := E) s i hfits (Bool.not_eq_true' _ ▸ hfinished) hunlocked
    refine ⟨s', ?_⟩
    unfold Running.step
    dsimp only
    rw [hi]
    dsimp only
    split
    · next taken heq => exact absurd heq (hunlocked taken)
    · exact hs'

theorem left_afterTombstone (hash : String → String → ℤ) (call : Call) :
    ({ call with phase := call.afterTombstone } : Call).left hash ≤ 3 := by
  unfold Call.afterTombstone
  split
  · exact Nat.zero_le 3
  · exact le_refl 3

/-- Every step of a call brings it nearer to its end. -/
theorem step_left (hstep : s.step E hash (.advance i) = some s') :
    ∃ (call : Call) (phase : Phase), s.calls[i]? = some call ∧ s'.calls = s.calls.set i
      { call with phase := phase }
      ∧ ({ call with phase := phase } : Call).left hash < call.left hash := by
  unfold Running.step at hstep
  dsimp only at hstep
  split at hstep
  · next call hi =>
    -- the phases are numbered by how many steps are left
    have hafter := left_afterTombstone hash call
    split at hstep
    · next taken hphase =>
      have hcall : call.left hash = 7 + ((call.locks hash).length - taken) := by
        unfold Call.left
        rw [hphase]
      unfold Running.lock at hstep
      split at hstep
      · next index hindex =>
        have hlt := (List.getElem?_eq_some_iff.mp hindex).1
        split at hstep
        · cases hstep
        · cases hstep
          refine ⟨call, _, hi, rfl, ?_⟩
          rw [hcall]
          split
          · show 7 + ((call.locks hash).length - (taken + 1)) < _
            omega
          · show 6 < _
            omega
      · cases hstep
    · -- the six client steps, each with one number less
      rcases clientCall_cases hstep with ⟨hphase, rfl⟩ | ⟨hphase, rfl⟩ | ⟨hphase, rfl⟩ | ⟨_, _, -,
        hphase, rfl⟩
        | ⟨_, _, -, hphase, rfl⟩ | ⟨hphase, rfl⟩
      · have hcall : call.left hash = 6 := by
          unfold Call.left
          rw [hphase]
        unfold Running.getTombstone
        split
        · refine ⟨call, _, hi, rfl, ?_⟩
          rw [hcall]
          split
          · omega
          · exact Nat.lt_succ_self 5
        · exact ⟨call, _, hi, rfl, hcall ▸ Nat.succ_pos 5⟩
      · have hcall : call.left hash = 5 := by
          unfold Call.left
          rw [hphase]
        exact ⟨call, _, hi, rfl, hcall ▸ Nat.lt_succ_self 4⟩
      · have hcall : call.left hash = 4 := by
          unfold Call.left
          rw [hphase]
        exact ⟨call, _, hi, rfl, by omega⟩
      · have hcall : call.left hash = 3 := by
          unfold Call.left
          rw [hphase]
        refine ⟨call, _, hi, rfl, ?_⟩
        rw [hcall]
        split
        · exact Nat.succ_pos 2
        · exact Nat.lt_succ_self 2
      · have hcall : call.left hash = 2 := by
          unfold Call.left
          rw [hphase]
        exact ⟨call, _, hi, rfl, hcall ▸ Nat.lt_succ_self 1⟩
      · have hcall : call.left hash = 1 := by
          unfold Call.left
          rw [hphase]
        exact ⟨call, _, hi, rfl, hcall ▸ Nat.lt_succ_self 0⟩
  · cases hstep

/-- The steps that all calls have left. -/
def Running.left (hash : String → String → ℤ) (s : Running) : ℕ := (s.calls.map (Call.left hash)).sum

theorem left_lt (hstep : s.step E hash (.advance i) = some s') : s'.left hash < s.left hash := by
  obtain ⟨call, phase, hi, hcalls, hlt⟩ := step_left hstep
  obtain ⟨hlen, hget⟩ := List.getElem?_eq_some_iff.mp hi
  unfold Running.left
  rw [hcalls, List.map_set]
  have hself := List.sum_set (s.calls.map (Call.left hash)) i (call.left hash)
  have hnext := List.sum_set (s.calls.map (Call.left hash)) i
    (({ call with phase := phase } : Call).left hash)
  have hsame : (s.calls.map (Call.left hash)).set i (call.left hash)
    = s.calls.map (Call.left hash) := by
    rw [← List.map_set, ← hget, List.set_getElem_self]
  rw [hsame, if_pos (by rw [List.length_map]; exact hlen)] at hself
  rw [if_pos (by rw [List.length_map]; exact hlen)] at hnext
  omega

/-- All calls come to an end. -/
theorem Tidy.exists_finish (hE : E.KeepsTombstones) (h : Tidy E hash s) :
    ∃ is s', run (Running.step E hash) s (List.map Running.Action.advance is) = some s'
      ∧ ∀ call ∈ s'.calls, call.finished := by
  induction hleft : s.left hash using Nat.strong_induction_on generalizing s with
  | _ m ih =>
    by_cases hopen : ∃ call ∈ s.calls, call.finished = false
    · obtain ⟨i, s₁, hstep⟩ := h.exists_advance hopen
      obtain ⟨is, s', hrun, hfinished⟩ := ih _ (hleft ▸ left_lt hstep) (h.step hE hstep) rfl
      exact ⟨i :: is, s', run_cons.mpr ⟨s₁, hstep, hrun⟩, hfinished⟩
    · refine ⟨[], s, rfl, fun call hmem => ?_⟩
      by_contra hnot
      exact hopen ⟨call, hmem, Bool.not_eq_true _ ▸ hnot⟩

/-! ## Runs

The invariant along a run, and what follows for a version that was stored. -/

theorem tidy_run (hE : E.KeepsTombstones) {as : List Running.Action} (h : Tidy E hash s)
    (hrun : run (Running.step E hash) s as = some s') : Tidy E hash s' :=
  run_invariant (I := Tidy E hash) (fun _ _ _ h _ hstep => h.step hE hstep) h meets_true hrun

theorem storedVersion_run (hE : E.KeepsTombstones) {as : List Running.Action} (h : Tidy E hash s)
    (hrun : run (Running.step E hash) s as = some s') (n sk : String) :
    storedVersion E s.store n sk ≤ storedVersion E s'.store n sk := by
  have hinv : Tidy E hash s' ∧ storedVersion E s.store n sk ≤ storedVersion E s'.store n sk := by
    refine run_invariant (I := fun t =>
      Tidy E hash t ∧ storedVersion E s.store n sk ≤ storedVersion E t.store n sk) ?_
      ⟨h, le_rfl⟩ meets_true hrun
    intro t a t' ht _ hstep
    exact ⟨ht.1.step hE hstep, ht.2.trans (ht.1.storedVersion_le hE hstep n sk)⟩
  exact hinv.2

/-- The versions of the calls about a tombstone. -/
def Running.versions (s : Running) (n sk : String) : Set ℚ :=
  {v | ∃ call ∈ s.calls, call.nodeId = n ∧ call.streamKey = sk ∧ v = call.version.val}

/-- What the storage promises of a state that a run has reached. -/
structure Running.Safe (E : Encodings) (hash : String → String → ℤ) (str : PyVal → String)
    (s : Running) : Prop where
  /-- Versions do not decrease from there on. -/
  monotone : ∀ as s', run (Running.step E hash) s as = some s' →
    ∀ n sk, storedVersion E s.store n sk ≤ storedVersion E s'.store n sk
  /-- A call that has returned has its version stored, or a higher one. -/
  returned : ∀ call ∈ s.calls, ∀ deleted, call.phase = .done deleted →
    (call.version.val : WithBot ℚ) ≤ storedVersion E s.store call.nodeId call.streamKey
  /-- When all calls about a tombstone have returned, the greatest of their versions is stored. -/
  greatest : ∀ n sk, (∀ call ∈ s.calls, call.nodeId = n → call.streamKey = sk → ∃ deleted,
    call.phase = .done deleted) →
    (s.versions n sk = ∅ ∧ storedVersion E s.store n sk = ⊥)
      ∨ ∃ v : ℚ, storedVersion E s.store n sk = v ∧ IsGreatest (s.versions n sk) v
  /-- A state is removed only by a `delete_with_tombstone` whose version is stored, or a higher one. -/
  precedes : ∀ a s', s.step E hash a = some s' → ∀ space streamId,
    s.store.get? (stateKey space streamId) ≠ none →
    s'.store.get? (stateKey space streamId) = none →
    ∃ (i : ℕ) (call : Call), a = .advance i ∧ s.calls[i]? = some call ∧ call.request
      = .deleteWithTombstone space streamId
      ∧ (call.version.val : WithBot ℚ) ≤ storedVersion E s.store call.nodeId call.streamKey
  /-- No calls are deadlocked: all can come to an end. -/
  finishes : ∃ is s', run (Running.step E hash) s (List.map Running.Action.advance is) = some s'
    ∧ ∀ call ∈ s'.calls, call.finished
  /-- `load_tombstones` returns the stored versions of its node. -/
  loads : ∀ n, ∃ loaded, loadTombstones E str s.store n = .ok loaded
    ∧ ∀ sk x, loaded.get? sk = some x ↔ s.store.get? (tombstoneKey n sk) ≠ none
      ∧ tombstoneVersion E (s.store.get? (tombstoneKey n sk)) = .ok x

/-- The greatest version is stored. -/
theorem Tidy.greatest (h : Tidy E hash s)
    (hreturned : ∀ call ∈ s.calls, call.nodeId = n → call.streamKey = sk →
    (call.version.val : WithBot ℚ) ≤ storedVersion E s.store n sk) :
    (s.versions n sk = ∅ ∧ storedVersion E s.store n sk = ⊥)
      ∨ ∃ v : ℚ, storedVersion E s.store n sk = v ∧ IsGreatest (s.versions n sk) v := by
  have hle : ∀ v ∈ s.versions n sk, (v : WithBot ℚ) ≤ storedVersion E s.store n sk := by
    rintro v ⟨call, hmem, hn, hsk, rfl⟩
    exact hreturned call hmem hn hsk
  rcases h.attained n sk with hbot | ⟨call, hmem, hn, hsk, heq⟩
  · left
    refine ⟨Set.eq_empty_of_forall_notMem fun v hv => ?_, hbot⟩
    have hv' := hle v hv
    rw [hbot] at hv'
    exact absurd hv' (not_le.mpr (WithBot.bot_lt_coe v))
  · right
    refine ⟨call.version.val, heq, ⟨call, hmem, hn, hsk, rfl⟩, fun v hv => ?_⟩
    have hv' := hle v hv
    rw [heq] at hv'
    exact WithBot.coe_le_coe.mp hv'

/-- **Tombstones are monotone and precede deletion**, in every state of a run of the two calls,
whatever the order of their client calls and wherever the process stops. -/
theorem tombstones_monotone (hE : E.KeepsTombstones) (str : PyVal → String) {as : List Running.Action}
    (hrun : run (Running.step E hash) .init as = some s) : s.Safe E hash str := by
  have h := tidy_run hE tidy_init hrun
  have hreturned : ∀ call ∈ s.calls, ∀ deleted, call.phase = .done deleted →
      (call.version.val : WithBot ℚ) ≤ storedVersion E s.store call.nodeId call.streamKey := by
    intro call hmem deleted hphase
    apply h.covered call hmem
    unfold Call.recorded
    rw [hphase]
  exact {
    monotone := fun as s' hrun' => storedVersion_run hE h hrun'
    returned := hreturned
    greatest := fun n sk hdone => h.greatest fun call hmem hn hsk => by
      obtain ⟨deleted, hphase⟩ := hdone call hmem hn hsk
      have hstored := hreturned call hmem deleted hphase
      rwa [hn, hsk] at hstored
    precedes := fun a s' hstep space streamId hbefore hafter => h.removed hstep hbefore hafter
    finishes := h.exists_finish hE
    loads := loadTombstones_eq hE str h.kept }

namespace Deletion

/-- A version. -/
def five : Binary64 := .ofInt 5 Binary64.abs_five_lt

/-- What `_tombstone_envelope` writes for it. -/
def text : Bytes :=
  "\x7b\"schema\":1,\"stream_key\":\"stream-a\",\"version\":5.0\x7d".toUTF8.data.toList

theorem countable_tombstones : Countable (String × Binary64) := by
  have hchar : Countable Char := Function.Injective.countable (f := Char.toNat) fun a b h =>
    Char.toNat_inj.mp h
  have hstring : Countable String := Function.Injective.countable (f := String.toList) fun a b h =>
    String.toList_inj.mp h
  have hfloat : Countable Binary64 := Function.Injective.countable (f := Binary64.val) fun a b h =>
    Binary64.ext h
  infer_instance

/-- A number for every tombstone. -/
noncomputable def number : String × Binary64 → ℕ :=
  (@exists_injective_nat (String × Binary64) countable_tombstones).choose

/-- The text of the tombstone of this run, and a text of its own for any other. -/
noncomputable def code (p : String × Binary64) : Bytes :=
  open Classical in if p = ("stream-a", five) then text else List.replicate (number p) 0

theorem text_ne_replicate (m : ℕ) : text ≠ List.replicate m 0 := by
  intro h
  have hhead : text.head? = some 123 := by decide +kernel
  rw [h] at hhead
  cases m with
  | zero => cases hhead
  | succ m => cases hhead

theorem code_injective : Function.Injective code := by
  intro p q h
  unfold code at h
  split at h
  · next hp =>
    split at h
    · next hq => exact hp.trans hq.symm
    · exact absurd h (text_ne_replicate _)
  · split at h
    · exact absurd h.symm (text_ne_replicate _)
    · have hlength := congrArg List.length h
      rw [List.length_replicate, List.length_replicate] at hlength
      exact (@exists_injective_nat (String × Binary64) countable_tombstones).choose_spec hlength

/-- JSON, of tombstones. -/
noncomputable def encodings : Encodings where
  dumps
    | .dict [(.str "schema", .int 1), (.str "stream_key", .str sk),
        (.str "version", .float (.fin v))] => code (sk, v)
    | _ => []
  loads value := open Classical in
    if h : ∃ p, code p = value then .ok (.dict (tombstoneDict h.choose.1 h.choose.2))
      else .error (.valueError "")
  compress := id
  decompress _ _ := .error (.valueError "")
  b64encode _ := ""
  b64decode _ := .error (.valueError "")
  parseFloat _ := .error (.valueError "")

theorem keepsTombstones : encodings.KeepsTombstones := by
  intro sk v
  have hcode : tombstoneEnvelope encodings sk v = code (sk, v) := rfl
  have hexists : ∃ p, code p = code (sk, v) := ⟨_, rfl⟩
  have hchoose : hexists.choose = (sk, v) := code_injective hexists.choose_spec
  rw [hcode]
  refine (dif_pos hexists).trans ?_
  rw [hchoose]

/-- A state is put, and then deleted with its tombstone. -/
def actions : List Running.Action :=
  .putState "default" "a" [] :: .start (.deleteWithTombstone "default" "a") "node-a" "stream-a" five
    :: List.replicate 7 (.advance 0)

end Deletion

/-- The deletion of a stream. -/
theorem tombstones_monotone_deletion :
    ∃ s, run (Running.step Deletion.encodings fun _ _ => 0) .init Deletion.actions = some s
      ∧ s.calls.map Call.phase = [.done (some true)] ∧ s.Safe Deletion.encodings (fun _ _ => 0)
        fun _ => "" := by
  have hphases : (run (Running.step Deletion.encodings fun _ _ => 0) .init Deletion.actions).map
    (fun s => s.calls.map Call.phase)
      = some [.done (some true)] := rfl
  obtain ⟨s, hrun, hphase⟩ := Option.map_eq_some_iff.mp hphases
  exact ⟨s, hrun, hphase, tombstones_monotone Deletion.keepsTombstones _ hrun⟩

end Sketchlog.Storage
