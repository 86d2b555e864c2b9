import Sketchlog.Lib.Guarded
import Sketchlog.Lib.Runs
import Sketchlog.Python.Document

/-!
# `concurrent.py`: a log behind a lock

`ThreadSafeStreamLog` applies an update and stamps it with `time.time()` while it holds its lock.
Whoever reads the log (`get_snapshot`, `to_dict`) takes the lock, whoever reads `last_updated` does
not, so a stamp can be read while an update has been applied and is not stamped yet. `Timeline` is
the log with these two halves of an update apart, and with the record of its past that statements
about freshness need: the states the log has gone through, and which call was stamped when.
-/

namespace Sketchlog

open Imperative

/-- A type of logs, by its documents. -/
structure LogCodec where
  Log : Type
  toDict : Log → PyVal
  fromDict : PyVal → Except PyError Log

/-- Logs of the Python backend, which is the one a node of a mesh uses. -/
def LogCodec.python (M : IndexMapping) : LogCodec := ⟨StreamLog, StreamLog.toDict, StreamLog.fromDict M⟩

/-- `ThreadSafeStreamLog`: the log and its stamp. -/
structure ThreadSafeStreamLog (Log : Type) where
  log : Log
  lastUpdated : Binary64

variable {Log : Type}

/-- An updating call at the clock reading `now`, as a whole. A call that raises is not stamped. -/
def ThreadSafeStreamLog.update (self : ThreadSafeStreamLog Log) (call : EStateM PyError Log Unit)
    (now : Binary64) : ThreadSafeStreamLog Log :=
  match call.run self.log with
  | .ok () log => ⟨log, now⟩
  | .error _ log => ⟨log, self.lastUpdated⟩

/-- A log that other threads look at, and its past. `states[k]` is the log after `k` calls; `stamps` has
the number of each call that was stamped, with its stamp. -/
structure Timeline (Log : Type) extends ThreadSafeStreamLog Log where
  clock : ℚ
  /-- The lock is held: a call was applied and is not stamped. -/
  locked : Bool
  states : List Log
  stamps : List (ℕ × ℚ)

namespace Timeline

/-- A log that nobody has called yet. -/
def start (log : ThreadSafeStreamLog Log) : Timeline Log :=
  ⟨log, log.lastUpdated.val, false, [log.log], []⟩

/-- An updating call is applied. When it raises, the lock is released and there is no stamp. -/
def apply (self : Timeline Log) (call : EStateM PyError Log Unit) : Option (Timeline Log) :=
  if self.locked then none
  else
    match call.run self.log with
    | .ok () log => some { self with log := log, locked := true, states := self.states ++ [log] }
    | .error _ log => some { self with log := log, states := self.states ++ [log] }

/-- The call that was applied is stamped; the clock strictly increases. -/
def stamp (self : Timeline Log) (now : Binary64) : Option (Timeline Log) :=
  if self.locked ∧ self.clock < now.val then
    some { self with
      lastUpdated := now
      clock := now.val
      locked := false
      stamps := self.stamps ++ [(self.states.length - 1, now.val)] }
  else none

/-- What was read of the log under the version `v` has every call that was stamped at or before `v`:
it is the state after `i` calls, those among them. -/
def Contains (self : Timeline Log) (i : ℕ) (v : ℚ) : Prop := ∀ kt ∈ self.stamps, kt.2 ≤ v → kt.1 ≤ i

/-- The past is in order: the current state is the last one, and no stamp is ahead of it or of the
clock. -/
structure Consistent (t : Timeline Log) : Prop where
  current : t.states.getLast? = some t.log
  stamped : t.lastUpdated.val ≤ t.clock
  stamps_le : ∀ kt ∈ t.stamps, kt.1 < t.states.length ∧ kt.2 ≤ t.lastUpdated.val

variable {self next : Timeline Log} {call : EStateM PyError Log Unit} {now : Binary64} {v : ℚ} {i : ℕ}

theorem consistent_start (log : ThreadSafeStreamLog Log) : (start log).Consistent where
  current := rfl
  stamped := le_rfl
  stamps_le := fun _ h => absurd h List.not_mem_nil

/-- What applying a call can do. -/
theorem apply_eq_some (h : self.apply call = some next) :
    self.locked = false ∧ ∃ log, next.log = log ∧ next.states = self.states ++ [log]
      ∧ next.stamps = self.stamps ∧ next.lastUpdated = self.lastUpdated ∧ next.clock = self.clock := by
  unfold apply at h
  by_cases hlocked : self.locked = true
  · rw [if_pos hlocked] at h
    cases h
  · rw [if_neg hlocked] at h
    refine ⟨Bool.not_eq_true _ ▸ hlocked, ?_⟩
    cases hrun : call.run self.log with
    | ok u log =>
      rw [hrun] at h
      cases h
      exact ⟨log, rfl, rfl, rfl, rfl, rfl⟩
    | error e log =>
      rw [hrun] at h
      cases h
      exact ⟨log, rfl, rfl, rfl, rfl, rfl⟩

/-- What a stamp does. -/
theorem stamp_eq_some (h : self.stamp now = some next) :
    self.locked = true ∧ self.clock < now.val ∧ next.log = self.log ∧ next.states = self.states
      ∧ next.stamps = self.stamps ++ [(self.states.length - 1, now.val)] ∧ next.lastUpdated = now
      ∧ next.clock = now.val ∧ next.locked = false := by
  obtain ⟨⟨hlocked, hclock⟩, hnext⟩ := Option.ite_none_right_eq_some.mp h
  cases hnext
  exact ⟨hlocked, hclock, rfl, rfl, rfl, rfl, rfl, rfl⟩

theorem Consistent.apply (hself : self.Consistent) (h : self.apply call = some next) :
    next.Consistent := by
  obtain ⟨-, log, hlog, hstates, hstamps, hlast, hclock⟩ := apply_eq_some h
  refine ⟨?_, ?_, ?_⟩
  · rw [hstates, hlog, List.getLast?_concat]
  · rw [hlast, hclock]
    exact hself.stamped
  · intro kt hkt
    rw [hstamps] at hkt
    rw [hstates, hlast, List.length_append]
    exact ⟨Nat.lt_add_right 1 (hself.stamps_le kt hkt).1, (hself.stamps_le kt hkt).2⟩

theorem Consistent.stamp (hself : self.Consistent) (h : self.stamp now = some next) :
    next.Consistent := by
  obtain ⟨-, hnow, hlog, hstates, hstamps, hlast, hclock, -⟩ := stamp_eq_some h
  have hpos : 0 < self.states.length := by
    refine List.length_pos_iff.mpr fun hnil => ?_
    have hcurrent := hself.current
    rw [hnil] at hcurrent
    cases hcurrent
  refine ⟨?_, ?_, ?_⟩
  · rw [hstates, hlog]
    exact hself.current
  · rw [hlast, hclock]
  · intro kt hkt
    rw [hstates, hlast]
    rw [hstamps] at hkt
    rcases List.mem_append.mp hkt with hkt | hkt
    · exact ⟨(hself.stamps_le kt hkt).1,
        (hself.stamps_le kt hkt).2.trans (hself.stamped.trans hnow.le)⟩
    · rw [List.mem_singleton.mp hkt]
      exact ⟨Nat.sub_lt hpos Nat.one_pos, le_rfl⟩

/-- **What was fresh stays fresh.** A later stamp is above every version that was read before. -/
theorem Contains.apply (hi : self.Contains i v) (h : self.apply call = some next) :
    next.Contains i v := by
  obtain ⟨-, log, -, -, hstamps, -, -⟩ := apply_eq_some h
  unfold Contains
  rw [hstamps]
  exact hi

theorem Contains.stamp (hi : self.Contains i v) (hv : v ≤ self.clock) (h : self.stamp now = some next) :
    next.Contains i v := by
  obtain ⟨-, hnow, -, -, hstamps, -, -, -⟩ := stamp_eq_some h
  intro kt hkt hle
  rw [hstamps] at hkt
  rcases List.mem_append.mp hkt with hkt | hkt
  · exact hi kt hkt hle
  · rw [List.mem_singleton.mp hkt] at hle
    exact absurd (lt_of_lt_of_le hnow hle) (not_lt.mpr hv)

/-- The current state has every call that was stamped. -/
theorem Consistent.contains_current (h : self.Consistent) (v : ℚ) :
    self.Contains (self.states.length - 1) v :=
  fun kt hkt _ => Nat.le_sub_one_of_lt (h.stamps_le kt hkt).1

theorem Consistent.get_current (h : self.Consistent) :
    self.states[self.states.length - 1]? = some self.log := by
  rw [← List.getLast?_eq_getElem?]
  exact h.current

end Timeline

end Sketchlog
