import Sketchlog.Refine.CppReachable

/-!
# Failed operations are atomic

A call that raises leaves every component of its receiver as it was. For ingestion and `merge` this is
half of guarded addition: the other outcome of a guarded statement is an exception with the state
untouched, whichever of the checks raised it and however late. The C++ `set_state` functions make all
their checks before their first write.
-/

namespace Sketchlog

open Imperative

/-- **Failed operations are atomic**, in both backends and in the three `set_state` functions. -/
theorem failed_operation_atomic (M : IndexMapping) :
    (∀ log, StreamLog.Reachable M log →
      (∀ op e t, (StreamLog.ingest M op).run log = .error e t → t = log)
        ∧ ∀ other, StreamLog.Reachable M other →
          ∀ e t, (StreamLog.merge other).run log = .error e t → t = log)
      ∧ (∀ log, Cpp.StreamLog.Reachable M log →
        (∀ op e t, (Cpp.StreamLog.ingest M op).run log = .error e t → t = log)
          ∧ ∀ other, Cpp.StreamLog.Reachable M other →
            ∀ e t, (Cpp.StreamLog.merge other).run log = .error e t → t = log)
      ∧ (∀ s sk e t, (Cpp.DDSketch.setState s).run sk = .error e t → t = sk)
      ∧ (∀ s sk e t, (Cpp.HyperLogLog.setState s).run sk = .error e t → t = sk)
      ∧ ∀ s sk e t, (Cpp.CountMinSketch.setState s).run sk = .error e t → t = sk := by
  -- both backends hold contents that fit, and from there the laws of `Backend` decide
  have hpython : ∀ log, StreamLog.Reachable M log → (StreamLog.backend M).Holds log := by
    intro log h
    obtain ⟨S, c, -, hrep, hf⟩ := h.holds
    exact ⟨S, c, hrep, hf⟩
  have hcpp : ∀ log, Cpp.StreamLog.Reachable M log → (Cpp.StreamLog.backend M).Holds log :=
    fun log h => h.holds
  refine ⟨fun log h => ⟨?_, ?_⟩, fun log h => ⟨?_, ?_⟩, Cpp.DDSketch.setState_atomic,
    Cpp.HyperLogLog.setState_atomic, Cpp.CountMinSketch.setState_atomic⟩
  · intro op e t herr
    exact Backend.error_state (hpython log h) op herr
  · intro other h' e t herr
    exact Backend.merge_error_state (hpython log h) (hpython other h') herr
  · intro op e t herr
    exact Backend.error_state (hcpp log h) op herr
  · intro other h' e t herr
    exact Backend.merge_error_state (hcpp log h) (hcpp other h') herr

/-! ## Failures behind the first checks

The log counts values of both signs, a zero, an item and five events. A batch is refused at its last
value, after the others have been accumulated; an event passes the checks of the log and is refused by
its sketch. -/

/-- Accuracy `1/4`, two rows of two cells. -/
def quarterConfig : Config :=
  ⟨.fin ⟨1 / 4, 1, -2, by norm_num, by norm_num, by norm_num, by norm_num⟩, 4, 2, 2, false⟩

/-- The log after three calls. -/
def filledLog : StreamLog :=
  [.batch [.fin (.ofInt 4 Binary64.abs_four_lt), .fin (.ofInt 0 Binary64.abs_zero_lt),
      .fin (.ofInt (-2) Binary64.abs_neg_two_lt)], .unique (.key (.str "ann")), .event (.int 7) 5].foldl
    (fun log op => after (StreamLog.ingest .binary op) log)
    ⟨.empty (1 / 4), .empty 2 2, .empty 4, 0, false⟩

/-- The representative of 3 is 4, farther off than a quarter. -/
def lateBatch : Ingest UniqueItem :=
  .batch [.fin (.ofInt (-8) (by decide)), .fin (.ofInt 1 Binary64.abs_one_lt),
    .fin (.ofInt 3 Binary64.abs_three_lt)]

theorem reachable_filledLog : StreamLog.Reachable .binary filledLog := by
  have hnew : StreamLog.new quarterConfig = .ok ⟨.empty (1 / 4), .empty 2 2, .empty 4, 0, false⟩ := by
    decide +kernel
  exact .ingest _ (.ingest _ (.ingest _ (.new _ hnew)))

/-- The exception of a call. -/
def raised {σ α : Type} : EStateM.Result PyError σ α → Option PyError
  | .ok _ _ => none
  | .error e _ => some e

theorem exists_of_raised {σ α : Type} {r : EStateM.Result PyError σ α} {e : PyError}
    (h : raised r = some e) : ∃ t, r = .error e t := by
  cases r with
  | ok _ _ => simp [raised] at h
  | error e' t => exact ⟨t, by rw [Option.some.inj h]⟩

theorem failed_operation_atomic_filled : StreamLog.Reachable .binary filledLog
    ∧ filledLog.total = 8 ∧ filledLog.latency.count = 3 ∧ filledLog.events.total = 5
    ∧ (StreamLog.ingest .binary lateBatch).run filledLog = .error (.valueError
        "Value magnitude too small to satisfy relative accuracy") filledLog
    ∧ (StreamLog.ingest .binary (.event (.int 7) maxInt64)).run filledLog = .error (.overflowError
        "CountMinSketch: total_count overflow") filledLog := by
  have hbatch : raised ((StreamLog.ingest .binary lateBatch).run filledLog) = some (.valueError
      "Value magnitude too small to satisfy relative accuracy") := by decide +kernel
  have hevent : raised ((StreamLog.ingest .binary (.event (.int 7) maxInt64)).run filledLog)
      = some (.overflowError "CountMinSketch: total_count overflow") := by decide +kernel
  obtain ⟨t, ht⟩ := exists_of_raised hbatch
  obtain ⟨u, hu⟩ := exists_of_raised hevent
  have hatomic := ((failed_operation_atomic .binary).1 _ reachable_filledLog).1
  refine ⟨reachable_filledLog, by decide +kernel, by decide +kernel, by decide +kernel, ?_, ?_⟩
  · rw [ht, hatomic _ _ _ ht]
  · rw [hu, hatomic _ _ _ hu]

end Sketchlog
