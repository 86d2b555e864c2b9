import Sketchlog.Python.Facade

/-!
# What `from_dict` may raise

Everything that the validator raises is raised again as a `ValueError`, and the C++ restore behind
it checks and casts: a check raises a `ValueError`, a cast that fails a `RuntimeError`, a
constructor that is called with the wrong types a `TypeError`. No arithmetic of the restore
overflows.
-/

namespace Sketchlog

open Checked

/-- `KeyError`, `TypeError`, `ValueError` or `RuntimeError`. -/
def PyError.Refused : PyError → Prop
  | .keyError _ | .typeError _ | .valueError _ | .runtimeError _ => True
  | .overflowError _ | .zeroDivisionError _ => False

/-! ## The C++ log

Every error of the native reader is a `KeyError`, `TypeError`, `ValueError` or `RuntimeError`, and
the request handler catches all four. -/

namespace Cpp

open Imperative

theorem raises_castInt (lo hi n : ℤ) : Raises PyError.Refused (castInt lo hi n) :=
  (Raises.failIf trivial).bind fun _ _ => .of_ok n

theorem raises_castDouble (x : ERat) : Raises PyError.Refused (castDouble x) := by
  unfold castDouble
  split
  · exact .of_ok _
  · exact .of_ok _
  · split
    · exact .of_ok _
    · split
      · exact .of_ok _
      · exact .of_error trivial

theorem raises_latencyState (l : Sketchlog.DDSketch) : Raises PyError.Refused (latencyState l) := by
  have hentries : ∀ store : Bins, Raises PyError.Refused (castEntries store) := fun store =>
    .mapM (fun kv => (raises_castInt _ _ _).bind fun _ _ => (raises_castInt _ _ _).bind fun _ _ =>
      .of_ok _) _
  have hextremum : ∀ (n : ℤ) (x : ERat), Raises PyError.Refused (castExtremum n x) := by
    intro n x
    unfold castExtremum
    split
    · exact raises_castDouble x
    · exact .of_ok _
  refine (raises_castDouble _).bind fun _ _ => (raises_castInt _ _ _).bind fun _ _ =>
    (raises_castInt _ _ _).bind fun _ _ => ?_
  refine (hextremum _ _).bind fun _ _ => (hextremum _ _).bind fun _ _ => ?_
  exact (hentries _).bind fun _ _ => (hentries _).bind fun _ _ => .of_ok _

theorem raises_uniquesState (u : Sketchlog.HyperLogLog) : Raises PyError.Refused (uniquesState u) := by
  refine (raises_castInt _ _ _).bind fun _ _ => (Raises.failIf trivial).bind fun _ _ => ?_
  refine (Raises.mapM (fun r => ?_) _).bind fun _ _ => .of_ok _
  exact (raises_castInt _ _ _).bind fun _ _ => (Raises.failIf trivial).bind fun _ _ => .of_ok _

theorem raises_eventsState (e : Sketchlog.CountMinSketch) : Raises PyError.Refused (eventsState e) := by
  refine (raises_castInt _ _ _).bind fun _ _ => (raises_castInt _ _ _).bind fun _ _ => ?_
  refine (raises_castInt _ _ _).bind fun _ _ => (Raises.failIf trivial).bind fun _ _ => ?_
  refine (Raises.mapM (fun row => ?_) _).bind fun _ _ => .of_ok _
  exact (Raises.failIf trivial).bind fun _ _ => .mapM (fun _ => raises_castInt _ _ _) _

theorem raises_checkState (self : DDSketch) (s : DDSketch.State) :
    Raises PyError.Refused (self.checkState s) := by
  have hstore : ∀ indices bins minIdx maxIdx empty,
      Raises PyError.Refused (DDSketch.validateStore indices bins minIdx maxIdx empty) := by
    intro indices bins minIdx maxIdx empty
    unfold DDSketch.validateStore
    split
    · exact (Raises.failIf trivial).bind fun _ _ => .of_ok _
    · refine (Raises.failIf trivial).bind fun _ _ => (Raises.failIf trivial).bind fun _ _ => ?_
      refine (Raises.failIf trivial).bind fun _ _ =>
        (Raises.foldlM (fun acc bin => ?_) _ _).bind fun _ _ => .of_ok _
      refine (Raises.failIf trivial).bind fun _ _ => (Raises.failIf trivial).bind fun _ _ => ?_
      exact (Raises.failIf trivial).bind fun _ _ => .of_ok _
  unfold DDSketch.checkState
  refine (Raises.failIf trivial).bind fun _ _ => (Raises.failIf trivial).bind fun _ _ => ?_
  refine (hstore _ _ _ _ _).bind fun _ _ => (hstore _ _ _ _ _).bind fun _ _ => ?_
  refine (Raises.failIf trivial).bind fun _ _ => (Raises.failIf trivial).bind fun _ _ => ?_
  split
  · exact (Raises.failIf trivial).bind fun _ _ => (Raises.failIf trivial).bind fun _ _ => .of_ok _
  · exact .of_error trivial

/-- A state is checked, and then written. -/
theorem raises_exec {σ α : Type} {check : σ → Except PyError α} {write : α → EStateM PyError σ Unit}
    {s : σ}
    (hcheck : Raises PyError.Refused (check s)) (hwrite : ∀ a t, ∃ u, (write a).run t = .ok () u) :
    Raises PyError.Refused (exec (get >>= fun self => liftExcept (check self) >>= write) s) := by
  intro e he
  simp only [exec, EStateM.run_bind, EStateM.run_get] at he
  cases hcase : check s with
  | error e' =>
    simp only [hcase, run_liftExcept_error] at he
    cases he
    exact hcheck e hcase
  | ok a =>
    obtain ⟨u, hu⟩ := hwrite a s
    simp only [hcase, run_liftExcept_ok, hu] at he
    cases he

theorem raises_latency_setState (s : DDSketch.State) (sk : DDSketch) :
    Raises PyError.Refused (exec (DDSketch.setState s) sk) :=
  raises_exec (raises_checkState sk s) fun _ _ => ⟨_, rfl⟩

theorem raises_events_setState (s : CountMinSketch.State) (sk : CountMinSketch) :
    Raises PyError.Refused (exec (CountMinSketch.setState s) sk) := by
  have hcheck : Raises PyError.Refused (sk.checkState s) := by
    refine (Raises.failIf trivial).bind fun _ _ => (Raises.failIf trivial).bind fun _ _ => ?_
    refine (Raises.failIf trivial).bind fun _ _ => .forM (fun row => ?_) _
    refine (Raises.foldlM (fun total cell => ?_) _ _).bind fun _ _ => .failIf trivial
    exact (Raises.failIf trivial).bind fun _ _ => (Raises.failIf trivial).bind fun _ _ => .of_ok _
  exact raises_exec hcheck fun _ _ => ⟨_, rfl⟩

theorem raises_uniques_setState (s : HyperLogLog.State) (sk : HyperLogLog) :
    Raises PyError.Refused (exec (HyperLogLog.setState s) sk) := by
  intro e he
  simp only [exec, HyperLogLog.setState, EStateM.run_bind, EStateM.run_get, run_raiseIf] at he
  by_cases hprecision : s.precision ≠ sk.p
  · simp only [if_pos hprecision] at he
    cases he
    trivial
  simp only [if_neg hprecision] at he
  by_cases hlength : s.registers.length ≠ sk.registers.length
  · simp only [if_pos hlength] at he
    cases he
    trivial
  simp only [if_neg hlength] at he
  by_cases hvalues : ∃ val ∈ s.registers, val > (64 - sk.p + 1) % 2 ^ 8
  · simp only [if_pos hvalues] at he
    cases he
    trivial
  simp only [if_neg hvalues] at he
  cases he

theorem raises_new (accuracy : PyFloat) (precision width depth : ℤ) :
    Raises PyError.Refused (StreamLog.new accuracy precision width depth) := by
  have hlatency : Raises PyError.Refused (DDSketch.new accuracy) := by
    unfold DDSketch.new
    split
    · split
      · exact .of_error trivial
      · exact .of_ok _
    · exact .of_error trivial
  have hevents : Raises PyError.Refused (CountMinSketch.new width depth) :=
    (Raises.failIf trivial).bind fun _ _ => (Raises.failIf trivial).bind fun _ _ =>
      (Raises.failIf trivial).bind fun _ _ => .of_ok _
  have huniques : Raises PyError.Refused (HyperLogLog.new precision) :=
    (Raises.failIf trivial).bind fun _ _ => (Raises.failIf trivial).bind fun _ _ => .of_ok _
  exact hlatency.bind fun _ _ => hevents.bind fun _ _ => huniques.bind fun _ _ => .of_ok _

theorem raises_restore (validated : Sketchlog.StreamLog) :
    Raises PyError.Refused (StreamLog.restore validated) := by
  refine (Raises.failIf trivial).bind fun _ _ => (raises_castInt _ _ _).bind fun _ _ => ?_
  refine (raises_castInt _ _ _).bind fun _ _ => (Raises.failIf trivial).bind fun _ _ => ?_
  refine (raises_castDouble _).bind fun _ _ => (raises_castInt _ _ _).bind fun _ _ =>
    (raises_new _ _ _ _).bind fun _ _ => ?_
  refine (raises_latencyState _).bind fun _ _ => (raises_latency_setState _ _).bind fun _ _ => ?_
  refine (raises_uniquesState _).bind fun _ _ => (raises_uniques_setState _ _).bind fun _ _ => ?_
  refine (raises_eventsState _).bind fun _ _ => (raises_events_setState _ _).bind fun _ _ => ?_
  exact (raises_castInt _ _ _).bind fun _ _ => (Raises.failIf trivial).bind fun _ _ => .of_ok _

end Cpp

/-! ## The Python log and the facade

The same for the other backend, and for the class over both. -/

theorem StreamLog.raises_new (cfg : Config) : Raises PyError.Refused (new cfg) := by
  have hlatency : Raises PyError.Refused (DDSketch.new cfg.relativeAccuracy) := by
    unfold DDSketch.new
    split
    · split
      · exact .of_error trivial
      · exact .of_ok _
    · exact .of_error trivial
  have hevents : Raises PyError.Refused (CountMinSketch.new cfg.cmsWidth cfg.cmsDepth) :=
    (Raises.failIf trivial).bind fun _ _ => (Raises.failIf trivial).bind fun _ _ => .of_ok _
  have huniques : Raises PyError.Refused (HyperLogLog.new cfg.hllPrecision) :=
    (Raises.failIf trivial).bind fun _ _ => .of_ok _
  refine (Raises.failIf trivial).bind fun _ _ => (Raises.failIf trivial).bind fun _ _ => ?_
  exact hlatency.bind fun _ _ => hevents.bind fun _ _ => huniques.bind fun _ _ => .of_ok _

/-- `from_dict` of the Python log raises nothing but `ValueError`. -/
theorem StreamLog.raises_fromDict (M : IndexMapping) (data : PyVal) :
    Raises PyError.Refused (fromDict M data) := by
  unfold fromDict
  split
  · split
    · exact .of_ok _
    · exact .of_error trivial
  · exact .of_error trivial

namespace Facade.StreamLog

theorem raises_new (cppAvailable : Bool) (cfg : Config) :
    Raises PyError.Refused (new cppAvailable cfg) := by
  refine Raises.map ?_
  unfold Backend.new
  split
  · exact (Cpp.raises_new _ _ _ _).map
  · exact (Sketchlog.StreamLog.raises_new cfg).map

/-- **Whatever `from_dict` raises is caught.** -/
theorem raises_fromDict (M : IndexMapping) (cppAvailable : Bool) (data : PyVal) :
    Raises PyError.Refused (fromDict M cppAvailable data) := by
  refine (Sketchlog.StreamLog.raises_fromDict M data).bind fun validated _ => ?_
  have hrestore : Raises PyError.Refused (Backend.restore cppAvailable validated) := by
    unfold Backend.restore
    split
    · exact (Cpp.raises_restore validated).map
    · exact .of_ok _
  exact hrestore.bind fun _ _ => (raises_new cppAvailable _).bind fun _ _ => .of_ok _

end Facade.StreamLog

end Sketchlog
