import Mathlib.Tactic.FinCases
import Sketchlog.Ebpf.Collector
import Sketchlog.Lib.Runs

/-!
# What the poll loop brings over

The loop reads the counters of a bucket, adds that many samples to the log and writes zero to the
counters. The kernel counts on in the meantime, and an increment between the read and the write of
zero is in neither place afterwards. When there is none, and no counter wraps around, the samples
added and the counts in the kernel are the increments, but for the bucket that is on its way
(`polled_counts_conserved`).
-/

namespace Sketchlog.Ebpf.Collector

open Runs

variable {n cpus : ℕ}

/-- Samples of the bucket were added, and its counters are not zeroed yet. -/
def OnItsWay (s : Collector n cpus) (b : Fin n) : Prop :=
  match s.poll with
  | .adding i _ done => i = b ∧ 0 < done
  | .ended i _ done => i = b ∧ 0 < done
  | _ => False

instance (s : Collector n cpus) (b : Fin n) : Decidable (s.OnItsWay b) := by
  unfold OnItsWay
  split <;> infer_instance

/-- The samples in the log and the counts in the kernel are the increments, apart from the bucket on
its way. -/
def Conserved (s : Collector n cpus) : Prop :=
  ∑ b with ¬ s.OnItsWay b, (s.added b + s.totalCount b) = ∑ b with ¬ s.OnItsWay b, s.increments b

/-- What is asked of an increment: its bucket is not between its read and the write of zero, and its
counter does not wrap around. -/
def Undisturbed (boundaries : Boundaries n) (s : Collector n cpus) : Action cpus → Prop
  | .record cpu latencyNs =>
    (∀ total done, s.poll ≠ .adding (bucketOf boundaries latencyNs) total done)
      ∧ (s.counts (bucketOf boundaries latencyNs) cpu).toNat + 1 < 2 ^ 64
  | _ => True

/-- What a bucket owes to the log: the samples that are there already. -/
def doneOf (s : Collector n cpus) (b : Fin n) : ℕ :=
  match s.poll with
  | .adding i _ done => if i = b then done else 0
  | .ended i _ done => if i = b then done else 0
  | _ => 0

/-- Each bucket is in balance, and the loop has read the counts that are there. -/
structure Balanced (s : Collector n cpus) : Prop where
  bucket : ∀ b, s.added b + s.totalCount b = s.increments b + s.doneOf b
  read : ∀ i total done, s.poll = .adding i total done → s.totalCount i = total ∧ done ≤ total

variable {boundaries : Boundaries n} {s s' : Collector n cpus}

/-! ## The sums

What was recorded is what the kernel counts, what the poller holds, and what it has added. -/

theorem Balanced.conserved (h : s.Balanced) : s.Conserved := by
  unfold Conserved
  refine Finset.sum_congr rfl fun b hb => ?_
  -- a bucket that is not on its way has nothing taken and not yet added
  have hnone : s.doneOf b = 0 := by
    have hnot := (Finset.mem_filter.mp hb).2
    unfold OnItsWay at hnot
    unfold doneOf
    cases hpoll : s.poll with
    | waiting => rfl
    | reading i => rfl
    | adding i total done =>
      rw [hpoll] at hnot
      dsimp only at hnot ⊢
      split
      · next hi => exact Nat.eq_zero_of_not_pos fun hpos => hnot ⟨hi, hpos⟩
      · rfl
    | ended i total done =>
      rw [hpoll] at hnot
      dsimp only at hnot ⊢
      split
      · next hi => exact Nat.eq_zero_of_not_pos fun hpos => hnot ⟨hi, hpos⟩
      · rfl
  have hbucket := h.bucket b
  rw [hnone] at hbucket
  exact hbucket

theorem totalCount_increment (i : Fin n) (cpu : Fin cpus)
    (hroom : (s.counts i cpu).toNat + 1 < 2 ^ 64) (b : Fin n) :
    (s.increment i cpu).totalCount b = if b = i then s.totalCount b + 1 else s.totalCount b := by
  unfold totalCount increment
  dsimp only
  by_cases hb : b = i
  · subst hb
    rw [if_pos rfl, Function.update_self]
    have hone : (s.counts b cpu + 1).toNat = (s.counts b cpu).toNat + 1 := by
      rw [UInt64.toNat_add]
      exact Nat.mod_eq_of_lt hroom
    rw [← Finset.add_sum_erase _ _ (Finset.mem_univ cpu), ← Finset.add_sum_erase (a := cpu) _ _
      (Finset.mem_univ cpu),
      Function.update_self, hone]
    have hrest : ∑ c ∈ Finset.univ.erase cpu,
      (Function.update (s.counts b) cpu (s.counts b cpu + 1) c).toNat
        = ∑ c ∈ Finset.univ.erase cpu, (s.counts b c).toNat :=
      Finset.sum_congr rfl fun c hc => by rw [Function.update_of_ne (Finset.ne_of_mem_erase hc)]
    omega
  · rw [if_neg hb, Function.update_of_ne hb]

/-! ## One step

Each step of the poller moves a count from one place to the next. An increment between reading and
zeroing a counter is what gets lost. -/

/-- **An increment** that does not disturb the loop. -/
theorem Balanced.increment (h : s.Balanced) (i : Fin n) (cpu : Fin cpus)
    (hfree : ∀ total done, s.poll ≠ .adding i total done)
    (hroom : (s.counts i cpu).toNat + 1 < 2 ^ 64) :
    (s.increment i cpu).Balanced where
  bucket := by
    intro b
    have hbucket := h.bucket b
    have hdone : (s.increment i cpu).doneOf b = s.doneOf b := rfl
    have hadded : (s.increment i cpu).added b = s.added b := rfl
    rw [totalCount_increment i cpu hroom, hdone, hadded]
    show _ = Function.update s.increments i (s.increments i + 1) b + _
    by_cases hb : b = i
    · subst hb
      rw [if_pos rfl, Function.update_self]
      omega
    · rw [if_neg hb, Function.update_of_ne hb]
      exact hbucket
  read := by
    intro j total done hpoll
    have hj : j ≠ i := fun hj => hfree total done (hj ▸ hpoll)
    rw [totalCount_increment i cpu hroom, if_neg hj]
    exact h.read j total done hpoll

/-- Where the loop goes next, nothing is on its way. -/
theorem doneOf_next {i : Fin n} (hpoll : s.poll = next i) (b : Fin n) : s.doneOf b = 0 := by
  unfold doneOf
  rw [hpoll]
  unfold next
  by_cases hi : i.val + 1 < n
  · rw [dif_pos hi]
  · rw [dif_neg hi]

theorem next_ne_adding (i j : Fin n) (total done : ℕ) : next i ≠ .adding j total done := by
  unfold next
  split <;> exact fun h => nomatch h

/-- **The loop** keeps every bucket in balance. -/
theorem Balanced.pollStep (h : s.Balanced) (hstep : s.pollStep = some s') : s'.Balanced := by
  unfold Collector.pollStep at hstep
  cases hpoll : s.poll with
  | waiting =>
    have hdone : ∀ b, s.doneOf b = 0 := fun b => by rw [doneOf, hpoll]
    rw [hpoll] at hstep
    dsimp only at hstep
    split at hstep
    · cases hstep
      refine ⟨fun b => ?_, fun i total done heq => nomatch heq⟩
      have hbucket := h.bucket b
      rw [hdone] at hbucket
      exact hbucket
    · cases hstep
      exact h
  | reading i =>
    have hdone : ∀ b, s.doneOf b = 0 := fun b => by rw [doneOf, hpoll]
    rw [hpoll] at hstep
    dsimp only at hstep
    split at hstep
    · -- the counts are read
      cases hstep
      refine ⟨fun b => ?_, fun j total done heq => ?_⟩
      · have hbucket := h.bucket b
        have hnone : ({ s with poll := .adding i (s.totalCount i) 0 } : Collector n cpus).doneOf b
          = 0 := ite_self 0
        rw [hnone]
        rw [hdone] at hbucket
        exact hbucket
      · cases heq
        exact ⟨rfl, Nat.zero_le _⟩
    · cases hstep
      refine ⟨fun b => ?_, fun j total done heq => absurd heq (next_ne_adding i j total done)⟩
      have hbucket := h.bucket b
      rw [doneOf_next rfl]
      rw [hdone] at hbucket
      exact hbucket
  | adding i total done =>
    obtain ⟨hread, hle⟩ := h.read i total done hpoll
    have hdone : ∀ b, s.doneOf b = if i = b then done else 0 := fun b => by rw [doneOf, hpoll]
    rw [hpoll] at hstep
    dsimp only at hstep
    split at hstep
    · next hlt =>
      -- a batch is added
      have hbatch : done + batchSize total done ≤ total := by
        unfold batchSize
        dsimp only
        split <;> omega
      cases hstep
      refine ⟨fun b => ?_, fun j total' done' heq => ?_⟩
      · have hbucket := h.bucket b
        rw [hdone] at hbucket
        show Function.update s.added i (s.added i + batchSize total done) b + s.totalCount b
          = s.increments b + if i = b then done + batchSize total done else 0
        by_cases hb : i = b
        · subst hb
          rw [if_pos rfl] at hbucket
          rw [Function.update_self, if_pos rfl]
          omega
        · rw [if_neg hb] at hbucket
          rw [Function.update_of_ne (Ne.symm hb), if_neg hb]
          exact hbucket
      · cases heq
        exact ⟨hread, hbatch⟩
    · next hge =>
      -- all samples are in the log, and the counters are zeroed
      cases hstep
      refine ⟨fun b => ?_, fun j total' done' heq => absurd heq (next_ne_adding i j total' done')⟩
      have hbucket := h.bucket b
      rw [hdone] at hbucket
      rw [doneOf_next rfl]
      show s.added b + ∑ c, (Function.update s.counts i (fun _ => 0) b c).toNat = s.increments b + 0
      by_cases hb : i = b
      · subst hb
        rw [if_pos rfl] at hbucket
        rw [Function.update_self]
        have hzero : ∑ _c : Fin cpus, (0 : UInt64).toNat = 0 := Finset.sum_eq_zero fun _ _ => rfl
        omega
      · rw [if_neg hb] at hbucket
        rw [Function.update_of_ne (Ne.symm hb)]
        exact hbucket
  | ended i total done =>
    rw [hpoll] at hstep
    cases hstep

theorem Balanced.step {a : Action cpus} (h : s.Balanced) (hcond : Undisturbed boundaries s a)
    (hstep : s.step boundaries a = some s') : s'.Balanced := by
  -- only the poll and the recordings move counts; raising abandons what was not read yet
  cases a with
  | record cpu latencyNs =>
    cases hstep
    exact h.increment _ cpu hcond.1 hcond.2
  | poll => exact h.pollStep hstep
  | raise =>
    unfold Collector.step at hstep
    cases hpoll : s.poll with
    | waiting =>
      rw [hpoll] at hstep
      cases hstep
    | reading i =>
      rw [hpoll] at hstep
      cases hstep
    | adding i total done =>
      rw [hpoll] at hstep
      dsimp only at hstep
      split at hstep
      · cases hstep
        -- the bucket that raised keeps what was done
        refine ⟨fun b => ?_, fun j total' done' heq => nomatch heq⟩
        have hbucket := h.bucket b
        rw [doneOf, hpoll] at hbucket
        exact hbucket
      · cases hstep
    | ended i total done =>
      rw [hpoll] at hstep
      cases hstep

theorem balanced_new : (new : Collector n cpus).Balanced where
  bucket := by
    intro b
    have hzero : (new : Collector n cpus).totalCount b = 0 := Finset.sum_eq_zero fun _ _ => rfl
    rw [hzero]
    rfl
  read := fun i total done heq => nomatch heq

/-- **No count is lost** in a run whose increments do not disturb the loop. -/
theorem polled_counts_conserved {actions : List (Action cpus)}
    (hmeets : Meets (step boundaries) (Undisturbed boundaries) new actions)
    (hrun : run (step boundaries) new actions = some s) : s.Conserved :=
  (run_invariant (fun _ _ _ h hcond hstep => h.step hcond hstep) balanced_new hmeets hrun).conserved

/-- One bucket, up to a microsecond. -/
def oneBucket : Boundaries 1 := ⟨fun _ => 1000, by decide, by decide⟩

/-- One increment, and a whole pass of the loop. -/
theorem polled_counts_conserved_pass : ∃ s : Collector 1 1,
    run (step oneBucket) new [.record 0 500, .poll, .poll, .poll, .poll] = some s ∧ s.added 0 = 1
      ∧ s.Conserved := by
  have hmeets : Meets (step oneBucket) (Undisturbed oneBucket) (new : Collector 1 1)
      [.record 0 500, .poll, .poll, .poll, .poll] := by
    have hfirst : Undisturbed oneBucket (new : Collector 1 1) (.record 0 500) :=
      ⟨by rintro total done ⟨⟩, by decide⟩
    exact ⟨hfirst, fun _ _ =>
      ⟨trivial, fun _ _ => ⟨trivial, fun _ _ => ⟨trivial, fun _ _ => ⟨trivial, fun _ _ =>
      trivial⟩⟩⟩⟩⟩
  exact ⟨_, rfl, rfl, polled_counts_conserved hmeets rfl⟩

/-- The same with an increment between the read and the write of zero: two increments, one sample. -/
theorem increment_while_adding_lost : ∃ s : Collector 1 1,
    run (step oneBucket) new [.record 0 500, .poll, .poll, .record 0 500, .poll, .poll] = some s
      ∧ ¬ s.Conserved := by
  refine ⟨_, rfl, fun h => ?_⟩
  have hsum : (1 : ℕ) = 2 := h
  exact absurd hsum (by decide)

end Sketchlog.Ebpf.Collector
