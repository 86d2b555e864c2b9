import Mathlib.Tactic.Linarith
import Sketchlog.Server.RateLimit

/-!
# The bound of a token bucket

What a call grants and the tokens it leaves are together the tokens after the refill
(`call_balance`). So the tokens left plus what refills until `t` bound everything granted up to `t`
(`granted_le_tokens`), and since a refill never exceeds the burst, so does the burst plus what
refills in an interval, for the grants of that interval (`token_bucket_bound`). Arithmetic is exact.
-/

namespace Sketchlog.RateLimit

namespace TokenBucket

/-- A call of the bucket. -/
inductive Call where
  | consume (tokens : ℕ)
  | available

/-- A call at a clock reading: how many tokens it grants, and the bucket. -/
def call (self : TokenBucket) (now : ℚ) : Call → ℕ × TokenBucket
  | .consume tokens =>
    let (granted, bucket) := self.consume .exact tokens now
    (if granted then tokens else 0, bucket)
  | .available => (0, (self.available .exact now).2)

/-- The bucket after some calls. -/
def run (self : TokenBucket) (calls : List (ℚ × Call)) : TokenBucket :=
  calls.foldl (fun bucket c => (bucket.call c.1 c.2).2) self

/-- What the calls grant, with their times. -/
def grants (self : TokenBucket) : List (ℚ × Call) → List (ℚ × ℕ)
  | [] => []
  | (now, c) :: rest => (now, (self.call now c).1) :: (self.call now c).2.grants rest

/-- What was granted from `s` to `t`. -/
def grantedIn (s t : ℚ) (gs : List (ℚ × ℕ)) : ℕ :=
  ((gs.filter fun g => s ≤ g.1 ∧ g.1 ≤ t).map Prod.snd).sum

/-- The time of the last call, or of the construction. -/
def lastCall (start : ℚ) (calls : List (ℚ × Call)) : ℚ := (calls.getLast?.map Prod.fst).getD start

/-- The limits of the tokens. -/
structure Valid (b : TokenBucket) : Prop where
  rate_pos : 0 < b.rate
  tokens_nonneg : 0 ≤ b.tokens
  tokens_le : b.tokens ≤ b.burst

variable {self : TokenBucket} {now s t start : ℚ} {c : Call} {calls : List (ℚ × Call)}

/-! ## One call

What a call takes and what the time since the last one has brought balance out, up to the burst. -/

theorem refill_tokens (hnow : self.last ≤ now) :
    (self.refill .exact now).tokens = min (self.burst : ℚ)
      (self.tokens + (now - self.last) * self.rate) := by
  show min (self.burst : ℚ) (self.tokens + max 0 (now - self.last) * self.rate) = _
  rw [max_eq_right (sub_nonneg.mpr hnow)]

/-- What a call grants and what it leaves are the refilled tokens. -/
theorem call_balance (self : TokenBucket) (now : ℚ) (c : Call) :
    ((self.call now c).1 : ℚ) + (self.call now c).2.tokens = (self.refill .exact now).tokens := by
  cases c with
  | available =>
    show ((0 : ℕ) : ℚ) + (self.refill .exact now).tokens = _
    rw [Nat.cast_zero, zero_add]
  | consume tokens =>
    unfold call consume
    by_cases hle : (((tokens : ℕ) : ℤ) : ℚ) ≤ (self.refill .exact now).tokens
    · simp only [if_pos hle, if_true]
      show (tokens : ℚ) + ((self.refill .exact now).tokens - ((tokens : ℤ) : ℚ)) = _
      rw [Int.cast_natCast]
      ring
    · simp only [if_neg hle]
      show ((0 : ℕ) : ℚ) + (self.refill .exact now).tokens = _
      rw [Nat.cast_zero, zero_add]

theorem call_last : (self.call now c).2.last = now := by
  cases c with
  | available => rfl
  | consume tokens =>
    unfold call consume
    dsimp only
    split <;> rfl

theorem call_config : (self.call now c).2.rate = self.rate ∧ (self.call now c).2.burst
    = self.burst := by
  cases c with
  | available => exact ⟨rfl, rfl⟩
  | consume tokens =>
    unfold call consume
    dsimp only
    split <;> exact ⟨rfl, rfl⟩

theorem call_tokens_nonneg (h : 0 ≤ (self.refill .exact now).tokens) :
    0 ≤ (self.call now c).2.tokens := by
  cases c with
  | available => exact h
  | consume tokens =>
    unfold call consume
    dsimp only
    split
    · next hle => exact sub_nonneg.mpr hle
    · exact h

/-- **A call keeps the limits.** -/
theorem Valid.call (h : self.Valid) (hnow : self.last ≤ now) : (self.call now c).2.Valid := by
  have hrefill : 0 ≤ (self.refill .exact now).tokens := by
    rw [refill_tokens hnow]
    have hgain : 0 ≤ (now - self.last) * self.rate := mul_nonneg (sub_nonneg.mpr hnow) h.rate_pos.le
    exact le_min (Nat.cast_nonneg _) (add_nonneg h.tokens_nonneg hgain)
  have hbalance := call_balance self now c
  have hgranted : (0 : ℚ) ≤ ((self.call now c).1 : ℚ) := Nat.cast_nonneg _
  have hburst : (self.refill .exact now).tokens ≤ self.burst := min_le_left _ _
  refine ⟨?_, call_tokens_nonneg hrefill, ?_⟩
  · rw [call_config.1]
    exact h.rate_pos
  · rw [call_config.2]
    linarith

/-! ## Runs -/

theorem valid_run (h : self.Valid) (hclock : (self.last :: calls.map Prod.fst).Pairwise (· ≤ ·)) :
    (self.run calls).Valid := by
  induction calls generalizing self with
  | nil => exact h
  | cons c calls ih =>
    rw [List.map_cons, List.pairwise_cons] at hclock
    have hnow : self.last ≤ c.1 := hclock.1 c.1 List.mem_cons_self
    refine ih (h.call hnow) ?_
    rw [call_last]
    exact hclock.2

theorem run_last : (self.run calls).last = lastCall self.last calls := by
  induction calls generalizing self with
  | nil => rfl
  | cons c calls ih =>
    have hstep : (self.run (c :: calls)).last = lastCall (self.call c.1 c.2).2.last calls := ih
    rw [hstep, call_last]
    unfold lastCall
    rw [List.getLast?_cons]
    cases calls.getLast? with
    | none => rfl
    | some last => rfl

theorem run_config (self : TokenBucket) : (self.run calls).rate = self.rate ∧ (self.run calls).burst
    = self.burst := by
  induction calls generalizing self with
  | nil => exact ⟨rfl, rfl⟩
  | cons c calls ih =>
    obtain ⟨hrate, hburst⟩ := ih (self.call c.1 c.2).2
    exact ⟨hrate.trans call_config.1, hburst.trans call_config.2⟩

/-! ## Grants

Over any interval the grants are at most the tokens at its start and the refill of its length. -/

theorem map_fst_grants (self : TokenBucket) :
    (self.grants calls).map Prod.fst = calls.map Prod.fst := by
  induction calls generalizing self with
  | nil => rfl
  | cons c calls ih =>
    rw [grants, List.map_cons, List.map_cons, ih]

theorem grantedIn_cons {g : ℚ × ℕ} {gs : List (ℚ × ℕ)} :
    grantedIn s t (g :: gs) = (if s ≤ g.1 ∧ g.1 ≤ t then g.2 else 0) + grantedIn s t gs := by
  unfold grantedIn
  rw [List.filter_cons]
  by_cases h : s ≤ g.1 ∧ g.1 ≤ t
  · simp [h]
  · simp [h]

theorem grantedIn_eq_zero {gs : List (ℚ × ℕ)} (h : ∀ g ∈ gs, t < g.1) : grantedIn s t gs = 0 := by
  have hnone : gs.filter (fun g => s ≤ g.1 ∧ g.1 ≤ t) = [] := by
    apply List.filter_eq_nil_iff.mpr
    intro g hg hin
    rw [decide_eq_true_iff] at hin
    exact absurd hin.2 (not_le.mpr (h g hg))
  rw [grantedIn, hnone]
  rfl

/-- Nothing is granted before its time. -/
theorem grantedIn_of_lt (hclock : (self.last :: calls.map Prod.fst).Pairwise (· ≤ ·))
    (ht : t < self.last) :
    grantedIn s t (self.grants calls) = 0 := by
  apply grantedIn_eq_zero
  intro g hg
  have hmem : g.1 ∈ calls.map Prod.fst := by
    rw [← map_fst_grants self]
    exact List.mem_map_of_mem hg
  exact ht.trans_le ((List.pairwise_cons.mp hclock).1 _ hmem)

/-- The tokens that are there, and what refills, bound what is granted. -/
theorem granted_le_tokens (h : self.Valid) (hclock : (self.last :: calls.map Prod.fst).Pairwise (· ≤ ·))
    (ht : self.last ≤ t) :
    (grantedIn s t (self.grants calls) : ℚ) ≤ self.tokens + self.rate * (t - self.last) := by
  induction calls generalizing self with
  | nil =>
    have hgain : 0 ≤ self.rate * (t - self.last) := mul_nonneg h.rate_pos.le (sub_nonneg.mpr ht)
    show ((0 : ℕ) : ℚ) ≤ _
    rw [Nat.cast_zero]
    linarith [h.tokens_nonneg]
  | cons c calls ih =>
    rw [List.map_cons, List.pairwise_cons] at hclock
    have hnow : self.last ≤ c.1 := hclock.1 c.1 List.mem_cons_self
    have hrest : ((self.call c.1 c.2).2.last :: calls.map Prod.fst).Pairwise (· ≤ ·) := by
      rw [call_last]
      exact hclock.2
    have hbalance := call_balance self c.1 c.2
    rw [refill_tokens hnow] at hbalance
    have hrefill := min_le_right (self.burst : ℚ) (self.tokens + (c.1 - self.last) * self.rate)
    have hgranted : ((if s ≤ c.1 ∧ c.1 ≤ t then (self.call c.1 c.2).1 else 0 : ℕ) : ℚ)
      ≤ (self.call c.1 c.2).1 := by
      split
      · exact le_rfl
      · exact_mod_cast Nat.zero_le _
    rw [grants, grantedIn_cons, Nat.cast_add]
    by_cases hlate : c.1 ≤ t
    · have hih := ih (h.call (c := c.2) hnow) hrest (by rw [call_last]; exact hlate)
      rw [call_last, call_config.1] at hih
      nlinarith
    · -- the interval is over
      have hzero := grantedIn_of_lt (s := s) (t := t) hrest (by rw [call_last]; exact not_le.mp hlate)
      have hgain : 0 ≤ self.rate * (t - self.last) := mul_nonneg h.rate_pos.le (sub_nonneg.mpr ht)
      rw [hzero, if_neg fun hin => hlate hin.2]
      push_cast
      linarith [h.tokens_nonneg]

/-- The burst and what refills in an interval bound what is granted in it. -/
theorem granted_le_burst (h : self.Valid) (hclock : (self.last :: calls.map Prod.fst).Pairwise (· ≤ ·))
    (hst : s ≤ t) :
    (grantedIn s t (self.grants calls) : ℚ) ≤ self.burst + self.rate * (t - s) := by
  have hgain : 0 ≤ self.rate * (t - s) := mul_nonneg h.rate_pos.le (sub_nonneg.mpr hst)
  induction calls generalizing self with
  | nil =>
    show ((0 : ℕ) : ℚ) ≤ _
    rw [Nat.cast_zero]
    exact add_nonneg (Nat.cast_nonneg _) hgain
  | cons c calls ih =>
    rw [List.map_cons, List.pairwise_cons] at hclock
    have hnow : self.last ≤ c.1 := hclock.1 c.1 List.mem_cons_self
    have hrest : ((self.call c.1 c.2).2.last :: calls.map Prod.fst).Pairwise (· ≤ ·) := by
      rw [call_last]
      exact hclock.2
    rw [grants, grantedIn_cons, Nat.cast_add]
    by_cases hin : s ≤ c.1 ∧ c.1 ≤ t
    · -- the first call of the interval finds at most the burst
      have hbalance := call_balance self c.1 c.2
      have hburst : (self.refill .exact c.1).tokens ≤ self.burst := min_le_left _ _
      have hleft := granted_le_tokens (s := s) (t := t) (h.call (c := c.2) hnow) hrest
        (by rw [call_last]; exact hin.2)
      rw [call_last, call_config.1] at hleft
      rw [if_pos hin]
      have hshorter : self.rate * (t - c.1) ≤ self.rate * (t - s) :=
        mul_le_mul_of_nonneg_left (by linarith [hin.1]) h.rate_pos.le
      linarith
    · have hih := ih (h.call (c := c.2) hnow) hrest (by rw [call_config.1]; exact hgain)
      rw [call_config.1, call_config.2] at hih
      rw [if_neg hin, Nat.cast_zero, zero_add]
      exact hih

/-! ## Waiting for tokens -/

/-- A request that has waited for its tokens gets them. -/
theorem granted_of_waited (h : self.Valid) {tokens : ℕ} (hburst : tokens ≤ self.burst)
    (hwait : tokens / self.rate ≤ now - self.last) : (self.consume .exact tokens now).1 = true := by
  have hgain : (tokens : ℚ) ≤ (now - self.last) * self.rate := (div_le_iff₀ h.rate_pos).mp hwait
  have hnow : self.last ≤ now := by
    have hnonneg : (0 : ℚ) ≤ tokens / self.rate := div_nonneg (Nat.cast_nonneg _) h.rate_pos.le
    linarith
  have hle : (((tokens : ℕ) : ℤ) : ℚ) ≤ (self.refill .exact now).tokens := by
    rw [refill_tokens hnow, Int.cast_natCast]
    exact le_min (by exact_mod_cast hburst) (by linarith [h.tokens_nonneg])
  unfold consume
  simp only [if_pos hle]

end TokenBucket

open TokenBucket

/-- **The bound of a token bucket.** After any calls the tokens are between 0 and the burst; what is
granted in an interval is at most the burst and what refills in it; and a request of at most the
burst that arrives when as much has refilled since the last call is granted. -/
theorem token_bucket_bound {rate start : ℚ} {burst : ℕ} (hrate : 0 < rate) {calls : List (ℚ × Call)}
    (hclock : (start :: calls.map Prod.fst).Pairwise (· ≤ ·)) :
    (∀ before, before <+: calls → 0 ≤ ((TokenBucket.new rate burst start).run before).tokens
        ∧ ((TokenBucket.new rate burst start).run before).tokens ≤ burst)
      ∧ (∀ s t, s ≤ t →
        (grantedIn s t ((TokenBucket.new rate burst start).grants calls) : ℚ) ≤ burst + rate * (t - s))
      ∧ ∀ (tokens : ℕ) (now : ℚ), tokens ≤ burst → tokens / rate ≤ now - lastCall start calls →
        (((TokenBucket.new rate burst start).run calls).consume .exact tokens now).1 = true := by
  have hvalid : (TokenBucket.new rate burst start).Valid := ⟨hrate, Nat.cast_nonneg _, le_rfl⟩
  refine ⟨fun before hbefore => ?_, fun s t hst => granted_le_burst hvalid hclock hst, ?_⟩
  · have hclock' : (start :: before.map Prod.fst).Pairwise (· ≤ ·) :=
      List.Pairwise.sublist ((hbefore.sublist.map Prod.fst).cons_cons start) hclock
    have hrun := valid_run hvalid hclock'
    refine ⟨hrun.tokens_nonneg, ?_⟩
    have hle := hrun.tokens_le
    rwa [(run_config _).2] at hle
  · intro tokens now htokens hwait
    have hrun := valid_run hvalid hclock
    apply granted_of_waited hrun
    · rw [(run_config _).2]
      exact htokens
    · rw [(run_config _).1, run_last]
      exact hwait

/-- A bucket of two tokens that refills one a second: a burst of two, a refusal, and a token a
second later. -/
theorem token_bucket_bound_two :
    (∀ before, before <+: [(0, Call.consume 2), (0, .consume 1), (1, .consume 1)] →
        0 ≤ ((TokenBucket.new 1 2 0).run before).tokens
          ∧ ((TokenBucket.new 1 2 0).run before).tokens ≤ (2 : ℕ))
      ∧ (∀ s t, s ≤ t → (grantedIn s t ((TokenBucket.new 1 2 0).grants
        [(0, Call.consume 2), (0, .consume 1), (1, .consume 1)]) : ℚ) ≤ (2 : ℕ) + 1 * (t - s))
      ∧ ∀ (tokens : ℕ) (now : ℚ), tokens ≤ 2 →
        tokens / 1 ≤ now - lastCall 0 [(0, Call.consume 2), (0, .consume 1), (1, .consume 1)] →
        (((TokenBucket.new 1 2 0).run [(0, Call.consume 2), (0, .consume 1), (1, .consume 1)]).consume
          .exact tokens now).1 = true :=
  token_bucket_bound (by norm_num) (by decide)

end Sketchlog.RateLimit
