import Sketchlog.Lib.Runs
import Sketchlog.Server.RateLimit

/-!
# Quotas under concurrent checks

The counter of a window is the number of requests that were allowed in it and of those that are
counted and not yet decided (`Counted.current`), and that number never exceeds the quota
(`Counted.bound`). Every section of a check keeps this but one: a count that is taken back is taken
from the counter of the window that is current then. Where that is the window it was counted in, or
its counter is zero, quotas are safe (`quota_safe`).
-/

namespace Sketchlog.RateLimit

open Runs

variable {A : Arithmetic} {s s' : Running} {counter : QuotaCounter} {now w : ℚ} {space : String}

/-! ## Windows

The hour and the day are two instances of `Window`: a length, and the two fields of a counter. -/

/-- One of the two windows of a counter. -/
structure Window where
  count : QuotaCounter → ℕ
  start : QuotaCounter → ℚ
  tag : Mark → ℚ
  quota : NamespaceQuota → ℕ

def Window.hour : Window :=
  ⟨QuotaCounter.hourlyCount, QuotaCounter.hourStart, Mark.hour, NamespaceQuota.hourlyQuota⟩

def Window.day : Window :=
  ⟨QuotaCounter.dailyCount, QuotaCounter.dayStart, Mark.day, NamespaceQuota.dailyQuota⟩

/-- How the sections of a counter treat a window. -/
structure Window.Lawful (A : Arithmetic) (W : Window) : Prop where
  /-- A reset leaves the window alone or starts a later one. -/
  reset : ∀ counter now, (W.count (counter.resetIfNeeded A now) = W.count counter
      ∧ W.start (counter.resetIfNeeded A now) = W.start counter)
    ∨ (W.count (counter.resetIfNeeded A now) = 0 ∧ W.start counter < W.start
      (counter.resetIfNeeded A now))
  /-- A request is counted below the quota. -/
  increment : ∀ (counter : QuotaCounter) (quota : NamespaceQuota) now counter',
    counter.checkAndIncrement A quota.hourlyQuota quota.dailyQuota now = (none, counter') →
    W.count counter' = W.count (counter.resetIfNeeded A now) + 1
      ∧ W.start counter' = W.start (counter.resetIfNeeded A now)
      ∧ W.tag ⟨counter'.hourStart, counter'.dayStart⟩ = W.start counter'
      ∧ (0 < W.quota quota → W.count (counter.resetIfNeeded A now) < W.quota quota)
  decrement : ∀ counter : QuotaCounter, W.count counter.decrement = W.count counter - 1
    ∧ W.start counter.decrement = W.start counter
  new : ∀ now now', W.count (.new now now') = 0

/-- A rounded difference that is positive comes from a positive one. -/
theorem Arithmetic.lt_of_pos_sub (A : Arithmetic) {a b : ℚ} (h : 0 < A.round (a - b)) : b < a := by
  by_contra hle
  have hround := A.mono (sub_nonpos.mpr (not_lt.mp hle))
  rw [A.zero] at hround
  exact absurd h (not_lt.mpr hround)

theorem Window.hour_lawful : Window.hour.Lawful A where
  reset counter now := by
    -- the window starts again once an hour has passed, whatever the day does
    by_cases hreset : 3600 ≤ A.round (now - counter.hourStart)
    · have hlater : counter.hourStart < now := A.lt_of_pos_sub (lt_of_lt_of_le (by norm_num) hreset)
      refine .inr ⟨?_, ?_⟩
      · show (counter.resetIfNeeded A now).hourlyCount = 0
        simp only [QuotaCounter.resetIfNeeded, if_pos hreset]
        split <;> rfl
      · show counter.hourStart < (counter.resetIfNeeded A now).hourStart
        simp only [QuotaCounter.resetIfNeeded, if_pos hreset]
        split <;> exact hlater
    · refine .inl ⟨?_, ?_⟩
      · show (counter.resetIfNeeded A now).hourlyCount = counter.hourlyCount
        simp only [QuotaCounter.resetIfNeeded, if_neg hreset]
        split <;> rfl
      · show (counter.resetIfNeeded A now).hourStart = counter.hourStart
        simp only [QuotaCounter.resetIfNeeded, if_neg hreset]
        split <;> rfl
  increment counter quota now counter' h := by
    unfold QuotaCounter.checkAndIncrement at h
    dsimp only at h
    split at h
    · cases h
    · next hhour =>
      split at h
      · cases h
      · cases h
        exact ⟨rfl, rfl, rfl, fun hpos => not_le.mp fun hfull => hhour ⟨hpos, hfull⟩⟩
  decrement counter := ⟨rfl, rfl⟩
  new now now' := rfl

theorem Window.day_lawful : Window.day.Lawful A where
  reset counter now := by
    -- the test on the day is made after the hour may have been reset
    have hday : ∀ counter' : QuotaCounter, counter'.dailyCount = counter.dailyCount
      → counter'.dayStart = counter.dayStart →
        counter.resetIfNeeded A now = (if 86400 ≤ A.round (now - counter'.dayStart) then
          { counter' with dailyCount := 0, dayStart := now } else counter') →
        (Window.day.count (counter.resetIfNeeded A now) = Window.day.count counter
            ∧ Window.day.start (counter.resetIfNeeded A now) = Window.day.start counter)
          ∨ (Window.day.count (counter.resetIfNeeded A now) = 0
            ∧ Window.day.start counter < Window.day.start (counter.resetIfNeeded A now)) := by
      intro counter' hcount hstart heq
      rw [heq]
      split
      · next hreset =>
        refine .inr ⟨rfl, ?_⟩
        rw [hstart] at hreset
        exact A.lt_of_pos_sub (lt_of_lt_of_le (by norm_num) hreset)
      · exact .inl ⟨hcount, hstart⟩
    by_cases hreset : 3600 ≤ A.round (now - counter.hourStart)
    · refine hday { counter with hourlyCount := 0, hourStart := now } rfl rfl ?_
      simp only [QuotaCounter.resetIfNeeded, if_pos hreset]
    · refine hday counter rfl rfl ?_
      simp only [QuotaCounter.resetIfNeeded, if_neg hreset]
  increment counter quota now counter' h := by
    unfold QuotaCounter.checkAndIncrement at h
    dsimp only at h
    split at h
    · cases h
    · split at h
      · cases h
      · next hday =>
        cases h
        exact ⟨rfl, rfl, rfl, fun hpos => not_le.mp fun hfull => hday ⟨hpos, hfull⟩⟩
  decrement counter := ⟨rfl, rfl⟩
  new now now' := rfl

/-! ## Requests of a window

Requests are counted where they are admitted; `pending` are those counted and not yet reported. -/

/-- The windows a check was counted in, until it is decided. -/
def Check.mark? (check : Check) : Option Mark :=
  match check.phase with
  | .consuming mark => some mark
  | .rollingBack mark => some mark
  | _ => none

/-- The windows of a count that is to be taken back. -/
def Check.toRollBack (check : Check) : Option Mark :=
  match check.phase with
  | .rollingBack mark => some mark
  | _ => none

/-- The check is counted in the window that starts at `w`. -/
def Window.pending (W : Window) (space : String) (w : ℚ) (check : Check) : Bool :=
  check.space = space && check.mark?.map W.tag = some w

/-- How many requests were allowed in a window. -/
def Running.allowedIn (s : Running) (W : Window) (space : String) (w : ℚ) : ℕ :=
  s.allowed.countP fun a => a.space = space && W.tag a.mark = w

/-- How many requests are counted in a window: allowed, or not decided yet. -/
def Running.countedIn (s : Running) (W : Window) (space : String) (w : ℚ) : ℕ :=
  s.allowedIn W space w + s.checks.countP (W.pending space w)

/-- The counter of a window counts its requests, and no more of them than the quota allows. -/
structure Counted (W : Window) (s : Running) : Prop where
  quota : ∀ check ∈ s.checks, s.enforcer.config.getQuota check.space = .ok check.quota
  current : ∀ space counter, s.enforcer.counters.get? space = some counter →
    W.count counter = s.countedIn W space (W.start counter)
  bound : ∀ space quota, s.enforcer.config.getQuota space = .ok quota → 0 < W.quota quota →
    ∀ w, s.countedIn W space w ≤ W.quota quota
  /-- No request is counted in a window that has not started. -/
  past : ∀ space w, 0 < s.countedIn W space w →
    ∃ counter, s.enforcer.counters.get? space = some counter ∧ w ≤ W.start counter

/-! ## What a section does to a window

Renewing closes a window and opens an empty one, counting adds a request, rolling back takes one
off. Each keeps `Counted`. -/

/-- A counter that is left alone, new, or reset where that was due. -/
def Renewed (A : Arithmetic) (before after : Option QuotaCounter) : Prop :=
  after = before ∨ (before = none ∧ ∃ now now', after = some (.new now now'))
    ∨ ∃ counter now, before = some counter ∧ after = some (counter.resetIfNeeded A now)

section Keep

variable {W : Window} (hW : W.Lawful A) (h : Counted W s)
    (hconfig : s'.enforcer.config = s.enforcer.config)
  (hquota : ∀ check ∈ s'.checks, s'.enforcer.config.getQuota check.space = .ok check.quota)

include hW in
theorem start_le_reset (counter : QuotaCounter) (now : ℚ) :
    W.start counter ≤ W.start (counter.resetIfNeeded A now) := by
  rcases hW.reset counter now with ⟨-, hstart⟩ | ⟨-, hlater⟩
  · exact hstart.ge
  · exact hlater.le

include h

/-- No request is counted in a window that starts later than the current one. -/
theorem Counted.countedIn_of_lt (hcounter : s.enforcer.counters.get? space = some counter)
    (hlt : W.start counter < w) :
    s.countedIn W space w = 0 := by
  by_contra hne
  obtain ⟨counter', hcounter', hle⟩ := h.past space w (Nat.pos_of_ne_zero hne)
  rw [hcounter] at hcounter'
  cases hcounter'
  exact absurd hlt (not_lt.mpr hle)

include hW

/-- A reset keeps the count right. -/
theorem Counted.current_reset (hcounter : s.enforcer.counters.get? space = some counter) (now : ℚ) :
    W.count (counter.resetIfNeeded A now) = s.countedIn W space
      (W.start (counter.resetIfNeeded A now)) := by
  rcases hW.reset counter now with ⟨hcount, hstart⟩ | ⟨hcount, hlater⟩
  · rw [hcount, hstart]
    exact h.current space counter hcounter
  · rw [hcount, h.countedIn_of_lt hcounter hlater]

include hconfig hquota

theorem Counted.silent (hcounted : ∀ space w, s'.countedIn W space w = s.countedIn W space w)
    (hcounters : ∀ space, Renewed A (s.enforcer.counters.get? space)
      (s'.enforcer.counters.get? space)) :
    Counted W s' where
  quota := hquota
  current space counter' hcounter' := by
    rw [hcounted]
    rcases hcounters space with heq | ⟨hnone, now, now', heq⟩ | ⟨counter, now, hsome, heq⟩
    · rw [heq] at hcounter'
      exact h.current space counter' hcounter'
    · -- a new counter: nothing of the namespace was counted before
      rw [heq] at hcounter'
      cases hcounter'
      rw [hW.new]
      by_contra hne
      obtain ⟨counter, hcounter, -⟩ := h.past space _ (Nat.pos_of_ne_zero (Ne.symm hne))
      rw [hnone] at hcounter
      cases hcounter
    · rw [heq] at hcounter'
      cases hcounter'
      exact h.current_reset hW hsome now
  bound space quota hget hpos w := by
    rw [hcounted]
    rw [hconfig] at hget
    exact h.bound space quota hget hpos w
  past space w hpos := by
    rw [hcounted] at hpos
    obtain ⟨counter, hcounter, hle⟩ := h.past space w hpos
    rcases hcounters space with heq | ⟨hnone, -⟩ | ⟨counter', now, hsome, heq⟩
    · exact ⟨counter, heq.trans hcounter, hle⟩
    · rw [hnone] at hcounter
      cases hcounter
    · rw [hsome] at hcounter
      cases hcounter
      exact ⟨_, heq, hle.trans (start_le_reset hW _ now)⟩

theorem Counted.count {quota : NamespaceQuota} {counter' : QuotaCounter}
    (hget : s.enforcer.config.getQuota space = .ok quota)
    (hcounter : s.enforcer.counters.get? space = some counter)
    (hcount : counter.checkAndIncrement A quota.hourlyQuota quota.dailyQuota now = (none, counter'))
    (hcounters : s'.enforcer.counters = s.enforcer.counters.set space counter')
    (hcounted : ∀ space' w, s'.countedIn W space' w = s.countedIn W space' w
      + if space = space' ∧ W.tag ⟨counter'.hourStart, counter'.dayStart⟩ = w then 1 else 0) :
        Counted W s' := by
  obtain ⟨hplus, hstart, htag, hroom⟩ := hW.increment counter quota now counter' hcount
  have hcurrent := h.current_reset hW hcounter now
  rw [htag] at hcounted
  refine ⟨hquota, fun space' counter₁ hcounter₁ => ?_, fun space' quota' hget' hpos w =>
    ?_, fun space' w hpos => ?_⟩
  · rw [hcounters, Dict.get?_set] at hcounter₁
    rw [hcounted]
    split at hcounter₁
    · next heq =>
      cases hcounter₁
      rw [if_pos ⟨heq.symm, rfl⟩, heq, hplus, hcurrent, hstart]
    · next hne =>
      rw [if_neg fun hin => hne hin.1.symm, Nat.add_zero]
      exact h.current space' counter₁ hcounter₁
  · rw [hcounted]
    rw [hconfig] at hget'
    have hbound := h.bound space' quota' hget' hpos w
    split
    · next hin =>
      -- the window of the request: it was counted below the quota
      obtain ⟨rfl, rfl⟩ := hin
      rw [hget] at hget'
      cases hget'
      have hless := hroom hpos
      rw [hcurrent, ← hstart] at hless
      exact hless
    · exact hbound
  · rw [hcounters, Dict.get?_set]
    rw [hcounted] at hpos
    by_cases hspace : space' = space
    · subst hspace
      refine ⟨counter', if_pos rfl, ?_⟩
      by_cases htag' : W.start counter' = w
      · exact htag'.ge
      · rw [if_neg fun hin => htag' hin.2, Nat.add_zero] at hpos
        obtain ⟨counter₁, hcounter₁, hle⟩ := h.past space' w hpos
        rw [hcounter] at hcounter₁
        cases hcounter₁
        rw [hstart]
        exact hle.trans (start_le_reset hW _ now)
    · rw [if_neg fun hin => hspace hin.1.symm, Nat.add_zero] at hpos
      rw [if_neg hspace]
      exact h.past space' w hpos

/-- A count that is taken back from its own window, or from an empty counter. -/
theorem Counted.rollBack {mark : Mark} (hcounter : s.enforcer.counters.get? space = some counter)
    (hcounters : s'.enforcer.counters = s.enforcer.counters.set space counter.decrement)
    (hcounted : ∀ space' w, s'.countedIn W space' w + (if space = space' ∧ W.tag mark = w then 1 else 0)
      = s.countedIn W space' w)
    (hwindow : W.tag mark = W.start counter ∨ W.count counter = 0) : Counted W s' := by
  obtain ⟨hminus, hstart⟩ := hW.decrement counter
  refine ⟨hquota, fun space' counter₁ hcounter₁ => ?_, fun space' quota' hget' hpos w =>
    ?_, fun space' w hpos => ?_⟩
  · -- the counter that is rolled back, or one of another namespace
    rw [hcounters, Dict.get?_set] at hcounter₁
    split at hcounter₁
    · next heq =>
      cases hcounter₁
      subst heq
      have hcurrent := h.current space' counter hcounter
      have hnow := hcounted space' (W.start counter)
      rw [hminus, hstart]
      -- the request was counted in the current window, or the window is new and the count is zero
      rcases hwindow with htag | hzero
      · rw [if_pos ⟨rfl, htag⟩] at hnow
        omega
      · omega
    · next hne =>
      have hnow := hcounted space' (W.start counter₁)
      rw [if_neg fun hin => hne hin.1.symm, Nat.add_zero] at hnow
      rw [hnow]
      exact h.current space' counter₁ hcounter₁
  · -- the bound on what is admitted can only get slacker
    rw [hconfig] at hget'
    have hbound := h.bound space' quota' hget' hpos w
    have hnow := hcounted space' w
    omega
  · -- past windows lie below the start of the present one
    have hnow := hcounted space' w
    obtain ⟨counter₁, hcounter₁, hle⟩ := h.past space' w (by omega)
    rw [hcounters, Dict.get?_set]
    by_cases hspace : space' = space
    · subst hspace
      rw [hcounter] at hcounter₁
      cases hcounter₁
      refine ⟨_, if_pos rfl, ?_⟩
      rw [hstart]
      exact hle
    · rw [if_neg hspace]
      exact ⟨counter₁, hcounter₁, hle⟩

end Keep

/-! ## One section

The sections of the source, each as one of the changes above or as none. -/

theorem countP_set_add {α : Type} {p : α → Bool} {l : List α} {i : ℕ} {a b : α} (h : l[i]? = some a) :
    (l.set i b).countP p + (if p a then 1 else 0) = l.countP p + if p b then 1 else 0 := by
  obtain ⟨hi, ha⟩ := List.getElem?_eq_some_iff.mp h
  have hle : (if p a then 1 else 0) ≤ l.countP p := by
    split
    · next hpa => exact List.countP_pos_iff.mpr ⟨a, List.mem_of_getElem? h, hpa⟩
    · exact Nat.zero_le _
  rw [List.countP_set hi, ha]
  omega

theorem countP_eraseIdx_of_not {α : Type} {p : α → Bool} {l : List α} {i : ℕ} {a : α}
    (h : l[i]? = some a)
    (ha : p a = false) : (l.eraseIdx i).countP p = l.countP p := by
  obtain ⟨hi, hget⟩ := List.getElem?_eq_some_iff.mp h
  have hsplit : l = l.take i ++ a :: l.drop (i + 1) := by
    rw [← hget, List.cons_getElem_drop_succ, List.take_append_drop]
  rw [List.eraseIdx_eq_take_drop_succ]
  conv_rhs => rw [hsplit]
  rw [List.countP_append, List.countP_append, List.countP_cons, ha]
  simp

variable {W : Window} {i : ℕ} {check : Check} {phase : Phase}

/-- A check that is counted as before in its next phase. -/
theorem countedIn_moveTo (s : Running) (hi : s.checks[i]? = some check)
    (hsame : ({ check with phase := phase } : Check).mark? = check.mark?) (space : String) (w : ℚ) :
    (s.moveTo i check phase).countedIn W space w = s.countedIn W space w := by
  have hpending : W.pending space w { check with phase := phase } = W.pending space w check := by
    unfold Window.pending
    rw [hsame]
  have hset := countP_set_add (p := W.pending space w) (b := { check with phase := phase }) hi
  rw [hpending] at hset
  show s.allowedIn W space w + (s.checks.set i { check with phase := phase }).countP _ = _
  unfold Running.countedIn
  omega

/-- A step that rolls a count back does so in the window it was counted in, or from a counter that
is zero. -/
def Window.KeepsWindow (W : Window) (s : Running) : Running.Action → Prop
  | .advance i _ =>
      ∀ check ∈ s.checks[i]?, ∀ mark ∈ check.toRollBack,
      ∀ counter ∈ s.enforcer.counters.get? check.space,
    W.tag mark = W.start counter ∨ W.count counter = 0
  | .start .. => True

instance (W : Window) (s : Running) : ∀ a, Decidable (W.KeepsWindow s a)
  | .advance i _ => inferInstanceAs (Decidable (∀ check ∈ s.checks[i]?, ∀ mark ∈ check.toRollBack,
      ∀ counter ∈ s.enforcer.counters.get? check.space, W.tag mark = W.start counter
        ∨ W.count counter = 0))
  | .start .. => .isTrue trivial

/-- The checks keep their quotas. -/
theorem quota_moveTo (s : Running)
    (hquota : ∀ check ∈ s.checks, s.enforcer.config.getQuota check.space = .ok check.quota)
    (hi : s.checks[i]? = some check) :
    ∀ check' ∈ (s.moveTo i check phase).checks,
      (s.moveTo i check phase).enforcer.config.getQuota check'.space = .ok check'.quota := by
  intro check' hmem
  rcases List.mem_or_eq_of_mem_set hmem with hmem | rfl
  · exact hquota check' hmem
  · exact hquota check (List.mem_of_getElem? hi)

theorem renewed_set {counters : Dict String QuotaCounter} {counter' : QuotaCounter}
    (h : Renewed A (counters.get? space) (some counter')) (space' : String) :
    Renewed A (counters.get? space') ((counters.set space counter').get? space') := by
  rw [Dict.get?_set]
  split
  · next heq =>
    rw [heq]
    exact h
  · exact .inl rfl

/-- A check that is decided is no longer undecided. -/
theorem pending_decided (result : LimitResult) (reason : String) (space : String) (w : ℚ) :
    W.pending space w { check with phase := Running.decided check result reason } = false := by
  simp [Window.pending, Check.mark?, Running.decided]

section Step

variable (hW : W.Lawful A) (h : Counted W s) (hi : s.checks[i]? = some check)
  (hcounter : s.enforcer.counters.get? check.space = some counter)

include hW h

/-- A check begins. -/
theorem Counted.start {quota : NamespaceQuota} {tokens : ℤ} {now₁ now₂ now₃ : ℚ}
    (hquota : s.enforcer.config.getQuota space = .ok quota) :
    Counted W { s with
      enforcer := (s.enforcer.getBucket space quota now₁).getCounter space now₂ now₃
      checks := s.checks ++ [⟨space, tokens, quota, .counting⟩]
      clock := now₃ } := by
  have hconfig : ((s.enforcer.getBucket space quota now₁).getCounter space now₂ now₃).config
    = s.enforcer.config := by
    unfold RateLimitEnforcer.getCounter RateLimitEnforcer.getBucket
    split <;> split <;> rfl
  have hcounters : (s.enforcer.getBucket space quota now₁).counters = s.enforcer.counters := by
    unfold RateLimitEnforcer.getBucket
    split <;> rfl
  -- a check that begins has counted nothing yet
  refine h.silent hW hconfig ?_ (fun space' w => ?_) fun space' => ?_
  · intro check hmem
    show RateLimitConfig.getQuota _ check.space = _
    rw [hconfig]
    rcases List.mem_append.mp hmem with hmem | hmem
    · exact h.quota check hmem
    · rw [List.mem_singleton.mp hmem]
      exact hquota
  · show s.allowedIn W space' w + (s.checks ++ [_]).countP _ = _
    have hcounting : W.pending space' w ⟨space, tokens, quota, .counting⟩ = false := by
      simp [Window.pending, Check.mark?]
    rw [List.countP_append, List.countP_singleton, hcounting]
    rfl
  · -- the counter is the one that was there, or a new one that starts now
    show Renewed A _ ((RateLimitEnforcer.getCounter _ space now₂ now₃).counters.get? space')
    unfold RateLimitEnforcer.getCounter
    rw [hcounters]
    split
    · next hnone =>
      exact renewed_set (.inr (.inl ⟨hnone, now₂, now₃, rfl⟩)) space'
    · rw [hcounters]
      exact .inl rfl

include hi

/-- The section that takes the tokens. -/
theorem Counted.consume {bucket : TokenBucket} {mark : Mark} (hphase : check.phase = .consuming mark) :
    Counted W (s.consume A i check bucket mark now) := by
  have hmark : check.mark? = some mark := by
    unfold Check.mark?
    rw [hphase]
  unfold Running.consume
  dsimp only
  split
  · -- allowed: the request moves from the undecided to the allowed ones
    refine h.silent hW rfl (quota_moveTo { s with clock := now, enforcer.buckets := _ } h.quota hi)
      (fun space w => ?_) fun _ => .inl rfl
    have hset := countP_set_add (p := W.pending space w)
      (b := { check with phase := Running.decided check .allowed "ok" }) hi
    have hpending : W.pending space w check = (check.space = space && W.tag mark = w) := by
      simp [Window.pending, hmark]
    rw [pending_decided, hpending] at hset
    show (⟨check.space, mark⟩ :: s.allowed).countP _ + (s.checks.set i _).countP _ = _
    rw [List.countP_cons]
    unfold Running.countedIn Running.allowedIn
    dsimp only at hset ⊢
    rw [if_neg Bool.false_ne_true] at hset
    omega
  · refine h.silent hW rfl (quota_moveTo { s with clock := now, enforcer.buckets := _ } h.quota hi)
      (fun space w => ?_) fun _ => .inl rfl
    have hsame : ({ check with phase := .rollingBack mark } : Check).mark? = check.mark? := by
      rw [hmark]
      rfl
    exact countedIn_moveTo { s with clock := now, enforcer.buckets := _ } hi hsame space w

include hcounter

/-- The section that counts the request. -/
theorem Counted.countSection (hphase : check.phase = .counting) :
    Counted W (s.count A i check counter now) := by
  have hmark : check.mark? = none := by
    unfold Check.mark?
    rw [hphase]
  unfold Running.count
  rcases hcount : counter.checkAndIncrement A check.quota.hourlyQuota check.quota.dailyQuota
    now with ⟨err, counter'⟩
  -- over the quota: only the reset of the window is seen
  cases err with
  | some reason =>
    have hreset : counter' = counter.resetIfNeeded A now := by
      unfold QuotaCounter.checkAndIncrement at hcount
      dsimp only at hcount
      split at hcount
      · cases hcount
        rfl
      · split at hcount
        · cases hcount
          rfl
        · cases hcount
    refine h.silent hW rfl (quota_moveTo { s with clock := now, enforcer.counters := _ } h.quota hi)
      (fun space w => ?_) fun space => ?_
    · have hsame : ({ check with phase := Running.decided check .quotaExceeded reason } :
        Check).mark? = check.mark? := by
        rw [hmark]
        rfl
      exact countedIn_moveTo { s with clock := now, enforcer.counters := _ } hi hsame space w
    · exact renewed_set (.inr (.inr ⟨counter, now, hcounter, congrArg some hreset⟩)) space
  -- admitted: the pending count of this window grows with the counter
  | none =>
    refine h.count hW rfl (quota_moveTo { s with clock := now, enforcer.counters := _ } h.quota hi)
      (h.quota check (List.mem_of_getElem? hi)) hcounter hcount rfl fun space w => ?_
    have hset := countP_set_add (p := W.pending space w)
      (b := { check with phase := .consuming ⟨counter'.hourStart, counter'.dayStart⟩ }) hi
    have hpending : W.pending space w check = false := by
      simp [Window.pending, hmark]
    rw [hpending] at hset
    have hnext : W.pending space w
      { check with phase := .consuming ⟨counter'.hourStart, counter'.dayStart⟩ }
        = decide (check.space = space ∧ W.tag ⟨counter'.hourStart, counter'.dayStart⟩ = w) := by
      simp [Window.pending, Check.mark?]
    simp only [hnext, decide_eq_true_eq, Bool.false_eq_true, if_false] at hset
    show s.allowedIn W space w + (s.checks.set i _).countP _ = _
    unfold Running.countedIn
    omega

/-- The section that takes the count back. -/
theorem Counted.rollBackSection {mark : Mark} (hphase : check.phase = .rollingBack mark)
    (hwindow : W.tag mark = W.start counter ∨ W.count counter = 0) :
      Counted W (s.rollBack i check counter) := by
  have hmark : check.mark? = some mark := by
    unfold Check.mark?
    rw [hphase]
  refine h.rollBack hW rfl (quota_moveTo { s with enforcer.counters := _ } h.quota hi) hcounter rfl
    (fun space w => ?_) hwindow
  have hpending : W.pending space w check = decide (check.space = space ∧ W.tag mark = w) := by
    simp [Window.pending, hmark]
  have hset := countP_set_add (p := W.pending space w) (b := { check with
    phase := Running.decided check .rateLimited
      s!"rate limited (burst={check.quota.burst}, rate={check.quota.ratePerSecond}/s)" }) hi
  simp only [hpending, pending_decided, decide_eq_true_eq, Bool.false_eq_true, if_false] at hset
  show s.allowedIn W space w + (s.checks.set i _).countP _ + _ = _
  unfold Running.countedIn
  omega

/-- The reads for the report, and the return. -/
theorem Counted.report {bucket : TokenBucket} {decision : RateLimitDecision} {left : ℕ}
    (hphase : check.phase = .reading decision left) :
    Counted W (s.report A i check bucket counter decision left now) := by
  have hmark : check.mark? = none := by
    unfold Check.mark?
    rw [hphase]
  have hsame : ∀ decision' left', ({ check with phase := .reading decision' left' } : Check).mark?
    = check.mark? := by
    intro decision' left'
    rw [hmark]
    rfl
  have hreset : ∀ space, Renewed A (s.enforcer.counters.get? space)
      ((s.enforcer.counters.set check.space (counter.resetIfNeeded A now)).get? space) :=
    renewed_set (.inr (.inr ⟨counter, now, hcounter, rfl⟩))
  unfold Running.report
  split
  · refine h.silent hW rfl (quota_moveTo { s with clock := now, enforcer.buckets := _ } h.quota hi)
      ?_ fun _ => .inl rfl
    exact countedIn_moveTo { s with clock := now, enforcer.buckets := _ } hi (hsame _ _)
  · refine h.silent hW rfl (quota_moveTo { s with clock := now, enforcer.counters := _ } h.quota hi)
      ?_ hreset
    exact countedIn_moveTo { s with clock := now, enforcer.counters := _ } hi (hsame _ _)
  · refine h.silent hW rfl (quota_moveTo { s with clock := now, enforcer.counters := _ } h.quota hi)
      ?_ hreset
    exact countedIn_moveTo { s with clock := now, enforcer.counters := _ } hi (hsame _ _)
  · -- the check returns
    refine h.silent hW rfl (fun check' hmem => ?_) (fun space w => ?_) fun _ => .inl rfl
    · exact h.quota check' (List.mem_of_mem_eraseIdx hmem)
    · show s.allowedIn W space w + (s.checks.eraseIdx i).countP _ = _
      have hpending : W.pending space w check = false := by
        simp [Window.pending, hmark]
      rw [countP_eraseIdx_of_not hi hpending]
      rfl

end Step

/-- What a section keeps. -/
theorem Counted.step (hW : W.Lawful A) {s s' : Running} {a : Running.Action} (h : Counted W s)
    (hkeeps : W.KeepsWindow s a)
    (hstep : s.step A a = some s') : Counted W s' := by
  -- five sections of the check, each with its own lemma
  unfold Running.step at hstep
  split at hstep
  · split at hstep
    · split at hstep
      · next hquota =>
        cases hstep
        exact h.start hW hquota
      · cases hstep
        exact h
    · cases hstep
  · split at hstep
    · split at hstep
      · next check hi =>
        split at hstep
        · next bucket counter hbucket hcounter =>
          split at hstep
          · next hphase =>
            cases hstep
            exact h.countSection hW hi hcounter hphase
          · next mark hphase =>
            cases hstep
            exact h.consume hW hi hphase
          · next mark hphase =>
            cases hstep
            have hmark : check.toRollBack = some mark := by
              unfold Check.toRollBack
              rw [hphase]
            exact h.rollBackSection hW hi hcounter hphase (hkeeps check hi mark hmark counter hcounter)
          · next decision left hphase =>
            cases hstep
            exact h.report hW hi hcounter hphase
        · cases hstep
      · cases hstep
    · cases hstep

theorem counted_init (config : RateLimitConfig) (clock : ℚ) :
    Counted W (Running.init config clock) where
  quota check hmem := absurd hmem List.not_mem_nil
  current space counter hcounter := by cases hcounter
  bound space quota hquota hpos w := Nat.zero_le _
  past space w hpos := absurd hpos (lt_irrefl 0)

/-! ## Runs

By induction over all interleavings, the count of a window bounds what was admitted in it, as long
as no check rolls back after its window has been renewed. -/

/-- No more requests are allowed in a window than its quota, where it has one. -/
def Window.Bounded (W : Window) (s : Running) : Prop :=
  ∀ space quota, s.enforcer.config.getQuota space = .ok quota → 0 < W.quota quota →
    ∀ w, s.allowedIn W space w ≤ W.quota quota

/-- The counters are the numbers of requests that were allowed in their current windows. -/
def Window.Settled (W : Window) (s : Running) : Prop :=
  ∀ space counter, s.enforcer.counters.get? space = some counter →
    W.count counter = s.allowedIn W space (W.start counter)

/-- Quotas are kept; and when no check is in progress, the counters are right. -/
def Running.QuotaSafe (s : Running) : Prop :=
  (Window.hour.Bounded s ∧ Window.day.Bounded s)
    ∧ (s.checks = [] → Window.hour.Settled s ∧ Window.day.Settled s)

theorem Counted.bounded (h : Counted W s) : W.Bounded s := fun space quota hquota hpos w =>
  le_trans (Nat.le_add_right _ _) (h.bound space quota hquota hpos w)

theorem Counted.settled (h : Counted W s) (hidle : s.checks = []) : W.Settled s := by
  intro space counter hcounter
  rw [h.current space counter hcounter]
  unfold Running.countedIn
  rw [hidle]
  rfl

/-- **Quota safety.** In a run in which every count is taken back in the windows it was made in, or
where there is nothing to take back, no window allows more requests than its quota, and the counters
of an enforcer without checks in progress are the numbers of requests allowed. -/
theorem quota_safe {config : RateLimitConfig} {clock : ℚ} {as : List Running.Action}
    (hmeets : Meets (Running.step A) (fun s a =>
      Window.hour.KeepsWindow s a ∧ Window.day.KeepsWindow s a)
      (.init config clock) as)
    (hrun : run (Running.step A) (.init config clock) as = some s) : s.QuotaSafe := by
  have hinv : Counted Window.hour s ∧ Counted Window.day s := by
    refine run_invariant (I := fun s => Counted Window.hour s ∧ Counted Window.day s) ?_ ?_ hmeets hrun
    · intro s a s' hs hkeeps hstep
      exact ⟨hs.1.step Window.hour_lawful hkeeps.1 hstep, hs.2.step Window.day_lawful hkeeps.2 hstep⟩
    · exact ⟨counted_init config clock, counted_init config clock⟩
  refine ⟨⟨hinv.1.bounded, hinv.2.bounded⟩, fun hidle => ?_⟩
  exact ⟨hinv.1.settled hidle, hinv.2.settled hidle⟩

/-- Two requests an hour, of one token a second. -/
def twoAnHour : RateLimitConfig where
  quotas := [⟨"a", 1, 1, 2, 0, by decide, by decide, by decide, by decide⟩]
  defaultRatePerSecond := 100
  defaultBurst := 200
  defaultHourlyQuota := 0
  defaultDailyQuota := 0
  rate_pos := by decide
  burst_pos := by decide

/-- The calls of a check that is alone, from its start to its return. -/
def wholeCheck (i : ℕ) (now : ℚ) : List Running.Action :=
  .start "a" 1 now now now :: List.replicate 6 (.advance i now)

/-- Two checks within the hour; the second finds no token, and has its count taken back. -/
def twoChecks : List Running.Action :=
  wholeCheck 0 0 ++ .start "a" 1 0 0 0 :: List.replicate 7 (.advance 0 0)

theorem quota_safe_two_checks :
    ∃ s, run (Running.step .exact) (.init twoAnHour 0) twoChecks = some s ∧ s.checks = []
      ∧ s.QuotaSafe := by
  have hmeets : Meets (Running.step .exact) (fun s a =>
    Window.hour.KeepsWindow s a ∧ Window.day.KeepsWindow s a)
      (.init twoAnHour 0) twoChecks := by decide +kernel
  have hidle : (run (Running.step .exact) (.init twoAnHour 0) twoChecks).map (fun s =>
    s.checks.length) = some 0 := by
    decide +kernel
  obtain ⟨s, hrun, hchecks⟩ := Option.map_eq_some_iff.mp hidle
  exact ⟨s, hrun, List.length_eq_zero_iff.mp hchecks, quota_safe hmeets hrun⟩

/-- A check is counted in the first hour and finds no token. Before its count is taken back, another
check starts the second hour. -/
def lateRollBack : List Running.Action :=
  wholeCheck 0 0 ++ [.start "a" 1 0 0 0, .advance 0 0, .advance 0 0] ++ wholeCheck 1 3600
    ++ List.replicate 5 (.advance 0 3600) ++ wholeCheck 0 3601 ++ wholeCheck 0 3602

/-- The second hour then allows three requests, of two. -/
theorem late_roll_back_exceeds :
    ∃ s, run (Running.step .exact) (.init twoAnHour 0) lateRollBack = some s ∧ ¬ s.QuotaSafe := by
  have hallowed : (run (Running.step .exact) (.init twoAnHour 0) lateRollBack).map
      (fun s => (s.allowedIn Window.hour "a" 3600,
        ((s.enforcer.config.getQuota "a").map (·.hourlyQuota)).toOption))
        = some (3, some 2) := by
    decide +kernel
  obtain ⟨s, hrun, hs⟩ := Option.map_eq_some_iff.mp hallowed
  refine ⟨s, hrun, fun hsafe => ?_⟩
  obtain ⟨hthree, hquota⟩ := Prod.mk.inj hs
  cases hget : s.enforcer.config.getQuota "a" with
  | error e =>
    rw [hget] at hquota
    cases hquota
  | ok quota =>
    rw [hget] at hquota
    have htwo : Window.hour.quota quota = 2 := Option.some.inj hquota
    have hbound := hsafe.1.1 "a" quota hget (by omega) 3600
    omega

end Sketchlog.RateLimit
