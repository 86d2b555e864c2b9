import Mathlib.Algebra.Order.Ring.Rat
import Sketchlog.Lib.Checked
import Sketchlog.Lib.Dict
import Sketchlog.Python.Basic
import Sketchlog.Python.Text

/-!
# `rate_limit.py`: quotas and token buckets

Each namespace has a token bucket, which refills with time, and a counter of its requests in the
current hour and day. `check` counts a request first and takes its tokens afterwards; when there are
too few it takes the count back. The three are separate sections that hold a lock of the bucket or
of the counter, so other checks come between them.

The clock is injected. Every arithmetic operation on its readings is followed by a rounding, of
which nothing but monotonicity is used; `Arithmetic.exact` does not round.
-/

namespace Sketchlog.RateLimit

open Checked

/-- How the results of operations are rounded. -/
structure Arithmetic where
  round : ℚ → ℚ
  mono : Monotone round
  zero : round 0 = 0

/-- Exact arithmetic. -/
def Arithmetic.exact : Arithmetic := ⟨id, monotone_id, rfl⟩

variable (A : Arithmetic)

/-! ## `_TokenBucket` -/

structure TokenBucket where
  rate : ℚ
  burst : ℕ
  tokens : ℚ
  last : ℚ

namespace TokenBucket

/-- A new bucket is full. -/
def new (rate : ℚ) (burst : ℕ) (now : ℚ) : TokenBucket := ⟨rate, burst, burst, now⟩

/-- `_refill`. -/
def refill (self : TokenBucket) (now : ℚ) : TokenBucket :=
  let elapsed := max 0 (A.round (now - self.last))
  { self with
    tokens := min (self.burst : ℚ) (A.round (self.tokens + A.round (elapsed * self.rate)))
    last := now }

/-- `consume`. -/
def consume (self : TokenBucket) (tokens : ℤ) (now : ℚ) : Bool × TokenBucket :=
  let self := self.refill A now
  if (tokens : ℚ) ≤ self.tokens then (true, { self with tokens := A.round (self.tokens - tokens) })
    else (false, self)

/-- `available`. -/
def available (self : TokenBucket) (now : ℚ) : ℚ × TokenBucket :=
  let self := self.refill A now
  (self.tokens, self)

end TokenBucket

/-! ## `_QuotaCounter` -/

structure QuotaCounter where
  hourlyCount : ℕ
  dailyCount : ℕ
  hourStart : ℚ
  dayStart : ℚ

namespace QuotaCounter

/-- A new counter; the clock is read twice. -/
def new (now now' : ℚ) : QuotaCounter := ⟨0, 0, now, now'⟩

/-- `_reset_if_needed`. -/
def resetIfNeeded (self : QuotaCounter) (now : ℚ) : QuotaCounter :=
  let self := if 3600 ≤ A.round (now - self.hourStart) then
    { self with hourlyCount := 0, hourStart := now } else self
  if 86400 ≤ A.round (now - self.dayStart) then { self with dailyCount := 0, dayStart := now } else self

/-- `check_and_increment`: the reason for a refusal, and the counter. -/
def checkAndIncrement (self : QuotaCounter) (hourlyQuota dailyQuota : ℕ) (now : ℚ) :
    Option String × QuotaCounter :=
  let self := self.resetIfNeeded A now
  if 0 < hourlyQuota ∧ hourlyQuota ≤ self.hourlyCount then
    (some s!"hourly quota exceeded ({self.hourlyCount}/{hourlyQuota})", self)
  else if 0 < dailyQuota ∧ dailyQuota ≤ self.dailyCount then
    (some s!"daily quota exceeded ({self.dailyCount}/{dailyQuota})", self)
  else (none, { self with hourlyCount := self.hourlyCount + 1, dailyCount := self.dailyCount + 1 })

/-- `decrement`; a count of zero stays. -/
def decrement (self : QuotaCounter) : QuotaCounter :=
  { self with hourlyCount := self.hourlyCount - 1, dailyCount := self.dailyCount - 1 }

end QuotaCounter

/-! ## Configuration -/

/-- `NamespaceQuota`, as its checks leave it. -/
structure NamespaceQuota where
  space : String
  ratePerSecond : ℚ
  burst : ℕ
  hourlyQuota : ℕ
  dailyQuota : ℕ
  space_nonblank : space.toList.all isSpace = false
  rate_pos : 0 < ratePerSecond
  burst_pos : 1 ≤ burst
  quotas_le : 0 < hourlyQuota → 0 < dailyQuota → hourlyQuota ≤ dailyQuota

/-- `RateLimitConfig`, as its checks leave it. -/
structure RateLimitConfig where
  quotas : List NamespaceQuota
  defaultRatePerSecond : ℚ
  defaultBurst : ℕ
  defaultHourlyQuota : ℕ
  defaultDailyQuota : ℕ
  rate_pos : 0 < defaultRatePerSecond
  burst_pos : 1 ≤ defaultBurst

/-- The loop of `get_quota`: the first exact match, or the last wildcard before the end. -/
def findQuota (space : String) : List NamespaceQuota → Option NamespaceQuota → Option NamespaceQuota
  | [], wildcard => wildcard
  | q :: rest, wildcard =>
    if q.space = space then some q
      else findQuota space rest (if q.space = "*" then some q else wildcard)

/-- `get_quota`. The defaults are checked as they are made a quota of the namespace. -/
def RateLimitConfig.getQuota (self : RateLimitConfig) (space : String) :
    Except PyError NamespaceQuota :=
  match findQuota space self.quotas none with
  | some q => .ok q
  | none =>
    if hspace : space.toList.all isSpace = false then
      if hquotas : 0 < self.defaultHourlyQuota → 0 < self.defaultDailyQuota →
          self.defaultHourlyQuota ≤ self.defaultDailyQuota then
        .ok ⟨space, self.defaultRatePerSecond, self.defaultBurst, self.defaultHourlyQuota,
          self.defaultDailyQuota,
          hspace, self.rate_pos, self.burst_pos, hquotas⟩
      else .error (.valueError "NamespaceQuota errors: hourly_quota cannot exceed daily_quota")
    else
      if 0 < self.defaultHourlyQuota → 0 < self.defaultDailyQuota →
          self.defaultHourlyQuota ≤ self.defaultDailyQuota then
        .error (.valueError "NamespaceQuota errors: namespace must be a non-empty string")
      else .error (.valueError ("NamespaceQuota errors: namespace must be a non-empty string; "
        ++ "hourly_quota cannot exceed daily_quota"))

/-! ## `RateLimitEnforcer`

A check has five sections, each under one lock, and other checks come between them. `Phase` is the
place a check has come to. -/

inductive LimitResult where
  | allowed
  | rateLimited
  | quotaExceeded
  deriving DecidableEq

/-- `RateLimitDecision`, with the fields that are read last. -/
structure RateLimitDecision where
  space : String
  result : LimitResult
  reason : String
  tokensRemaining : ℚ
  hourlyUsed : ℕ
  dailyUsed : ℕ

structure RateLimitEnforcer where
  config : RateLimitConfig
  buckets : Dict String TokenBucket
  counters : Dict String QuotaCounter

/-- The windows in which a request was counted, by their starts. -/
structure Mark where
  hour : ℚ
  day : ℚ
  deriving DecidableEq

/-- How far a `check` has got. -/
inductive Phase where
  /-- It has its bucket and its counter. -/
  | counting
  /-- It was counted. -/
  | consuming (mark : Mark)
  /-- There were too few tokens. -/
  | rollingBack (mark : Mark)
  /-- It is decided; the three values that are read for the report are left. -/
  | reading (decision : RateLimitDecision) (left : ℕ)

/-- A `check` in progress. -/
structure Check where
  space : String
  tokens : ℤ
  quota : NamespaceQuota
  phase : Phase

/-- A request that was allowed. -/
structure Allowed where
  space : String
  mark : Mark

/-- The enforcer, its checks in progress, and the requests it has allowed. -/
structure Running where
  enforcer : RateLimitEnforcer
  checks : List Check
  clock : ℚ
  allowed : List Allowed

namespace RateLimitEnforcer

/-- `__init__`. -/
def new (config : RateLimitConfig) : RateLimitEnforcer := ⟨config, ∅, ∅⟩

/-- `_get_bucket`. -/
def getBucket (self : RateLimitEnforcer) (space : String) (quota : NamespaceQuota) (now : ℚ) :
    RateLimitEnforcer :=
  if self.buckets.get? space = none then
    { self with buckets := self.buckets.set space (.new quota.ratePerSecond quota.burst now) }
  else self

/-- `_get_counter`. -/
def getCounter (self : RateLimitEnforcer) (space : String) (now now' : ℚ) : RateLimitEnforcer :=
  if self.counters.get? space = none then
    { self with counters := self.counters.set space (.new now now') } else self

end RateLimitEnforcer

namespace Running

/-- Before the first check. -/
def init (config : RateLimitConfig) (clock : ℚ) : Running := ⟨.new config, [], clock, []⟩

inductive Action where
  /-- A `check` gets its quota, its bucket and its counter. -/
  | start (space : String) (tokens : ℤ) (now₁ now₂ now₃ : ℚ)
  /-- A `check` takes its next section. -/
  | advance (i : ℕ) (now : ℚ)

/-- The check in progress, in its next phase. -/
def moveTo (s : Running) (i : ℕ) (check : Check) (phase : Phase) : Running :=
  { s with checks := s.checks.set i { check with phase := phase } }

/-- The decision that is reported, before its values are read. -/
def decided (check : Check) (result : LimitResult) (reason : String) : Phase :=
  .reading ⟨check.space, result, reason, 0, 0, 0⟩ 3

/-- The section of a check that counts it. -/
def count (s : Running) (i : ℕ) (check : Check) (counter : QuotaCounter) (now : ℚ) : Running :=
  let (err, counter) := counter.checkAndIncrement A check.quota.hourlyQuota check.quota.dailyQuota now
  let s := { s with enforcer.counters := s.enforcer.counters.set check.space counter, clock := now }
  match err with
  | some reason => s.moveTo i check (decided check .quotaExceeded reason)
  | none => s.moveTo i check (.consuming ⟨counter.hourStart, counter.dayStart⟩)

/-- The section of a check that takes its tokens. -/
def consume (s : Running) (i : ℕ) (check : Check) (bucket : TokenBucket) (mark : Mark) (now : ℚ) :
    Running :=
  let (granted, bucket) := bucket.consume A check.tokens now
  let s := { s with enforcer.buckets := s.enforcer.buckets.set check.space bucket, clock := now }
  if granted then
    { s.moveTo i check (decided check .allowed "ok") with allowed := ⟨check.space, mark⟩ :: s.allowed }
  else s.moveTo i check (.rollingBack mark)

/-- The section of a check that takes its count back. -/
def rollBack (s : Running) (i : ℕ) (check : Check) (counter : QuotaCounter) : Running :=
  let s := { s with enforcer.counters := s.enforcer.counters.set check.space counter.decrement }
  s.moveTo i check (decided check .rateLimited
    s!"rate limited (burst={check.quota.burst}, rate={check.quota.ratePerSecond}/s)")

/-- The reads for the report, in the order of its fields, and the return. -/
def report (s : Running) (i : ℕ) (check : Check) (bucket : TokenBucket) (counter : QuotaCounter)
    (decision : RateLimitDecision) (left : ℕ) (now : ℚ) : Running :=
  match left with
  | 3 =>
    let (tokens, bucket) := bucket.available A now
    { s with enforcer.buckets := s.enforcer.buckets.set check.space bucket, clock := now }.moveTo i
      check
      (.reading { decision with tokensRemaining := tokens } 2)
  | 2 =>
    let counter := counter.resetIfNeeded A now
    { s with enforcer.counters := s.enforcer.counters.set check.space counter, clock := now }.moveTo
      i check
      (.reading { decision with hourlyUsed := counter.hourlyCount } 1)
  | 1 =>
    let counter := counter.resetIfNeeded A now
    { s with enforcer.counters := s.enforcer.counters.set check.space counter, clock := now }.moveTo
      i check
      (.reading { decision with dailyUsed := counter.dailyCount } 0)
  | _ => { s with checks := s.checks.eraseIdx i }

/-- One section; `none` when it is not possible, or the clock would go back. A check whose quota
cannot be made raises, and changes nothing. -/
def step (s : Running) : Action → Option Running
  | .start space tokens now₁ now₂ now₃ =>
    if s.clock ≤ now₁ ∧ now₁ ≤ now₂ ∧ now₂ ≤ now₃ then
      match s.enforcer.config.getQuota space with
      | .ok quota =>
        some { s with
          enforcer := (s.enforcer.getBucket space quota now₁).getCounter space now₂ now₃
          checks := s.checks ++ [⟨space, tokens, quota, .counting⟩]
          clock := now₃ }
      | .error _ => some s
    else none
  | .advance i now =>
    if s.clock ≤ now then
      match s.checks[i]? with
      | some check =>
        match s.enforcer.buckets.get? check.space, s.enforcer.counters.get? check.space with
        | some bucket, some counter =>
          match check.phase with
          | .counting => some (s.count A i check counter now)
          | .consuming mark => some (s.consume A i check bucket mark now)
          | .rollingBack _ => some (s.rollBack i check counter)
          | .reading decision left => some (s.report A i check bucket counter decision left now)
        | _, _ => none
      | none => none
    else none

end Running

end Sketchlog.RateLimit
