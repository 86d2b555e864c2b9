import Sketchlog.Server.UploadLimit

/-!
# What `LimitUploadSize` lets through

Up to the byte that is too much, the application is answered as it would be without the middleware,
so the two runs are one (`run_eq`). From this follows what the client gets: the application's own
messages when the application consumes a body within the limit, and otherwise one response 413 and
none of them.
-/

namespace Sketchlog.Server

open Interaction

variable {S : Type} {limit : ℕ} {client : ℕ → Message}

/-- The bytes of the first `n` messages of the client. -/
def bodyBytes (client : ℕ → Message) (n : ℕ) : ℕ := ((List.range n).map fun i => (client i).size).sum

theorem bodyBytes_succ (client : ℕ → Message) (n : ℕ) :
    bodyBytes client (n + 1) = bodyBytes client n + (client n).size := by
  simp [bodyBytes, List.range_succ]

/-- What an answer hands to the application. -/
def bytesGiven : ((op : Call S) × op.Answer) → ℕ
  | ⟨.receive, some message⟩ => message.size
  | _ => 0

/-! ## One call -/

namespace Limited

/-- The variables after a message of the client was counted. -/
def count (client : ℕ → Message) (s : Limited S) : Limited S :=
  { s with next := s.next + 1, received := s.received + (client s.next).size }

/-- A message is passed on, or the limit is passed. -/
theorem handle_receive (limit : ℕ) (client : ℕ → Message) (s : Limited S) :
    (handle limit client .receive s = (some (client s.next), s.count client)
        ∧ (s.received + (client s.next).size ≤ limit ∨ (client s.next).size = 0))
      ∨ handle limit client .receive s = (none, { s.count client with tooLarge := true })
        ∧ limit < s.received + (client s.next).size := by
  simp only [handle, count]
  cases hmessage : client s.next with
  | disconnect => exact Or.inl ⟨rfl, Or.inr rfl⟩
  | request body more =>
    by_cases hover : s.received + body.length > limit
    · exact Or.inr ⟨if_pos hover, hover⟩
    · exact Or.inl ⟨if_neg hover, Or.inl (not_lt.mp hover)⟩

/-- What the application is given is taken from what the limit leaves. -/
theorem bytesGiven_le (limit : ℕ) (client : ℕ → Message) (op : Call S) (s : Limited S) :
    bytesGiven ⟨op, (handle limit client op s).1⟩ + (limit - (handle limit client op s).2.received)
      ≤ limit - s.received := by
  cases op with
  | send m => exact (Nat.zero_add _).le
  | receive =>
    obtain ⟨hstep, hsize⟩ | ⟨hstep, -⟩ := handle_receive limit client s
    · rw [hstep]
      show (client s.next).size + (limit - (s.received + (client s.next).size)) ≤ limit - s.received
      omega
    · rw [hstep]
      show 0 + (limit - (s.received + (client s.next).size)) ≤ limit - s.received
      omega

end Limited

/-! ## The two runs

The application behind the middleware and without it, side by side: the same until the limit is
passed. -/

/-- The connection without the middleware and the variables of the middleware, as long as nothing is
too large. -/
structure Alike (limit : ℕ) (client : ℕ → Message) (c : Connection S) (s : Limited S) : Prop where
  next_eq : s.next = c.next
  received_eq : s.received = bodyBytes client c.next
  within : bodyBytes client c.next ≤ limit
  tooLarge_eq : s.tooLarge = false
  sent_eq : c.sent = s.pendingResponse.map .message

theorem alike_start : Alike limit client (⟨0, []⟩ : Connection S) Limited.start :=
  ⟨rfl, rfl, Nat.zero_le _, rfl, rfl⟩

variable {c : Connection S} {s : Limited S}

/-- A call is answered alike if the limit is kept, as either of the two sees it. -/
theorem Alike.call (h : Alike limit client c s) (op : Call S)
    (hkept : bodyBytes client (c.handle client op).2.next ≤ limit
      ∨ (s.handle limit client op).2.tooLarge = false) :
    (s.handle limit client op).1 = (c.handle client op).1
      ∧ Alike limit client (c.handle client op).2 (s.handle limit client op).2 := by
  cases op with
  | send m =>
    refine ⟨rfl, h.next_eq, h.received_eq, h.within, h.tooLarge_eq, ?_⟩
    show c.sent ++ [.message m] = (s.pendingResponse ++ [m]).map .message
    rw [h.sent_eq, List.map_append]
    rfl
  | receive =>
    have hreceived : s.received + (client s.next).size = bodyBytes client (c.next + 1) := by
      rw [bodyBytes_succ, h.received_eq, h.next_eq]
    obtain ⟨hstep, hsize⟩ | ⟨hstep, hover⟩ := Limited.handle_receive limit client s
    · -- a message without bytes is passed on at any count
      have hwithin : bodyBytes client (c.next + 1) ≤ limit := by
        have hbefore := h.within
        have hbytes := h.received_eq
        omega
      rw [hstep]
      refine ⟨congrArg (fun n => some (client n)) h.next_eq, ?_, hreceived, hwithin, h.tooLarge_eq,
        h.sent_eq⟩
      exact congrArg (· + 1) h.next_eq
    · -- neither sees the limit kept
      rw [hstep] at hkept
      have hpassed : limit < bodyBytes client (c.next + 1) := hreceived ▸ hover
      rcases hkept with hkept | hkept
      · exact absurd hkept (not_le.mpr hpassed)
      · cases hkept

/-- A body that is within the limit was so before. -/
theorem within_of_handle (op : Call S) (c : Connection S)
    (h : bodyBytes client (c.handle client op).2.next ≤ limit) : bodyBytes client c.next ≤ limit := by
  cases op with
  | send m => exact h
  | receive =>
    have hnext : bodyBytes client (c.next + 1) ≤ limit := h
    rw [bodyBytes_succ] at hnext
    omega

/-- What was too large remains so. -/
theorem tooLarge_of_handle (op : Call S) (s : Limited S)
    (h : (s.handle limit client op).2.tooLarge = false) :
    s.tooLarge = false := by
  cases op with
  | send m => exact h
  | receive =>
    obtain ⟨hstep, -⟩ | ⟨hstep, -⟩ := Limited.handle_receive limit client s
    · rw [hstep] at h
      exact h
    · rw [hstep] at h
      cases h

/-! ## Whole runs -/

/-- The application behind the middleware. -/
def limitedRun (limit : ℕ) (client : ℕ → Message) (app : Application S) :
    Except AppError Unit × Limited S :=
  app.run (Limited.handle limit client) Limited.start

/-- The runs are one if the limit is kept, as either of the two sees it. -/
theorem runs_alike (app : Application S)
    (hkept : bodyBytes client (plainRun client app).2.next ≤ limit
      ∨ (limitedRun limit client app).2.tooLarge = false) :
    (limitedRun limit client app).1 = (plainRun client app).1
      ∧ Alike limit client (plainRun client app).2 (limitedRun limit client app).2 := by
  rcases hkept with hkept | hkept
  · -- seen from the connection
    exact Program.run_eq (P := fun c => bodyBytes client c.next ≤ limit) within_of_handle
      (fun op c s h hend => h.call op (Or.inl hend)) alike_start hkept
  · -- seen from the middleware, so that the two environments change places
    have hend : (app.run (Limited.handle limit client) Limited.start).2.tooLarge = false := hkept
    obtain ⟨hresult, h⟩ := Program.run_eq (P := fun s : Limited S => s.tooLarge = false)
      (R := fun s c => Alike limit client c s) tooLarge_of_handle
      (fun op s c h hend => (h.call op (Or.inr hend)).imp_left Eq.symm) alike_start hend
    exact ⟨hresult.symm, h⟩

/-- The flag says whether the application has consumed too much. -/
theorem tooLarge_iff (app : Application S) :
    (limitedRun limit client app).2.tooLarge = true
      ↔ limit < bodyBytes client (plainRun client app).2.next := by
  constructor
  · intro hlarge
    by_contra hkept
    rw [(runs_alike app (Or.inl (not_lt.mp hkept))).2.tooLarge_eq] at hlarge
    cases hlarge
  · intro hover
    by_contra hlarge
    exact absurd (runs_alike app (Or.inr (Bool.eq_false_of_not_eq_true hlarge))).2.within
      (not_le.mpr hover)

theorem bytesGiven_run_le (app : Application S) :
    ((app.trace (Limited.handle limit client) Limited.start).map bytesGiven).sum ≤ limit := by
  have hpaid := Program.cost_le bytesGiven (fun s : Limited S => limit - s.received)
    (Limited.bytesGiven_le limit client) app Limited.start
  exact (Nat.le_add_right _ _).trans hpaid

/-- An application that returns within the limit is not disturbed. -/
theorem reply_of_within (app : Application S)
    (hkept : bodyBytes client (plainRun client app).2.next ≤ limit)
    (hok : (plainRun client app).1 = .ok ()) :
      Limited.reply limit client app = plainReply client app := by
  obtain ⟨hresult, h⟩ := runs_alike app (Or.inl hkept)
  have hreply : Limited.reply limit client app
      = ⟨(limitedRun limit client app).2.pendingResponse.map .message, none⟩ := by
    have hok' : (app.run (Limited.handle limit client) Limited.start).1 = .ok () := hresult.trans hok
    have hflag : (app.run (Limited.handle limit client) Limited.start).2.tooLarge = false :=
      h.tooLarge_eq
    simp only [Limited.reply, hok', hflag, limitedRun]
    rfl
  rw [hreply, ← h.sent_eq]
  simp only [plainReply, hok]

/-- One that consumes more is answered for, unless it raises something else in the end. -/
theorem reply_of_over (app : Application S)
    (hover : limit < bodyBytes client (plainRun client app).2.next) :
    Limited.reply limit client app = tooLargeReply
      ∨ ∃ text, Limited.reply limit client app = ⟨[], some (.other text)⟩ := by
  have hflag : (app.run (Limited.handle limit client) Limited.start).2.tooLarge = true :=
    (tooLarge_iff app).mpr hover
  unfold Limited.reply
  cases hresult : (app.run (Limited.handle limit client) Limited.start).1 with
  | error e =>
    cases e with
    | requestBodyTooLarge =>
      -- the exception of the middleware, not caught
      simp only [hresult]
      exact Or.inl trivial
    | other text =>
      simp only [hresult]
      exact Or.inr ⟨text, rfl⟩
  | ok u =>
    -- caught, but the flag remembers it
    simp only [hresult, hflag]
    exact Or.inl rfl

/-- **The upload limit.** For every application, with every client: the application is given no more
bytes than the limit; when it would consume no more without the middleware, and returns, the client
gets what it gets then; and when it would consume more, the client gets one response 413, or the
server an exception, and nothing that the application has sent. -/
theorem upload_limited {maxMeshPayloadBytes maxRequestBytes limit : ℕ} {scope : Scope}
    (hguarded : scope.Guarded)
    (hlimit : scope.requestLimit maxMeshPayloadBytes maxRequestBytes = limit)
    (hlength : scope.checkLength limit = .ok ()) (app : Application S) (client : ℕ → Message) :
    ((app.trace (Limited.handle limit client) Limited.start).map bytesGiven).sum ≤ limit
      ∧ (bodyBytes client (plainRun client app).2.next ≤ limit → (plainRun client app).1 = .ok () →
        limitUploadSize maxMeshPayloadBytes maxRequestBytes scope app client = plainReply client app)
      ∧ (limit < bodyBytes client (plainRun client app).2.next →
        limitUploadSize maxMeshPayloadBytes maxRequestBytes scope app client = tooLargeReply
          ∨ ∃ text, limitUploadSize maxMeshPayloadBytes maxRequestBytes scope app client
            = ⟨[], some (.other text)⟩) := by
  have hcall : limitUploadSize maxMeshPayloadBytes maxRequestBytes scope app client
      = Limited.reply limit client app := by
    rw [limitUploadSize, if_pos hguarded, hlimit, hlength]
  rw [hcall]
  exact ⟨bytesGiven_run_le app, reply_of_within app, reply_of_over app⟩

/-- Three bytes where two are allowed: the application catches the exception and answers, but its
answer is dropped. -/
theorem upload_limited_caught :
    limitUploadSize 0 2 ⟨"http", some "POST", "/", []⟩
        (.call .receive fun _ => .call (.send "accepted") fun _ => .ret (.ok ()) : Application String)
        (fun _ => .request [1, 2, 3] false)
      = tooLargeReply := by
  refine ((upload_limited (by decide) rfl rfl _ _).2.2 (by decide)).resolve_right ?_
  rintro ⟨text, htext⟩
  cases htext

end Sketchlog.Server
