import Sketchlog.Lib.Chunks
import Sketchlog.Refine.AgentReadings

/-!
# The POSTs of a call

`_chunk_batch` cuts a batch into chunks, and `_flush_batches` posts them one after the other until
one fails.

* `events_posts`: with the chunks of all batches, every count of an event is posted once;
* `runOnce_spec`: a call raises before its first POST or posts all batches, and what it leaves
  behind in both cases.
-/

namespace Sketchlog.Agent

open Otel Chunks

/-- An entry, by its collection. -/
def Entry.item : Entry → Binary64 ⊕ Text ⊕ (Text × ℤ)
  | .latency value => .inl value
  | .unique value => .inr (.inl value)
  | .event name count => .inr (.inr (name, count))

/-! ## Chunks

The agent cuts a batch into chunks that hold its three lists one after another. -/

namespace EventBatch

/-- The collections of a batch. -/
def view : View EventBatch Binary64 Text (Text × ℤ) :=
  ⟨latencies, uniques, fun batch => batch.events.items⟩

variable {maxItems : ℕ}

theorem holds_empty : view.Holds ∅ [] := ⟨rfl, rfl, rfl⟩

/-- An entry more, if it is not an event that the batch has. -/
theorem holds_add {batch : EventBatch} {items : List (Binary64 ⊕ Text ⊕ (Text × ℤ))}
    (h : view.Holds batch items)
    {entry : Entry} (hnew : ∀ event ∈ thirds [entry.item], event.1 ∉ (thirds items).map Prod.fst) :
    view.Holds (batch.add entry) (items ++ [entry.item]) := by
  cases entry with
  | latency value => exact h.add _ rfl (List.append_nil _).symm (List.append_nil _).symm
  | unique value => exact h.add _ (List.append_nil _).symm rfl (List.append_nil _).symm
  | event name count =>
    refine h.add _ (List.append_nil _).symm (List.append_nil _).symm ?_
    have hname : name ∉ batch.events.items.map Prod.fst := by
      rw [show batch.events.items = thirds items from h.third]
      exact hnew (name, count) List.mem_cons_self
    show Dict.setItems batch.events.items name count = _
    unfold Dict.setItems
    exact if_neg hname

variable (maxItems) in
/-- `_chunk_batch` cuts the entries. -/
theorem chunks_cuts (self : EventBatch) :
    view.Cuts maxItems (self.chunks maxItems)
      (listed self.latencies self.uniques self.events.items) := by
  have hitems : self.entries.map Entry.item = listed self.latencies self.uniques self.events.items := by
    simp only [entries, listed, List.map_append, List.map_map]
    rfl
  -- the chunks so far, and `current`, hold what was cut
  have hloop := foldl_simulates maxItems
    (fun s a => List.Forall₂ view.Holds s.1 a.1 ∧ view.Holds s.2 a.2)
      (chunkStep maxItems) Entry.item ([], ∅) self.entries
    ⟨.nil, holds_empty⟩ fun s a entry rest hall hholds => by
      obtain ⟨hdone, hcurrent⟩ := hholds
      have hnodup : ((thirds (written a ++ entry.item :: rest.map Entry.item)).map Prod.fst).Nodup := by
        rw [hall, hitems, thirds_listed]
        exact self.events.nodup
      have hsize : s.2.itemCount = a.2.length := hcurrent.size_eq
      unfold chunkStep step
      rw [hsize]
      split_ifs with hfull
      · exact ⟨List.rel_append hdone (.cons hcurrent .nil), holds_add holds_empty fun _ _ =>
          List.not_mem_nil⟩
      · refine ⟨hdone, holds_add hcurrent fun event hevent hmem => ?_⟩
        have hsplit : written a ++ entry.item :: rest.map Entry.item
            = a.1.flatten ++ (a.2 ++ ([entry.item] ++ rest.map Entry.item)) := by
          rw [written, List.append_assoc]
          rfl
        rw [hsplit, thirds_append, thirds_append, thirds_append, List.map_append, List.map_append,
          List.map_append] at hnodup
        have hrest := (List.nodup_append.mp hnodup).2.1
        exact (List.nodup_append.mp hrest).2.2 _ hmem _
          (List.mem_append_left _ (List.mem_map_of_mem hevent)) rfl
  rw [hitems] at hloop
  obtain ⟨hdone, hcurrent⟩ := hloop
  have hsize := hcurrent.size_eq
  unfold View.Cuts cut close chunks
  dsimp only
  by_cases hempty : ((listed self.latencies self.uniques self.events.items).foldl (step maxItems)
    ([], [])).2 = []
  · rw [hempty] at hsize
    rw [if_pos hempty, if_neg (by rw [show itemCount _ = _ from hsize]; exact Nat.lt_irrefl 0)]
    exact hdone
  · rw [if_neg hempty, if_pos
      (by rw [show itemCount _ = _ from hsize]; exact List.length_pos_of_ne_nil hempty)]
    exact List.rel_append hdone (.cons hcurrent .nil)

/-- The chunks of a batch hold its events. -/
theorem events_chunks (self : EventBatch) :
    ((self.chunks maxItems).flatMap fun chunk => chunk.events.items) = self.events.items :=
  (self.chunks_cuts maxItems).contents.2.2.trans (thirds_listed _ _ _)

end EventBatch

/-! ## The POSTs -/

variable {config : AgentConfig} {batches : Dict Text EventBatch} {stream eventName : Text}

/-- The counts of batches that are listed by stream, each with its stream and event. -/
def counts (batches : List (Text × EventBatch)) : List ((Text × Text) × ℤ) :=
  batches.flatMap fun batch => batch.2.events.items.map fun event => ((batch.1, event.1), event.2)

/-- Whether a POST carries an event of a stream. -/
def carries (stream eventName : Text) (post : Text × EventBatch) : Bool :=
  post.1 = stream && post.2.events.keys.contains eventName

theorem counts_append (xs ys : List (Text × EventBatch)) : counts (xs ++ ys) = counts xs ++ counts ys :=
  List.flatMap_append

theorem counts_stream (stream : Text) (chunks : List EventBatch) :
    counts (chunks.map fun chunk => (stream, chunk))
      = (chunks.flatMap fun chunk => chunk.events.items).map fun event =>
        ((stream, event.1), event.2) := by
  unfold counts
  rw [List.flatMap_map, List.map_flatMap]

/-- **Every count is posted once.** -/
theorem counts_posts : counts (posts config batches) = counts batches.items := by
  unfold posts
  induction batches.items with
  | nil => rfl
  | cons batch rest ih =>
    rw [List.flatMap_cons, counts_append, ih]
    show _ = batch.2.events.items.map _ ++ counts rest
    congr 1
    dsimp only
    split_ifs with hempty
    · have hitems : batch.2.events.items = [] := by
        refine List.eq_nil_of_length_eq_zero ?_
        unfold EventBatch.itemCount Dict.size at hempty
        omega
      rw [hitems]
      rfl
    · rw [counts_stream, EventBatch.events_chunks]

theorem mem_counts {batches : List (Text × EventBatch)} {count : ℤ} :
    ((stream, eventName), count) ∈ counts batches
      ↔ ∃ batch, (stream, batch) ∈ batches ∧ batch.events.get? eventName = some count := by
  unfold counts
  constructor
  · intro h
    obtain ⟨⟨stream', batch⟩, hmem, hevent⟩ := List.mem_flatMap.mp h
    obtain ⟨⟨name, n⟩, hitem, heq⟩ := List.mem_map.mp hevent
    cases heq
    exact ⟨batch, hmem, Dict.get?_eq_some_iff.mpr hitem⟩
  · intro ⟨batch, hmem, hget⟩
    exact List.mem_flatMap.mpr ⟨_, hmem, List.mem_map.mpr ⟨_, Dict.get?_eq_some_iff.mp hget, rfl⟩⟩

/-- The number that a POST carries for an event is the one in the batch of the stream. -/
theorem eventCount_of_mem_posts {post : Text × EventBatch} (hpost : post ∈ posts config batches)
    {count : ℤ}
    (hcount : post.2.events.get? eventName = some count) :
      eventCount batches post.1 eventName = count := by
  have hmem : ((post.1, eventName), count) ∈ counts batches.items := by
    rw [← counts_posts]
    exact mem_counts.mpr ⟨post.2, hpost, hcount⟩
  obtain ⟨batch, hbatch, hget⟩ := mem_counts.mp hmem
  rw [eventCount_of_get? (Dict.get?_eq_some_iff.mpr hbatch), hget]
  rfl

theorem keys_counts (batches : List (Text × EventBatch)) :
    (counts batches).map Prod.fst
      = batches.flatMap fun batch => batch.2.events.keys.map fun name => (batch.1, name) := by
  unfold counts Dict.keys
  rw [List.map_flatMap]
  simp only [List.map_map]
  rfl

theorem nodup_counts : ((counts batches.items).map Prod.fst).Nodup := by
  rw [keys_counts]
  refine List.nodup_flatMap.mpr ⟨fun batch _ => ?_, ?_⟩
  · exact (List.nodup_map_iff fun _ _ h => (Prod.ext_iff.mp h).2).mpr batch.2.events.nodup_keys
  · refine (List.pairwise_map.mp batches.nodup).imp fun {a b} hne => ?_
    intro x hx hy
    obtain ⟨_, -, rfl⟩ := List.mem_map.mp hx
    obtain ⟨_, -, heq⟩ := List.mem_map.mp hy
    exact hne (Prod.ext_iff.mp heq).1.symm

theorem countP_le_count (batches : List (Text × EventBatch)) :
    batches.countP (carries stream eventName) ≤ ((counts batches).map Prod.fst).count
      (stream, eventName) := by
  rw [keys_counts]
  induction batches with
  | nil => exact Nat.zero_le _
  | cons batch rest ih =>
    rw [List.flatMap_cons, List.count_append, List.countP_cons]
    split_ifs with hcarries
    · have hone : 0 < (batch.2.events.keys.map fun name => (batch.1, name)).count
        (stream, eventName) := by
        simp only [carries, Bool.and_eq_true, decide_eq_true_eq, List.contains_iff_mem] at hcarries
        refine List.count_pos_iff.mpr (List.mem_map.mpr ⟨eventName, hcarries.2, ?_⟩)
        rw [hcarries.1]
      omega
    · omega

variable (config) in
/-- An event with a count is carried by a POST. -/
theorem exists_carries (h : eventCount batches stream eventName ≠ 0) :
    ∃ post ∈ posts config batches, carries stream eventName post := by
  unfold eventCount at h
  cases hbatch : batches.get? stream with
  | none =>
    rw [hbatch] at h
    exact absurd rfl h
  | some batch =>
    rw [hbatch] at h
    cases hcount : batch.events.get? eventName with
    | none =>
      rw [show ((some batch).bind fun batch => batch.events.get? eventName) = none from hcount] at h
      exact absurd rfl h
    | some count =>
      have hmem : ((stream, eventName), count) ∈ counts (posts config batches) := by
        rw [counts_posts]
        exact mem_counts.mpr ⟨batch, Dict.get?_eq_some_iff.mp hbatch, hcount⟩
      obtain ⟨chunk, hpost, hget⟩ := mem_counts.mp hmem
      refine ⟨(stream, chunk), hpost, ?_⟩
      simp only [carries, decide_true, Bool.true_and, List.contains_iff_mem]
      exact Dict.mem_keys_of_get? hget

/-- At most one POST of a call carries an event of a stream. -/
theorem countP_posts_le : (posts config batches).countP (carries stream eventName) ≤ 1 := by
  calc (posts config batches).countP (carries stream eventName)
      ≤ ((counts (posts config batches)).map Prod.fst).count (stream, eventName) := countP_le_count _
    _ = ((counts batches.items).map Prod.fst).count (stream, eventName) := by rw [counts_posts]
    _ ≤ 1 := List.nodup_iff_count_le_one.mp nodup_counts _

/-! ## The call

The state after a call, from the scrapes that succeeded and the posts that were applied. -/

/-- The POSTs that the server applies. -/
def appliedPosts (env : Environment) : List ((Text × EventBatch) × ℕ) → List (Text × EventBatch)
  | [] => []
  | post :: rest =>
    match env.send post.2 with
    | .ok => post.1 :: appliedPosts env rest
    | .lost => [post.1]
    | .refused => []

variable (env : Environment)

theorem sublist_appliedPosts (ps : List ((Text × EventBatch) × ℕ)) :
    (appliedPosts env ps).Sublist (ps.map Prod.fst) := by
  induction ps with
  | nil => exact .slnil
  | cons post rest ih =>
    unfold appliedPosts
    cases env.send post.2 with
    | ok => exact ih.cons_cons post.1
    | lost => exact (List.nil_sublist _).cons_cons post.1
    | refused => exact List.nil_sublist _

/-- The POSTs before a POST are answered, and it is not refused. -/
def Reached (ps : List ((Text × EventBatch) × ℕ)) (post : Text × EventBatch) : Prop :=
  ∃ before j after, ps = before ++ (post, j) :: after
    ∧ (∀ earlier ∈ before, env.send earlier.2 = .ok) ∧ env.send j ≠ .refused

theorem reached_cons {head : (Text × EventBatch) × ℕ} {rest : List ((Text × EventBatch) × ℕ)}
    {post : Text × EventBatch} :
    Reached env (head :: rest) post
      ↔ (post = head.1 ∧ env.send head.2 ≠ .refused)
        ∨ (env.send head.2 = .ok ∧ Reached env rest post) := by
  constructor
  · intro ⟨before, j, after, heq, hbefore, hsent⟩
    cases before with
    | nil =>
      obtain ⟨rfl, -⟩ := List.cons_eq_cons.mp heq
      exact .inl ⟨rfl, hsent⟩
    | cons first before =>
      obtain ⟨rfl, rfl⟩ := List.cons_eq_cons.mp heq
      have hrest (p : (Text × EventBatch) × ℕ) (hp : p ∈ before) : env.send p.2 = .ok :=
        hbefore p (List.mem_cons_of_mem _ hp)
      exact .inr ⟨hbefore head List.mem_cons_self, before, j, after, rfl, hrest, hsent⟩
  · rintro (⟨rfl, hsent⟩ | ⟨hok, before, j, after, rfl, hbefore, hsent⟩)
    · exact ⟨[], head.2, rest, rfl, (fun _ h => nomatch h), hsent⟩
    · exact ⟨head :: before, j, after, rfl, List.forall_mem_cons.mpr ⟨hok, hbefore⟩, hsent⟩

/-- The POSTs that are applied are the ones that are reached. -/
theorem mem_appliedPosts {ps : List ((Text × EventBatch) × ℕ)} {post : Text × EventBatch} :
    post ∈ appliedPosts env ps ↔ Reached env ps post := by
  induction ps with
  | nil =>
    constructor
    · intro h
      cases h
    · intro ⟨before, j, after, heq, _⟩
      exact absurd heq.symm (List.append_ne_nil_of_right_ne_nil before (List.cons_ne_nil _ _))
  | cons head rest ih =>
    rw [reached_cons, ← ih, appliedPosts]
    cases env.send head.2 <;> simp

theorem forM_sendBatch_ok (hok : ∀ j, env.send j = .ok) (ps : List ((Text × EventBatch) × ℕ))
    (self : Session) :
    ∃ self', ps.forM (sendBatch env) self = .ok () self' := by
  induction ps generalizing self with
  | nil => exact ⟨self, rfl⟩
  | cons post rest ih =>
    show ∃ self', EStateM.bind (sendBatch env post) (fun _ => rest.forM (sendBatch env)) self
      = .ok () self'
    unfold EStateM.bind sendBatch
    rw [hok post.2]
    exact ih _

theorem sessionOf_forM (ps : List ((Text × EventBatch) × ℕ)) (self : Session) :
    sessionOf (ps.forM (sendBatch env) self)
      = { self with applied := self.applied ++ appliedPosts env ps } := by
  induction ps generalizing self with
  | nil =>
    show self = _
    rw [appliedPosts, List.append_nil]
  | cons post rest ih =>
    show sessionOf (EStateM.bind (sendBatch env post) (fun _ => rest.forM (sendBatch env)) self) = _
    unfold appliedPosts EStateM.bind sendBatch
    cases env.send post.2 with
    | ok =>
      show sessionOf (rest.forM (sendBatch env) { self with applied := self.applied ++ [post.1] }) = _
      rw [ih]
      simp only [List.append_assoc, List.singleton_append]
    | lost => rfl
    | refused =>
      show self = _
      rw [List.append_nil]

variable (config)

/-- **A call.** A scrape fails and nothing is posted, or the batches of the readings are posted; the
table is written in both cases. -/
theorem sessionOf_runOnce (showFloat : Binary64 → Text) (self : Session) :
    let rs := targetReadings config env config.prometheusTargets.zipIdx
    let table := tableAfter self.lastCounterValues rs
    ((∀ target ∈ config.prometheusTargets.zipIdx, env.scrape target.2 ≠ none) ∧ ∃ collected,
      config.prometheusTargets.zipIdx.foldlM (scrapeRound showFloat config env) ⟨∅, 0, 0⟩ self
          = .ok collected { self with lastCounterValues := table }
        ∧ (∀ stream eventName, eventCount collected.batches stream eventName
          = contributed stream eventName (contributions self.lastCounterValues rs))
        ∧ sessionOf (runOnce showFloat config env self)
          = ⟨table, self.applied ++ appliedPosts env (posts config collected.batches).zipIdx⟩)
    ∨ ((∃ target ∈ config.prometheusTargets.zipIdx, env.scrape target.2 = none) ∧ ∃ failure,
      config.prometheusTargets.zipIdx.foldlM (scrapeRound showFloat config env) ⟨∅, 0, 0⟩ self
          = .error failure { self with lastCounterValues := table }
        ∧ sessionOf (runOnce showFloat config env self) = ⟨table, self.applied⟩) := by
  intro rs table
  obtain ⟨hall, collected, hok, hcounts⟩ | ⟨hfails, failure, herror⟩ :=
    scrapeRounds_spec showFloat config env config.prometheusTargets.zipIdx ⟨∅, 0, 0⟩ self
  · -- every scrape succeeded, so the batches are sent
    refine .inl ⟨hall, collected, hok, fun stream eventName => ?_, ?_⟩
    · rw [hcounts]
      exact zero_add _
    · -- the outcome of the posts decides which are applied, the table is as the scrapes left it
      have hposts := sessionOf_forM env (posts config collected.batches).zipIdx ⟨table, self.applied⟩
      show sessionOf (EStateM.bind _ _ self) = _
      unfold EStateM.bind
      rw [hok]
      show sessionOf (EStateM.bind (flushBatches config env collected.batches) _ _) = _
      unfold flushBatches
      show sessionOf (EStateM.bind
        (EStateM.bind ((posts config collected.batches).zipIdx.forM (sendBatch env)) _) _ _) = _
      unfold EStateM.bind
      dsimp only
      revert hposts
      cases (posts config collected.batches).zipIdx.forM (sendBatch env) ⟨table, self.applied⟩ with
      | ok _ _ => exact id
      | error _ _ => exact id
  · -- a failed scrape raises before the first post
    refine .inr ⟨hfails, failure, herror, ?_⟩
    show sessionOf (EStateM.bind _ _ self) = _
    unfold EStateM.bind
    rw [herror]
    rfl

/-- A call in which nothing fails returns. -/
theorem runOnce_ok (showFloat : Binary64 → Text) (self : Session)
    (hscrapes : ∀ target ∈ config.prometheusTargets.zipIdx, env.scrape target.2 ≠ none)
    (hok : ∀ j, env.send j = .ok) :
    ∃ stats self', runOnce showFloat config env self = .ok stats self' := by
  obtain ⟨_, collected, hcollected, _⟩ | ⟨⟨target, hmem, hfails⟩, _⟩ :=
    sessionOf_runOnce config env showFloat self
  · -- when the server accepts everything the loop over the posts does not raise
    obtain ⟨self', hposts⟩ := forM_sendBatch_ok env hok (posts config collected.batches).zipIdx
      ⟨tableAfter self.lastCounterValues
        (targetReadings config env config.prometheusTargets.zipIdx), self.applied⟩
    refine ⟨⟨config.prometheusTargets.length, collected.matched,
      (posts config collected.batches).length,
      ((posts config collected.batches).map fun post => post.2.itemCount).sum, collected.skipped⟩,
        self', ?_⟩
    show EStateM.bind _ _ self = _
    unfold EStateM.bind
    rw [hcollected]
    show EStateM.bind (flushBatches config env collected.batches) _ _ = _
    unfold flushBatches
    show EStateM.bind (EStateM.bind ((posts config collected.batches).zipIdx.forM (sendBatch env))
      _) _ _ = _
    unfold EStateM.bind
    dsimp only
    rw [hposts]
    rfl
  · exact absurd hfails (hscrapes target hmem)

end Sketchlog.Agent
