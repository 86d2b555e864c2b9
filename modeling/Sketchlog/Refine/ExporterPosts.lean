import Sketchlog.Lib.Chunks
import Sketchlog.Otel.Exporter

/-!
# What a pass over the batches delivers

`splitBatch` loses nothing and repeats nothing: its chunks carry the batch (`carries_splitBatch`). A
pass that succeeds has had every chunk of every batch taken in (`flushEach_ok`); a pass whose first
request is not taken in has had none (`flushEach_unheard`).
-/

namespace Sketchlog.Otel

open Chunks

/-- The count of an event in a batch. -/
def EventBatch.eventCount (b : EventBatch) (name : String) : ℕ := ((b.events.get? name).getD 0).toNat

/-- The chunks carry what is in the batch: its samples, its items, and its counts of events. -/
structure Carries (chunks : List EventBatch) (batch : EventBatch) : Prop where
  latencies : chunks.flatMap EventBatch.latencies = batch.latencies
  uniques : chunks.flatMap EventBatch.uniques = batch.uniques
  events : ∀ name, (chunks.map fun chunk => chunk.eventCount name).sum = batch.eventCount name

/-! ## `splitBatch`

The splitter adds item by item and flushes when a chunk is full: a simulation of cutting the list of
items. -/

/-- The collections of a batch. -/
def EventBatch.view : View EventBatch Float64 String (String × UInt64) :=
  ⟨EventBatch.latencies, EventBatch.uniques, fun batch => batch.events.items⟩

/-- What a batch is split into, in the order in which it is visited. -/
def items (order : MapOrder) (batch : EventBatch) : List (Float64 ⊕ String ⊕ (String × UInt64)) :=
  listed batch.latencies batch.uniques
    ((order.events batch.events.items).filter fun event => event.2 ≠ 0)

theorem emptyBatch_iff (b : EventBatch) : emptyBatch b = true ↔ EventBatch.view.size b = 0 := by
  show _ ↔ b.latencies.length + b.uniques.length + b.events.items.length = 0
  simp only [emptyBatch, Dict.isEmpty, Bool.and_eq_true, List.isEmpty_iff, Nat.add_eq_zero_iff,
    List.length_eq_zero_iff]

namespace Splitter

/-- One round of the three loops. -/
def addItem (maxItems : ℤ) (s : Splitter) : Float64 ⊕ String ⊕ (String × UInt64) → Splitter
  | .inl v => s.addLatency maxItems v
  | .inr (.inl v) => s.addUnique maxItems v
  | .inr (.inr event) => s.addEvent maxItems event

/-- The splitter has cut as far as `a`. -/
structure Follows (s : Splitter) (a : List (List (Float64 ⊕ String ⊕ (String × UInt64)))
    × List (Float64 ⊕ String ⊕ (String × UInt64))) : Prop where
  chunks : List.Forall₂ EventBatch.view.Holds s.chunks a.1
  current : EventBatch.view.Holds s.current a.2
  currentItems : s.currentItems = a.2.length

variable {s : Splitter} {limit : ℕ}
  {a : List (List (Float64 ⊕ String ⊕ (String × UInt64))) × List (Float64 ⊕ String ⊕ (String × UInt64))}

theorem follows_new : Follows {} ([], []) := ⟨.nil, ⟨rfl, rfl, rfl⟩, rfl⟩

theorem Follows.flush_chunks (h : s.Follows a) :
    List.Forall₂ EventBatch.view.Holds s.flush.chunks (close a) := by
  have hempty : emptyBatch s.current = true ↔ a.2 = [] := by
    rw [emptyBatch_iff, h.current.size_eq, List.length_eq_zero_iff]
  unfold flush close
  dsimp only
  by_cases hnil : a.2 = []
  · rw [if_pos hnil, if_pos (hempty.mpr hnil)]
    exact h.chunks
  · rw [if_neg hnil, if_neg (mt hempty.mp hnil)]
    exact List.rel_append h.chunks (.cons h.current .nil)

/-- `ensure` begins a new chunk when the current one is full. -/
theorem Follows.ensure (hlimit : 0 < limit) (h : s.Follows a) :
    (s.ensure limit).Follows (if limit ≤ a.2.length then (a.1 ++ [a.2], []) else a) := by
  unfold Splitter.ensure
  rw [h.currentItems]
  by_cases hfull : limit ≤ a.2.length
  · have hchunks := h.flush_chunks
    rw [close, if_neg (List.ne_nil_of_length_pos (by omega))] at hchunks
    rw [if_pos hfull, if_pos (by exact_mod_cast hfull)]
    exact ⟨hchunks, ⟨rfl, rfl, rfl⟩, rfl⟩
  · rw [if_neg hfull, if_neg (by exact_mod_cast hfull)]
    exact h

/-- One item more, if it is not an event in hand and no count is zero. -/
theorem Follows.addItem (hlimit : 0 < limit) (h : s.Follows a)
    {item : Float64 ⊕ String ⊕ (String × UInt64)}
    (hcount : ∀ event ∈ thirds [item], event.2 ≠ 0)
    (hnew : ∀ event ∈ thirds [item], event.1 ∉ (thirds a.2).map Prod.fst) :
    (s.addItem limit item).Follows (step limit a item) := by
  -- the chunk is closed first if it is full
  have hensure := h.ensure hlimit
  have hstep : step limit a item = ((if limit ≤ a.2.length then (a.1 ++ [a.2], []) else a).1,
      (if limit ≤ a.2.length then (a.1 ++ [a.2], []) else a).2 ++ [item]) := by
    unfold step
    split <;> rfl
  have hnew' : ∀ event ∈ thirds [item],
      event.1 ∉ (thirds (if limit ≤ a.2.length then (a.1 ++ [a.2], []) else a).2).map Prod.fst := by
    intro event hevent
    split
    · exact List.not_mem_nil
    · exact hnew event hevent
  rw [hstep]
  -- from here on it does not matter whether it was
  generalize (if limit ≤ a.2.length then (a.1 ++ [a.2], []) else a) = a' at hensure hnew' ⊢
  have hitems : (s.ensure limit).currentItems + 1 = (a'.2 ++ [item]).length := by
    rw [hensure.currentItems, List.length_append, List.length_singleton]
  -- a number, a unique and an event go to three different fields
  rcases item with v | v | event
  · exact ⟨hensure.chunks,
      hensure.current.add _ rfl (List.append_nil _).symm (List.append_nil _).symm, hitems⟩
  · exact ⟨hensure.chunks,
      hensure.current.add _ (List.append_nil _).symm rfl (List.append_nil _).symm, hitems⟩
  · -- an event sets its name, which is new in this chunk
    have hset : s.addItem limit (.inr (.inr event)) = { s.ensure limit with
        current := { (s.ensure limit).current with
          events := (s.ensure limit).current.events.set event.1 event.2 }
        currentItems := (s.ensure limit).currentItems + 1 } := if_neg (hcount event List.mem_cons_self)
    have hname : event.1 ∉ (s.ensure limit).current.events.items.map Prod.fst := by
      rw [show (s.ensure limit).current.events.items = thirds a'.2 from hensure.current.third]
      exact hnew' event List.mem_cons_self
    rw [hset]
    refine ⟨hensure.chunks,
      hensure.current.add _ (List.append_nil _).symm (List.append_nil _).symm ?_, hitems⟩
    show Dict.setItems (s.ensure limit).current.events.items event.1 event.2 = _
    unfold Dict.setItems
    exact if_neg hname

end Splitter

/-- The three loops are one, over the items. -/
theorem splitBatch_eq (order : MapOrder) (batch : EventBatch) {limit : ℕ} (hlimit : 0 < limit) :
    splitBatch order batch limit
      = ((items order batch).foldl (Splitter.addItem limit) {}).flush.chunks := by
  have hpos : ¬ (limit : ℤ) ≤ 0 := by omega
  have hskip : ∀ (events : List (String × UInt64)) (s : Splitter),
      (events.filter fun event => event.2 ≠ 0).foldl (Splitter.addEvent limit) s
        = events.foldl (Splitter.addEvent limit) s := by
    intro events
    induction events with
    | nil => exact fun _ => rfl
    | cons event events ih =>
      intro s
      by_cases hzero : event.2 = 0
      · have hnone : s.addEvent limit event = s := if_pos hzero
        rw [List.filter_cons_of_neg (by simpa using hzero), List.foldl_cons, hnone, ih]
      · rw [List.filter_cons_of_pos (by simpa using hzero), List.foldl_cons, List.foldl_cons, ih]
  unfold splitBatch items listed
  simp only [if_neg hpos, List.foldl_append, List.foldl_map]
  rw [← hskip]
  rfl

/-- `splitBatch` cuts the items. -/
theorem splitBatch_cuts (order : MapOrder) (batch : EventBatch) {limit : ℕ} (hlimit : 0 < limit) :
    EventBatch.view.Cuts limit (splitBatch order batch limit) (items order batch) := by
  have hthirds : thirds (items order batch)
      = (order.events batch.events.items).filter fun event => event.2 ≠ 0 :=
    thirds_listed _ _ _
  -- the names of the events are distinct, whatever order the map is walked in
  have hnodup : ((thirds (items order batch)).map Prod.fst).Nodup := by
    rw [hthirds]
    have hperm := ((order.events_perm batch.events.items).map Prod.fst).nodup_iff.mpr batch.events.nodup
    exact hperm.sublist (List.filter_sublist.map _)
  -- the loop simulates the cutting of the list of items
  have hloop := foldl_simulates limit Splitter.Follows (Splitter.addItem limit) id _
    (items order batch) Splitter.follows_new fun s a item rest hall hfollows => by
      rw [List.map_id, List.map_id, id] at hall
      have hsplit : items order batch = a.1.flatten ++ (a.2 ++ ([item] ++ rest)) := by
        rw [← hall, written, List.append_assoc]
        rfl
      have hthird : thirds (items order batch)
        = thirds a.1.flatten ++ (thirds a.2 ++ (thirds [item] ++ thirds rest)) := by
        rw [hsplit, thirds_append, thirds_append, thirds_append]
      refine hfollows.addItem hlimit (fun event hevent => ?_) fun event hevent hmem => ?_
      · -- an event that is listed has a count, as those without are dropped before
        have hin : event ∈ thirds (items order batch) := by
          rw [hthird]
          exact List.mem_append_right _ (List.mem_append_right _ (List.mem_append_left _ hevent))
        rw [hthirds] at hin
        simpa using (List.mem_filter.mp hin).2
      · -- and its name does not occur before it
        rw [hthird, List.map_append, List.map_append, List.map_append] at hnodup
        have hrest := (List.nodup_append.mp hnodup).2.1
        exact (List.nodup_append.mp hrest).2.2 _ hmem _
          (List.mem_append_left _ (List.mem_map_of_mem hevent)) rfl
  rw [List.map_id] at hloop
  rw [splitBatch_eq order batch hlimit]
  exact hloop.flush_chunks

/-- The counts of the chunks of a batch: zeros count nothing. -/
theorem sum_filter_counts (events : List (String × UInt64)) (name : String) :
    ((events.filter fun event => event.2 ≠ 0).map fun event => if event.1 = name then event.2.toNat
      else 0).sum
      = (events.map fun event => if event.1 = name then event.2.toNat else 0).sum := by
  induction events with
  | nil => rfl
  | cons event events ih =>
    rw [List.map_cons, List.sum_cons]
    by_cases hzero : event.2 = 0
    · have hnone : (if event.1 = name then event.2.toNat else 0) = 0 := by
        rw [hzero]
        split <;> rfl
      rw [List.filter_cons_of_neg (by simpa using hzero), ih, hnone, Nat.zero_add]
    · rw [List.filter_cons_of_pos (by simpa using hzero), List.map_cons, List.sum_cons, ih]

/-- The counts of a map of events. -/
theorem sum_eventCounts (events : Dict String UInt64) (name : String) :
    (events.items.map fun event => if event.1 = name then event.2.toNat else 0).sum
      = ((events.get? name).getD 0).toNat := by
  obtain ⟨items, hnodup⟩ := events
  unfold Dict.get?
  induction items with
  | nil => rfl
  | cons event items ih =>
    obtain ⟨hfirst, hrest⟩ := List.nodup_cons.mp hnodup
    rw [List.map_cons, List.sum_cons, ih hrest]
    by_cases hname : event.1 = name
    · have hnone : items.find? (fun kv => decide (kv.1 = name)) = none := by
        apply List.find?_eq_none.mpr
        intro kv hkv heq
        exact hfirst (hname.trans (of_decide_eq_true heq).symm ▸ List.mem_map_of_mem hkv)
      rw [if_pos hname, hnone, List.find?_cons_of_pos (by simpa using hname)]
      rfl
    · rw [if_neg hname, zero_add, List.find?_cons_of_neg (by simpa using hname)]

/-- **The chunks of a batch carry it.** -/
theorem carries_splitBatch (order : MapOrder) (batch : EventBatch) (maxItems : ℤ) :
    Carries (splitBatch order batch maxItems) batch := by
  -- a limit that is not positive stands for 1000
  obtain ⟨limit, hlimit, heq⟩ : ∃ limit : ℕ, 0 < limit ∧ splitBatch order batch maxItems
    = splitBatch order batch limit := by
    by_cases hneg : maxItems ≤ 0
    · refine ⟨1000, by norm_num, ?_⟩
      simp only [splitBatch, if_pos hneg]
      rfl
    · refine ⟨maxItems.toNat, by omega, ?_⟩
      rw [Int.toNat_of_nonneg (by omega)]
  obtain ⟨hfirst, hsecond, hthird⟩ := (splitBatch_cuts order batch hlimit).contents
  rw [items, firsts_listed] at hfirst
  rw [items, seconds_listed] at hsecond
  rw [items, thirds_listed] at hthird
  rw [heq]
  refine ⟨hfirst, hsecond, fun name => ?_⟩
  have hcounts : (splitBatch order batch limit).map (fun chunk => chunk.eventCount name)
      = (splitBatch order batch limit).map fun chunk =>
          (chunk.events.items.map fun event => if event.1 = name then event.2.toNat else 0).sum :=
    List.map_congr_left fun chunk _ => (sum_eventCounts chunk.events name).symm
  have hflat : (splitBatch order batch limit).flatMap (fun chunk => chunk.events.items)
      = (order.events batch.events.items).filter fun event => event.2 ≠ 0 := hthird
  calc ((splitBatch order batch limit).map fun chunk => chunk.eventCount name).sum
      = (((splitBatch order batch limit).flatMap fun chunk => chunk.events.items).map fun event =>
          if event.1 = name then event.2.toNat else 0).sum := by
        rw [hcounts, List.map_flatMap, List.flatMap_def, List.sum_flatten, List.map_map]
        rfl
    _ = (batch.events.items.map fun event => if event.1 = name then event.2.toNat else 0).sum := by
        rw [hflat, sum_filter_counts, ((order.events_perm batch.events.items).map _).sum_eq]
    _ = batch.eventCount name := sum_eventCounts batch.events name

/-! ## A pass that succeeds -/

/-- The requests of a batch. -/
def chunksOf (order : MapOrder) (maxItems : ℤ) (batch : EventBatch) : List EventBatch :=
  if emptyBatch batch then [] else splitBatch order batch maxItems

theorem carries_nil {batch : EventBatch} (h : emptyBatch batch = true) : Carries [] batch := by
  simp only [emptyBatch, Bool.and_eq_true, List.isEmpty_iff] at h
  obtain ⟨⟨hlatencies, huniques⟩, hevents⟩ := h
  refine ⟨hlatencies.symm, huniques.symm, fun name => ?_⟩
  rw [EventBatch.eventCount, Dict.isEmpty_iff_get?.mp hevents name]
  rfl

theorem carries_chunksOf (order : MapOrder) (maxItems : ℤ) (batch : EventBatch) :
    Carries (chunksOf order maxItems batch) batch := by
  unfold chunksOf
  split
  · next h => exact carries_nil h
  · exact carries_splitBatch order batch maxItems

variable {order : MapOrder} {maxItems : ℤ} {stream : String} {t t' : Transport}

theorem postChunks_ok {chunks : List EventBatch} (h : postChunks stream chunks t = (.ok (), t')) :
    t'.applied = t.applied ++ chunks.map fun chunk => (stream, chunk) := by
  induction chunks generalizing t with
  | nil =>
    cases h
    exact (List.append_nil _).symm
  | cons chunk rest ih =>
    unfold postChunks at h
    by_cases hmarshal : chunk.marshals = false
    · rw [if_pos hmarshal] at h
      cases h
    rw [if_neg hmarshal] at h
    cases hpath : validateStreamPath stream with
    | error err =>
      rw [hpath] at h
      cases h
    | ok _ =>
      rw [hpath] at h
      cases hstatus : (t.replies t.sent).status with
      | none =>
        simp only [Transport.post, hstatus] at h
        cases h
      | some code =>
        simp only [Transport.post, hstatus] at h
        by_cases hcode : code < 200 ∨ 300 ≤ code
        · rw [if_pos hcode] at h
          cases h
        -- a chunk that is answered with success was taken in
        have happlied := (t.replies t.sent).applied_of_success code hstatus (by omega) (by omega)
        rw [if_neg hcode] at h
        rw [ih h, happlied, if_pos rfl, List.append_assoc]
        rfl

theorem postBatch_ok {batch : EventBatch} (h : postBatch order maxItems stream batch t = (.ok (), t')) :
    t'.applied = t.applied ++ (chunksOf order maxItems batch).map fun chunk => (stream, chunk) := by
  unfold postBatch at h
  unfold chunksOf
  split at h
  · next hempty =>
    cases h
    rw [if_pos hempty]
    exact (List.append_nil _).symm
  · next hempty =>
    rw [if_neg hempty]
    exact postChunks_ok h

/-- **A pass that succeeds** has had all chunks taken in. -/
theorem flushEach_ok {batches : List (String × EventBatch)}
    (h : flushEach order maxItems batches t = (.ok (), t')) :
    t'.applied = t.applied
      ++ batches.flatMap fun sb => (chunksOf order maxItems sb.2).map fun chunk => (sb.1, chunk) := by
  induction batches generalizing t with
  | nil =>
    cases h
    exact (List.append_nil _).symm
  | cons sb batches ih =>
    obtain ⟨stream, batch⟩ := sb
    unfold flushEach at h
    cases hpost : postBatch order maxItems stream batch t with
    | mk result t₁ =>
      rw [hpost] at h
      cases result with
      | error err => cases h
      | ok _ => rw [ih h, postBatch_ok hpost, List.flatMap_cons, List.append_assoc]

/-! ## A pass whose first request is not taken in -/

theorem postChunks_unheard (chunks : List EventBatch) (stream : String)
    (hreply : (t.replies t.sent).applied = false) :
    postChunks stream chunks t = (.ok (), t)
      ∨ ∃ err, (postChunks stream chunks t).1 = .error err ∧ (postChunks stream chunks t).2.applied
        = t.applied := by
  cases chunks with
  | nil => exact .inl rfl
  | cons chunk rest =>
    right
    unfold postChunks
    by_cases hmarshal : chunk.marshals = false
    · rw [if_pos hmarshal]
      exact ⟨_, rfl, rfl⟩
    rw [if_neg hmarshal]
    cases hpath : validateStreamPath stream with
    | error err => exact ⟨_, rfl, rfl⟩
    | ok _ =>
      cases hstatus : (t.replies t.sent).status with
      | none =>
        simp only [Transport.post, hstatus, hreply]
        exact ⟨_, rfl, rfl⟩
      | some code =>
        -- an answer of success would mean that the request was taken in
        have hcode : code < 200 ∨ 300 ≤ code := by
          by_contra hsuccess
          have happlied := (t.replies t.sent).applied_of_success code hstatus (by omega) (by omega)
          rw [hreply] at happlied
          cases happlied
        simp only [Transport.post, hstatus, hreply, if_pos hcode]
        exact ⟨_, rfl, rfl⟩

/-- **A pass whose first request is not taken in** delivers nothing. -/
theorem flushEach_unheard {batches : List (String × EventBatch)}
    (hreply : (t.replies t.sent).applied = false) :
    (flushEach order maxItems batches t).2.applied = t.applied := by
  -- a post that is not applied leaves the rest of the run unheard as well
  induction batches with
  | nil => rfl
  | cons sb batches ih =>
    obtain ⟨stream, batch⟩ := sb
    unfold flushEach postBatch
    split
    · next hpost =>
      split at hpost
      · cases hpost
      · have hunheard := postChunks_unheard (splitBatch order batch maxItems) stream hreply
        rw [hpost] at hunheard
        rcases hunheard with hok | ⟨_, _, hnothing⟩
        · cases hok
        · exact hnothing
    · next hpost =>
      split at hpost
      · cases hpost
        exact ih
      · have hunheard := postChunks_unheard (splitBatch order batch maxItems) stream hreply
        rw [hpost] at hunheard
        rcases hunheard with hok | ⟨_, herr, _⟩
        · cases hok
          exact ih
        · cases herr

/-! ## Streams -/

/-- What was delivered to a stream. -/
def deliveredTo (stream : String) (posts : List (String × EventBatch)) : List EventBatch :=
  (posts.filter fun post => post.1 = stream).map Prod.snd

theorem deliveredTo_append {posts posts' : List (String × EventBatch)} :
    deliveredTo stream (posts ++ posts') = deliveredTo stream posts ++ deliveredTo stream posts' := by
  unfold deliveredTo
  rw [List.filter_append, List.map_append]

theorem deliveredTo_self (chunks : List EventBatch) :
    deliveredTo stream (chunks.map fun chunk => (stream, chunk)) = chunks := by
  induction chunks with
  | nil => rfl
  | cons chunk chunks ih => simpa [deliveredTo] using ih

theorem deliveredTo_of_ne {stream' : String} (h : stream' ≠ stream) (chunks : List EventBatch) :
    deliveredTo stream (chunks.map fun chunk => (stream', chunk)) = [] := by
  induction chunks with
  | nil => rfl
  | cons chunk chunks ih => simp [deliveredTo, h]

/-- A pass delivers to each stream the chunks of its batch. -/
theorem deliveredTo_batches (stream : String) (batches : Dict String EventBatch)
    (chunks : EventBatch → List EventBatch) :
    deliveredTo stream (batches.items.flatMap fun sb => (chunks sb.2).map fun chunk => (sb.1, chunk))
      = ((batches.get? stream).map chunks).getD [] := by
  obtain ⟨items, hnodup⟩ := batches
  unfold Dict.get?
  induction items with
  | nil => rfl
  | cons sb items ih =>
    obtain ⟨hfirst, hrest⟩ := List.nodup_cons.mp hnodup
    rw [List.flatMap_cons, deliveredTo_append, ih hrest]
    by_cases hstream : sb.1 = stream
    · have hnone : items.find? (fun kv => decide (kv.1 = stream)) = none := by
        apply List.find?_eq_none.mpr
        intro kv hkv heq
        exact hfirst (hstream.trans (of_decide_eq_true heq).symm ▸ List.mem_map_of_mem hkv)
      rw [hstream, deliveredTo_self, hnone, List.find?_cons_of_pos (by simpa using hstream)]
      exact List.append_nil _
    · rw [deliveredTo_of_ne hstream, List.nil_append, List.find?_cons_of_neg (by simpa using hstream)]

/-- What was delivered is what is in the batches, stream by stream. -/
def ExactlyOnce (posts : List (String × EventBatch)) (batches : Dict String EventBatch) : Prop :=
  ∀ stream, Carries (deliveredTo stream posts) ((batches.get? stream).getD {})

/-- **A pass that succeeds delivers each batch once.** -/
theorem exactlyOnce_of_flushBatches {batches : Dict String EventBatch} (happlied : t.applied = [])
    (h : flushBatches order maxItems batches t = (.ok (), t')) : ExactlyOnce t'.applied batches := by
  intro stream
  have hperm := order.streams_perm batches.items
  -- the entries in the order of the pass are a map with the same lookups
  let visited : Dict String EventBatch :=
    ⟨order.streams batches.items, (hperm.map Prod.fst).nodup_iff.mpr batches.nodup⟩
  have hget : visited.get? stream = batches.get? stream := by
    refine Option.ext fun batch => ?_
    rw [Dict.get?_eq_some_iff, Dict.get?_eq_some_iff]
    exact hperm.mem_iff
  rw [flushEach_ok h, happlied, List.nil_append]
  have hdelivered := deliveredTo_batches stream visited (chunksOf order maxItems)
  rw [hget] at hdelivered
  rw [hdelivered]
  cases batches.get? stream with
  | none => exact carries_nil rfl
  | some batch => exact carries_chunksOf order maxItems batch

end Sketchlog.Otel
