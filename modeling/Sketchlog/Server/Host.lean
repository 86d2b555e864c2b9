import Sketchlog.Lib.Runs
import Sketchlog.Refine.LogKind
import Sketchlog.Server.Registry
import Sketchlog.Server.Storage

/-!
# A server's streams: requests, storage and the flush loop

The requests of a server run on one event loop: a request goes on until it awaits, and only then
another one can. `get_or_create`, `delete` and a `get` that does not find its stream in memory hold
`_operation_lock` while they await the storage backend; a `get` that does find it takes no lock. The
caller of `get_or_create` makes its updates before it awaits anything else. Beside the requests,
`flush_db_loop` saves the streams of a snapshot one after another; it takes no lock, and reads a log
and its stamp at two moments.

A `DELETE` at a node of a mesh commits in the storage without the lock, and takes the stream out of
the memory by `delete(.., delete_storage=False)`.

`Host` is such a server between two steps. `history` is the record of what was accepted, `uses` that
of the streams that requests have come to, the last one first, and `clock` the last reading of the
clock that a log was stamped with; statements need them, and no step reads them.
-/

namespace Sketchlog.Server

open Storage

variable {M : IndexMapping}

/-- A storage backend, and whether its `save` reads the stamp before it serializes the log. -/
structure Saver (Log : Type) extends Durable Log where
  stampFirst : Bool

/-- `SQLAlchemyStorage`. -/
def sqlAlchemySaver (E : Encodings) (C : LogCodec) : Saver C.Log := ⟨sqlAlchemy E C, false⟩

/-- `OmniKVEmbeddedStorage`. -/
def omniKVSaver (E : Encodings) (C : LogCodec) : Saver C.Log := ⟨omniKV E C, true⟩

/-- What holds the operation lock: `get_or_create`, a `get` that found nothing, or `delete`. -/
inductive Request where
  | getOrCreate
  | get
  | delete
  deriving DecidableEq

/-- How far it is. What `load` has given is kept until the stream is put into the registry. -/
inductive Stage (Log : Type) where
  | loading
  | loaded (stream : Option (ThreadSafeStreamLog Log))
  | saving (stream : Option (ThreadSafeStreamLog Log)) (victim : StreamName × ℕ)
  | saved (stream : Option (ThreadSafeStreamLog Log)) (victim : StreamName × ℕ)
  | deleting
  | deleted

structure Operation (Log : Type) where
  request : Request
  name : StreamName
  stage : Stage Log

/-- The save that the flush loop is at: what it has read of the log so far. -/
structure Copy (Log : Type) where
  log : Option Log
  lastUpdated : Option Binary64

/-- What was accepted: updates, with the reading of the clock that a new stream gets and those of
the updates, or a deletion. -/
inductive Event (K : LogKind M) where
  | updated (created : Binary64) (calls : List (K.Update × Binary64))
  | deleted

structure Host (K : LogKind M) (D : Saver K.Log) where
  registry : StreamRegistry ℕ
  objects : List (ThreadSafeStreamLog K.Log)
  stored : StreamName → Option D.Stored
  operation : Option (Operation K.Log)
  /-- The rest of the snapshot that the flush loop goes through. -/
  pending : List (StreamName × ℕ)
  copy : Copy K.Log
  clock : ℚ
  history : List (StreamName × Event K)
  uses : List StreamName

variable {K : LogKind M} {D : Saver K.Log}

/-- The updates of one caller, up to the first that raises. -/
def applyCalls : List (K.Update × Binary64) → ThreadSafeStreamLog K.Log → ThreadSafeStreamLog K.Log
  | [], log => log
  | (u, now) :: calls, log =>
    match u.call.run log.log with
    | .ok () log' => applyCalls calls ⟨log', now⟩
    | .error _ log' => ⟨log', log.lastUpdated⟩

/-- The clock after the readings. -/
def clockAfter (clock : ℚ) (times : List Binary64) : ℚ := (times.getLast?.map Binary64.val).getD clock

namespace Host

/-- A server at its start, with empty storage. -/
def new (registry : StreamRegistry ℕ) (clock : ℚ) : Host K D :=
  ⟨registry, [], fun _ => none, none, [], ⟨none, none⟩, clock, [], []⟩

/-- The flush loop: the snapshot of a round, the three parts of one save, and a save that raises. -/
inductive Flush where
  | snapshot
  | serialize
  | stamp
  | write
  | skip

inductive Action (K : LogKind M) where
  /-- A request gets the operation lock, or finds its stream without it. -/
  | getOrCreate (name : StreamName) (created : Binary64) (calls : List (K.Update × Binary64))
  | get (name : StreamName)
  | delete (name : StreamName)
  /-- The storage's part of a `DELETE` in a mesh, `delete_with_tombstone`, commits. -/
  | deleteStored (name : StreamName)
  /-- The rest of it, `delete(.., delete_storage=False)`, gets the lock and needs no `await`. -/
  | forget (name : StreamName)
  /-- What the holder of the lock awaits takes effect: the read of `load`, the write of `save`,
  `DELETE`. -/
  | storage
  /-- What it awaits returns, and it goes on. -/
  | resume (created : Binary64) (calls : List (K.Update × Binary64))
  /-- What it awaits raises, before it has any effect. -/
  | raise
  | flush (part : Flush)

/-- The caller of `get_or_create` has its stream, and makes its updates. -/
def callOn (s : Host K D) (name : StreamName) (stream : ℕ) (created : Binary64)
    (calls : List (K.Update × Binary64)) : Host K D :=
  { s with
    objects := s.objects.modify stream (applyCalls calls)
    clock := clockAfter s.clock (calls.map Prod.snd)
    operation := none
    history := s.history ++ [(name, .updated created calls)] }

/-- `ns_streams[stream_id] = stream`, of a new object. -/
def enter (s : Host K D) (name : StreamName) (stream : ThreadSafeStreamLog K.Log) : Host K D :=
  { s with
    objects := s.objects ++ [stream]
    registry := s.registry.put name s.objects.length
    operation := none
    uses := name :: s.uses }

/-- `ns_streams.move_to_end(stream_id)`. -/
def use (s : Host K D) (name : StreamName) : Host K D :=
  { s with registry := s.registry.moveToEnd name, uses := name :: s.uses }

/-- `get_or_create`, from where there is room; `stream` is what was loaded. A new stream reads the
clock. -/
def finish (empty : K.Log) (s : Host K D) (name : StreamName)
    (stream : Option (ThreadSafeStreamLog K.Log))
    (created : Binary64) (calls : List (K.Update × Binary64)) : Host K D :=
  match s.registry.peek name, stream with
  | some existing, _ => (s.use name).callOn name existing created calls
  | none, some stream => (s.enter name stream).callOn name s.objects.length created calls
  | none, none =>
    ({ s with clock := created.val }.enter name ⟨empty, created⟩).callOn name s.objects.length
      created calls

/-- `get`, from where there is room for the stream that was loaded. An existing stream is not moved. -/
def finishGet (s : Host K D) (name : StreamName) (stream : ThreadSafeStreamLog K.Log) : Host K D :=
  match s.registry.peek name with
  | some _ => { s with operation := none }
  | none => s.enter name stream

/-- The request goes on from where there is room. -/
def complete (empty : K.Log) (s : Host K D) (op : Operation K.Log)
    (stream : Option (ThreadSafeStreamLog K.Log))
    (created : Binary64) (calls : List (K.Update × Binary64)) : Option (Host K D) :=
  match op.request, stream with
  | .getOrCreate, stream => some (s.finish empty op.name stream created calls)
  | .get, some stream => some (s.finishGet op.name stream)
  | .get, none => some { s with operation := none }
  | .delete, _ => none

/-- The object that `load` makes of what is stored; the stamps that are stored are finite. -/
def loadedStream : Option (K.Log × PyFloat) → Option (Option (ThreadSafeStreamLog K.Log))
  | none => some none
  | some (log, .fin lastUpdated) => some (some ⟨log, lastUpdated⟩)
  | some _ => none

/-- A storage call of the holder of the lock takes effect. -/
def storageStep (s : Host K D) : Option (Host K D) :=
  match s.operation with
  | some ⟨request, name, .loading⟩ =>
    (loadedStream (D.load (s.stored name))).map fun stream =>
      { s with operation := some ⟨request, name, .loaded stream⟩ }
  | some ⟨request, name, .saving stream victim⟩ =>
    match s.objects[victim.2]? with
    | some log =>
      match D.save log (s.stored victim.1) with
      | .ok state =>
        some { s with
          stored := Function.update s.stored victim.1 state
          operation := some ⟨request, name, .saved stream victim⟩ }
      | .error _ => some { s with operation := none }
    | none => none
  | some ⟨request, name, .deleting⟩ =>
    some { s with
      stored := Function.update s.stored name none
      operation := some ⟨request, name, .deleted⟩
      history := s.history ++ [(name, .deleted)] }
  | _ => none

/-- The holder of the lock goes on after its storage call. -/
def resumeStep (empty : K.Log) (s : Host K D) (created : Binary64)
    (calls : List (K.Update × Binary64)) :
    Option (Host K D) :=
  match s.operation with
  | some ⟨request, name, .loaded stream⟩ =>
    if request = .get ∧ stream.isNone then some { s with operation := none }
    else
      match s.registry.victim name.1 with
      | some victim => some { s with operation := some ⟨request, name, .saving stream victim⟩ }
      | none => s.complete empty ⟨request, name, .loaded stream⟩ stream created calls
  | some ⟨request, name, .saved stream victim⟩ =>
    { s with registry := s.registry.evict victim }.complete empty ⟨request, name, .loaded stream⟩
      stream created calls
  | some ⟨_, name, .deleted⟩ => some { s with registry := s.registry.discard name, operation := none }
  | _ => none

/-- What the flush loop saves is the first stream of the rest of its snapshot. -/
def readStep (s : Host K D) (read : Copy K.Log → ThreadSafeStreamLog K.Log → Option (Copy K.Log)) :
    Option (Host K D) :=
  match s.pending with
  | [] => none
  | item :: _ =>
    match s.objects[item.2]? with
    | some log => (read s.copy log).map fun copy => { s with copy := copy }
    | none => none

def flushStep (s : Host K D) : Flush → Option (Host K D)
  | .snapshot =>
    match s.pending, s.registry.storage with
    | [], true => some { s with pending := s.registry.snapshotItems, copy := ⟨none, none⟩ }
    | _, _ => none
  | .serialize => s.readStep fun copy log =>
    if copy.log.isNone && (copy.lastUpdated.isSome == D.stampFirst) then
      some { copy with log := some log.log }
    else none
  | .stamp => s.readStep fun copy log =>
    if copy.lastUpdated.isNone && (copy.log.isNone == D.stampFirst) then
      some { copy with lastUpdated := some log.lastUpdated }
    else none
  | .write =>
    match s.pending, s.copy with
    | item :: rest, ⟨some log, some lastUpdated⟩ =>
      match D.save ⟨log, lastUpdated⟩ (s.stored item.1) with
      | .ok state =>
        some { s with
          stored := Function.update s.stored item.1 state
          pending := rest
          copy := ⟨none, none⟩ }
      | .error _ => some { s with pending := rest, copy := ⟨none, none⟩ }
    | _, _ => none
  | .skip =>
    match s.pending with
    | _ :: rest => some { s with pending := rest, copy := ⟨none, none⟩ }
    | [] => none

/-- One step of the server. -/
def step (empty : K.Log) (s : Host K D) : Action K → Option (Host K D)
  | .getOrCreate name created calls =>
    match s.operation with
    | some _ => none
    | none =>
      if (s.registry.peek name).isNone && s.registry.storage then
        some { s with operation := some ⟨.getOrCreate, name, .loading⟩ }
      else
        -- with no storage, a victim is dropped at once; a stream that is there is found before that
        match s.registry.peek name, s.registry.victim name.1 with
        | none, some victim =>
          some ({ s with registry := s.registry.evict victim }.finish empty name none created calls)
        | _, _ => some (s.finish empty name none created calls)
  | .get name =>
    match s.registry.peek name with
    | some _ => some (s.use name)
    | none =>
      match s.operation, s.registry.storage with
      | none, true => some { s with operation := some ⟨.get, name, .loading⟩ }
      | _, false => some s
      | some _, true => none
  | .delete name =>
    match s.operation, s.registry.storage with
    | some _, _ => none
    | none, true => some { s with operation := some ⟨.delete, name, .deleting⟩ }
    | none, false =>
      some { s with registry := s.registry.discard name, history := s.history ++ [(name, .deleted)] }
  | .deleteStored name =>
    if s.registry.storage then
      some { s with
        stored := Function.update s.stored name none
        history := s.history ++ [(name, .deleted)] }
    else none
  | .forget name =>
    match s.operation, s.registry.storage with
    | none, true => some { s with registry := s.registry.discard name }
    | _, _ => none
  | .storage => s.storageStep
  | .resume created calls => s.resumeStep empty created calls
  | .raise =>
    match s.operation with
    | some ⟨_, _, .loading⟩ => some { s with operation := none }
    | some ⟨_, _, .saving _ _⟩ => some { s with operation := none }
    | some ⟨_, _, .deleting⟩ => some { s with operation := none }
    | _ => none
  | .flush part => s.flushStep part

end Host

/-! ## What was accepted -/

/-- A map of streams with no limit. -/
abbrev Contents (K : LogKind M) := StreamName → Option (ThreadSafeStreamLog K.Log)

/-- What an accepted request does to the map. -/
def Event.apply (empty : K.Log) (contents : Contents K) (name : StreamName) : Event K → Contents K
  | .updated created calls =>
    Function.update contents name (some (applyCalls calls ((contents name).getD ⟨empty, created⟩)))
  | .deleted => Function.update contents name none

/-- The streams after everything that was accepted, in that order. -/
def replay (empty : K.Log) (history : List (StreamName × Event K)) : Contents K :=
  history.foldl (fun contents event => event.2.apply empty contents event.1) fun _ => none

end Sketchlog.Server
