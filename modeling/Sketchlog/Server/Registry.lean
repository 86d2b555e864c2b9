import Sketchlog.Lib.Dict

/-!
# `server.py`: the registry of resident streams

`StreamRegistry` keeps the streams that are in memory: for each namespace an ordered dictionary, the
stream that was not used for the longest time first. A namespace has no more than
`max_streams_per_ns` of them and the server no more than `max_streams`; `_evict_if_needed` takes one
out before another is put in. A stream is an object, and what is kept of it here is its reference.
-/

namespace Sketchlog.Server

/-- A namespace and a stream id. -/
abbrev StreamName := String × String

/-- `StreamRegistry`, but for its locks. -/
structure StreamRegistry (Ref : Type) where
  maxStreamsPerNs : ℕ
  maxStreams : ℕ
  /-- There is a storage backend. -/
  storage : Bool
  namespaces : Dict String (Dict String Ref)

namespace StreamRegistry

variable {Ref : Type}

/-- The registry at its start. -/
def new (maxStreamsPerNs maxStreams : ℕ) (storage : Bool) : StreamRegistry Ref :=
  ⟨maxStreamsPerNs, maxStreams, storage, ∅⟩

/-- `_count_locked`. -/
def countLocked (self : StreamRegistry Ref) : ℕ := (self.namespaces.items.map fun kv => kv.2.size).sum

/-- `peek`. -/
def peek (self : StreamRegistry Ref) (name : StreamName) : Option Ref :=
  (self.namespaces.get? name.1).bind fun streams => streams.get? name.2

/-- `snapshot_items`. -/
def snapshotItems (self : StreamRegistry Ref) : List (StreamName × Ref) :=
  self.namespaces.items.flatMap fun kv => kv.2.items.map fun item => ((kv.1, item.1), item.2)

/-- `ns_streams.move_to_end(stream_id)`, of a stream that is there. -/
def moveToEnd (self : StreamRegistry Ref) (name : StreamName) : StreamRegistry Ref :=
  match self.namespaces.get? name.1 with
  | some streams => { self with namespaces := self.namespaces.set name.1 (streams.moveToEnd name.2) }
  | none => self

/-- The first stream of the first namespace that has one. -/
def firstStream (self : StreamRegistry Ref) : Option (StreamName × Ref) :=
  self.namespaces.items.findSome? fun kv => kv.2.first?.map fun item => ((kv.1, item.1), item.2)

/-- The stream that `_evict_if_needed` chooses. -/
def victim (self : StreamRegistry Ref) (ns : String) : Option (StreamName × Ref) :=
  match self.namespaces.get? ns with
  | some streams =>
    if streams.isEmpty = false ∧ self.maxStreamsPerNs ≤ streams.size then
      streams.first?.map fun item => ((ns, item.1), item.2)
    else if self.maxStreams ≤ self.countLocked then self.firstStream else none
  | none => if self.maxStreams ≤ self.countLocked then self.firstStream else none

/-- `del`, and the namespace goes when it is empty. -/
def remove (self : StreamRegistry Ref) (name : StreamName) : StreamRegistry Ref :=
  match self.namespaces.get? name.1 with
  | some streams =>
    if (streams.pop name.2).isEmpty then { self with namespaces := self.namespaces.pop name.1 }
    else { self with namespaces := self.namespaces.set name.1 (streams.pop name.2) }
  | none => self

/-- The end of `_evict_if_needed`: the victim is removed if it is still the stream that was chosen. -/
def evict [DecidableEq Ref] (self : StreamRegistry Ref) (victim : StreamName × Ref) :
    StreamRegistry Ref :=
  if self.peek victim.1 = some victim.2 then self.remove victim.1 else self

/-- The end of `delete`. -/
def discard (self : StreamRegistry Ref) (name : StreamName) : StreamRegistry Ref :=
  if (self.peek name).isSome then self.remove name else self

/-- `self._namespaces[namespace][stream_id] = stream`; the dictionary of a namespace is made when it
is needed. -/
def put (self : StreamRegistry Ref) (name : StreamName) (stream : Ref) : StreamRegistry Ref :=
  { self with
    namespaces := self.namespaces.set name.1
      (((self.namespaces.get? name.1).getD ∅).set name.2 stream) }

end StreamRegistry

end Sketchlog.Server
