import Sketchlog.Lib.Recency
import Sketchlog.Server.Registry

/-!
# What the operations of the registry do

A registry is read through `peek`, and measured by the streams of each namespace and their number in
all. For each operation its lookups and its sizes are given, and what `victim` chooses: a resident
stream, whose removal makes room.
-/

namespace Sketchlog.Server.StreamRegistry

variable {Ref : Type} {self : StreamRegistry Ref} {name name' : StreamName} {ref : Ref} {ns : String}

/-! ## Lookups

The registry is a dictionary of dictionaries, and a namespace without streams is dropped. -/

theorem peek_eq_some_iff :
    self.peek name = some ref ↔ ∃ streams, self.namespaces.get? name.1 = some streams
      ∧ streams.get? name.2 = some ref :=
  Option.bind_eq_some_iff

theorem peek_moveToEnd : (self.moveToEnd name).peek name' = self.peek name' := by
  unfold moveToEnd
  cases hstreams : self.namespaces.get? name.1 with
  | none => rfl
  | some streams =>
    show ((self.namespaces.set name.1 (streams.moveToEnd name.2)).get? name'.1).bind _ = _
    rw [Dict.get?_set]
    by_cases hns : name'.1 = name.1
    · rw [if_pos hns]
      show (streams.moveToEnd name.2).get? name'.2 = _
      rw [Dict.get?_moveToEnd, peek, hns, hstreams]
      rfl
    · rw [if_neg hns]
      rfl

theorem peek_put : (self.put name ref).peek name' = if name' = name then some ref
    else self.peek name' := by
  show ((self.namespaces.set name.1 _).get? name'.1).bind _ = _
  rw [Dict.get?_set]
  by_cases hns : name'.1 = name.1
  · rw [if_pos hns]
    show (((self.namespaces.get? name.1).getD ∅).set name.2 ref).get? name'.2 = _
    rw [Dict.get?_set]
    by_cases hid : name'.2 = name.2
    · rw [if_pos hid, if_pos (Prod.ext hns hid)]
    · have hne : name' ≠ name := fun heq => hid (congrArg Prod.snd heq)
      rw [if_neg hid, if_neg hne, peek, hns]
      cases self.namespaces.get? name.1 with
      | none => rfl
      | some streams => rfl
  · have hne : name' ≠ name := fun heq => hns (congrArg Prod.fst heq)
    rw [if_neg hns, if_neg hne]
    rfl

theorem remove_of_get? {streams : Dict String Ref} (h : self.namespaces.get? name.1 = some streams) :
    self.remove name = if (streams.pop name.2).isEmpty then
      { self with namespaces := self.namespaces.pop name.1 }
      else { self with namespaces := self.namespaces.set name.1 (streams.pop name.2) } := by
  unfold remove
  rw [h]

theorem peek_remove : (self.remove name).peek name' = if name' = name then none
    else self.peek name' := by
  cases hstreams : self.namespaces.get? name.1 with
  | none =>
    have hsame : self.remove name = self := by
      unfold remove
      rw [hstreams]
    rw [hsame]
    by_cases heq : name' = name
    · rw [if_pos heq, heq, peek, hstreams]
      rfl
    · rw [if_neg heq]
  | some streams =>
    have hpop : (streams.pop name.2).get? name'.2 = if name'.2 = name.2 then none
      else streams.get? name'.2 :=
      Dict.get?_pop
    rw [remove_of_get? hstreams]
    -- in the stream's own namespace, which is dropped when it becomes empty
    by_cases hns : name'.1 = name.1
    · have hself : self.peek name' = streams.get? name'.2 := by
        rw [peek, hns, hstreams]
        rfl
      have hiff : name' = name ↔ name'.2 = name.2 :=
        ⟨fun heq => congrArg Prod.snd heq, fun hid => Prod.ext hns hid⟩
      simp only [hiff, hself, ← hpop]
      by_cases hempty : (streams.pop name.2).isEmpty = true
      · rw [if_pos hempty, Dict.isEmpty_iff_get?.mp hempty]
        show ((self.namespaces.pop name.1).get? name'.1).bind _ = _
        rw [Dict.get?_pop, if_pos hns]
        rfl
      · rw [if_neg hempty]
        show ((self.namespaces.set name.1 _).get? name'.1).bind _ = _
        rw [Dict.get?_set, if_pos hns]
        rfl
    · -- another namespace is looked up as before
      have hne : name' ≠ name := fun heq => hns (congrArg Prod.fst heq)
      rw [if_neg hne]
      by_cases hempty : (streams.pop name.2).isEmpty = true
      · rw [if_pos hempty]
        show ((self.namespaces.pop name.1).get? name'.1).bind _ = _
        rw [Dict.get?_pop, if_neg hns]
        rfl
      · rw [if_neg hempty]
        show ((self.namespaces.set name.1 _).get? name'.1).bind _ = _
        rw [Dict.get?_set, if_neg hns]
        rfl

theorem discard_eq (self : StreamRegistry Ref) (name : StreamName) :
    self.discard name = self ∧ self.peek name = none ∨ self.discard name = self.remove name := by
  unfold discard
  cases hpeek : self.peek name with
  | none => exact .inl ⟨rfl, rfl⟩
  | some ref => exact .inr rfl

theorem peek_discard : (self.discard name).peek name' = if name' = name then none
    else self.peek name' := by
  obtain ⟨heq, hnone⟩ | heq := self.discard_eq name
  · rw [heq]
    by_cases hname : name' = name
    · rw [if_pos hname, hname, hnone]
    · rw [if_neg hname]
  · rw [heq, peek_remove]

theorem evict_of_peek [DecidableEq Ref] {victim : StreamName × Ref}
    (h : self.peek victim.1 = some victim.2) :
    self.evict victim = self.remove victim.1 := if_pos h

theorem mem_snapshotItems {item : StreamName × Ref} : item ∈ self.snapshotItems
    ↔ self.peek item.1 = some item.2 := by
  rw [snapshotItems, List.mem_flatMap, peek_eq_some_iff]
  constructor
  · intro h
    obtain ⟨kv, hkv, hitem⟩ := h
    obtain ⟨stream, hstream, heq⟩ := List.mem_map.mp hitem
    rw [← heq]
    exact ⟨kv.2, Dict.get?_eq_some_iff.mpr hkv, Dict.get?_eq_some_iff.mpr hstream⟩
  · intro h
    obtain ⟨streams, hns, hid⟩ := h
    exact ⟨_, Dict.get?_eq_some_iff.mp hns, List.mem_map.mpr ⟨_, Dict.get?_eq_some_iff.mp hid, rfl⟩⟩

/-! ## Sizes -/

/-- How many streams of a namespace are resident. -/
def sizeOf (self : StreamRegistry Ref) (ns : String) : ℕ :=
  ((self.namespaces.get? ns).map Dict.size).getD 0

theorem sizeOf_of_get? {streams : Dict String Ref} (h : self.namespaces.get? ns = some streams) :
    self.sizeOf ns = streams.size := by
  rw [sizeOf, h]
  rfl

theorem sizeOf_moveToEnd : (self.moveToEnd name).sizeOf ns = self.sizeOf ns := by
  unfold moveToEnd
  cases hstreams : self.namespaces.get? name.1 with
  | none => rfl
  | some streams =>
    show (((self.namespaces.set name.1 (streams.moveToEnd name.2)).get? ns).map Dict.size).getD 0 = _
    rw [Dict.get?_set]
    by_cases hns : ns = name.1
    · rw [if_pos hns, hns, sizeOf_of_get? hstreams]
      exact Dict.size_moveToEnd
    · rw [if_neg hns]
      rfl

theorem countLocked_moveToEnd : (self.moveToEnd name).countLocked = self.countLocked := by
  unfold moveToEnd
  cases hstreams : self.namespaces.get? name.1 with
  | none => rfl
  | some streams =>
    have hsum := Dict.sum_set_of_get? (f := fun _ (streams : Dict String Ref) => streams.size)
      (v := streams.moveToEnd name.2) hstreams
    simp only [Dict.size_moveToEnd] at hsum
    exact Nat.add_right_cancel hsum

/-- A stream that is not there yet. -/
theorem sizeOf_put (h : self.peek name = none) :
    (self.put name ref).sizeOf ns = if ns = name.1 then self.sizeOf ns + 1 else self.sizeOf ns := by
  show (((self.namespaces.set name.1 _).get? ns).map Dict.size).getD 0 = _
  rw [Dict.get?_set]
  by_cases hns : ns = name.1
  · rw [if_pos hns, if_pos hns, hns, sizeOf]
    show (((self.namespaces.get? name.1).getD ∅).set name.2 ref).size = _
    have hnot : name.2 ∉ ((self.namespaces.get? name.1).getD ∅).keys := by
      rw [← Dict.get?_eq_none_iff]
      unfold peek at h
      cases hstreams : self.namespaces.get? name.1 with
      | none => rfl
      | some streams =>
        rw [hstreams] at h
        exact h
    rw [Dict.size_set, if_neg hnot]
    cases self.namespaces.get? name.1 with
    | none => rfl
    | some streams => rfl
  · rw [if_neg hns, if_neg hns]
    rfl

theorem countLocked_put (h : self.peek name = none) :
    (self.put name ref).countLocked = self.countLocked + 1 := by
  have hsize : (((self.namespaces.get? name.1).getD ∅).set name.2 ref).size
    = self.sizeOf name.1 + 1 := by
    have hput : (self.put name ref).sizeOf name.1 = self.sizeOf name.1 + 1 :=
      (sizeOf_put h).trans (if_pos rfl)
    rw [← hput]
    exact (sizeOf_of_get? Dict.get?_set_self).symm
  have hcount : (self.namespaces.items.map fun kv => kv.2.size).sum = self.countLocked := rfl
  show ((self.namespaces.set name.1 _).items.map fun kv => kv.2.size).sum = _
  generalize ((self.namespaces.get? name.1).getD ∅).set name.2 ref = streams' at hsize ⊢
  -- the namespace is new and counts one, or it counts one more than before
  cases hstreams : self.namespaces.get? name.1 with
  | none =>
    have hsum := Dict.sum_set_of_none (f := fun _ (streams : Dict String Ref) =>
      streams.size) (v := streams') hstreams
    have hzero : self.sizeOf name.1 = 0 := by
      rw [sizeOf, hstreams]
      rfl
    rw [hsum, hsize, hzero]
    rfl
  | some streams =>
    have hsum := Dict.sum_set_of_get? (f := fun _ (streams : Dict String Ref) =>
      streams.size) (v := streams') hstreams
    rw [sizeOf_of_get? hstreams] at hsize
    simp only [hsize, hcount] at hsum
    omega

theorem sizeOf_remove (h : self.peek name = some ref) :
    (self.remove name).sizeOf ns = if ns = name.1 then self.sizeOf ns - 1 else self.sizeOf ns := by
  obtain ⟨streams, hstreams, hid⟩ := peek_eq_some_iff.mp h
  have hsize := Dict.size_pop_of_mem (Dict.mem_keys_of_get? hid)
  rw [remove_of_get? hstreams]
  -- a namespace that became empty is dropped, and its size is zero either way
  by_cases hempty : (streams.pop name.2).isEmpty = true
  · rw [if_pos hempty]
    show (((self.namespaces.pop name.1).get? ns).map Dict.size).getD 0 = _
    rw [Dict.get?_pop]
    by_cases hns : ns = name.1
    · have hzero : (streams.pop name.2).size = 0 := by
        rw [Dict.size, Dict.isEmpty_iff.mp hempty]
        rfl
      rw [if_pos hns, if_pos hns, hns, sizeOf_of_get? hstreams]
      show 0 = _
      omega
    · rw [if_neg hns, if_neg hns]
      rfl
  · rw [if_neg hempty]
    show (((self.namespaces.set name.1 _).get? ns).map Dict.size).getD 0 = _
    rw [Dict.get?_set]
    by_cases hns : ns = name.1
    · rw [if_pos hns, if_pos hns, hns, sizeOf_of_get? hstreams]
      show (streams.pop name.2).size = _
      omega
    · rw [if_neg hns, if_neg hns]
      rfl

theorem countLocked_remove (h : self.peek name = some ref) :
    (self.remove name).countLocked + 1 = self.countLocked := by
  obtain ⟨streams, hstreams, hid⟩ := peek_eq_some_iff.mp h
  have hsize := Dict.size_pop_of_mem (Dict.mem_keys_of_get? hid)
  have hcount : (self.namespaces.items.map fun kv => kv.2.size).sum = self.countLocked := rfl
  rw [remove_of_get? hstreams]
  by_cases hempty : (streams.pop name.2).isEmpty = true
  · have hzero : (streams.pop name.2).size = 0 := by
      rw [Dict.size, Dict.isEmpty_iff.mp hempty]
      rfl
    have hsum := Recency.sum_pop_of_get? (f := fun _ (streams : Dict String Ref) => streams.size)
      hstreams
    rw [if_pos hempty]
    show ((self.namespaces.pop name.1).items.map fun kv => kv.2.size).sum + 1 = _
    simp only [hcount] at hsum
    omega
  · have hsum := Dict.sum_set_of_get? (f := fun _ (streams : Dict String Ref) => streams.size)
      (v := streams.pop name.2) hstreams
    rw [if_neg hempty]
    show ((self.namespaces.set name.1 (streams.pop name.2)).items.map fun kv => kv.2.size).sum + 1 = _
    simp only [hcount] at hsum
    omega

/-! ## The victim

The namespace gives up its first stream if it is full, the registry its first if that is full. -/

theorem firstStream_peek {victim : StreamName × Ref} (h : self.firstStream = some victim) :
    self.peek victim.1 = some victim.2 := by
  obtain ⟨kv, hkv, hmap⟩ := List.exists_of_findSome?_eq_some h
  obtain ⟨item, hitem, heq⟩ := Option.map_eq_some_iff.mp hmap
  rw [← heq]
  exact peek_eq_some_iff.mpr ⟨kv.2, Dict.get?_eq_some_iff.mpr hkv, Dict.first?_get? hitem⟩

/-- The two ways in which a victim is chosen, and the one in which there is none. -/
theorem victim_cases (self : StreamRegistry Ref) (ns : String) :
    (∃ streams item, self.namespaces.get? ns = some streams ∧ streams.first? = some item
        ∧ self.maxStreamsPerNs ≤ self.sizeOf ns ∧ self.victim ns = some ((ns, item.1), item.2))
      ∨ ((0 < self.sizeOf ns → self.sizeOf ns < self.maxStreamsPerNs)
        ∧ self.victim ns = if self.maxStreams ≤ self.countLocked then self.firstStream else none) := by
  unfold victim
  -- an unknown or empty namespace falls through to the limit on all streams
  cases hstreams : self.namespaces.get? ns with
  | none =>
    refine .inr ⟨fun hpos => ?_, rfl⟩
    rw [sizeOf, hstreams] at hpos
    exact absurd hpos (Nat.lt_irrefl 0)
  | some streams =>
    rw [sizeOf_of_get? hstreams]
    -- a full namespace gives up its own first stream
    by_cases hfull : streams.isEmpty = false ∧ self.maxStreamsPerNs ≤ streams.size
    · cases hfirst : streams.first? with
      | none =>
        rw [Dict.first?_eq_none_iff, hfull.1] at hfirst
        cases hfirst
      | some item =>
        refine .inl ⟨streams, item, rfl, hfirst, hfull.2, ?_⟩
        simp only [if_pos hfull]
        rw [hfirst]
        rfl
    · refine .inr ⟨fun hpos => ?_, if_neg hfull⟩
      have hsome : streams.isEmpty = false := by
        rw [← Bool.not_eq_true, Dict.isEmpty_iff]
        intro hnil
        rw [Dict.size, hnil] at hpos
        exact Nat.lt_irrefl 0 hpos
      exact not_le.mp fun hle => hfull ⟨hsome, hle⟩

theorem victim_peek {victim : StreamName × Ref} (h : self.victim ns = some victim) :
    self.peek victim.1 = some victim.2 := by
  obtain ⟨streams, item, hstreams, hfirst, -, hvictim⟩ | ⟨-, hvictim⟩ := self.victim_cases ns
  · rw [hvictim, Option.some.injEq] at h
    rw [← h]
    exact peek_eq_some_iff.mpr ⟨streams, hstreams, Dict.first?_get? hfirst⟩
  · rw [hvictim] at h
    obtain ⟨-, hfirst⟩ := Option.ite_none_right_eq_some.mp h
    exact firstStream_peek hfirst

end Sketchlog.Server.StreamRegistry
