import Sketchlog.Properties.SaveLabels
import Sketchlog.Refine.RegistrySteps
import Sketchlog.Server.Host

/-!
# The limits of the registry, and its order

A stream is put into the registry after an `await` that followed the check for room, while requests
that take no lock come and go. What they do leaves the sizes as they are, and what changes a size
holds the operation lock. So the limits hold at every moment (`registry_within_limits`), and the
stream that a full namespace gives up is the one that no request has come to for the longest time
(`victim_least_recently_used`).
-/

namespace Sketchlog.Server

open Storage Runs Recency

namespace StreamRegistry

variable {Ref : Type} {self : StreamRegistry Ref} {name : StreamName} {ref : Ref} {ns : String}
    {uses : List StreamName}

/-- No namespace has too many streams, or none, and the server has not too many. -/
structure Within (r : StreamRegistry Ref) : Prop where
  nonempty : ∀ ns streams, r.namespaces.get? ns = some streams → 0 < streams.size
  namespaces : ∀ ns, r.sizeOf ns ≤ r.maxStreamsPerNs
  total : r.countLocked ≤ r.maxStreams

/-- There is room for one more stream of the namespace. -/
def HasRoom (self : StreamRegistry Ref) (ns : String) : Prop :=
  self.sizeOf ns < self.maxStreamsPerNs ∧ self.countLocked < self.maxStreams

/-- The streams of each namespace are in the order of their last use. -/
def InOrder (self : StreamRegistry Ref) (uses : List StreamName) : Prop :=
  ∀ ns streams, self.namespaces.get? ns = some streams → Ordered uses (streams.keys.map (Prod.mk ns))

/-! ## A stream is used -/

theorem moveToEnd_limits (self : StreamRegistry Ref) (name : StreamName) :
    (self.moveToEnd name).maxStreamsPerNs = self.maxStreamsPerNs ∧ (self.moveToEnd name).maxStreams
      = self.maxStreams
      ∧ (self.moveToEnd name).storage = self.storage := by
  unfold moveToEnd
  split
  · exact ⟨rfl, rfl, rfl⟩
  · exact ⟨rfl, rfl, rfl⟩

theorem remove_limits (self : StreamRegistry Ref) (name : StreamName) :
    (self.remove name).maxStreamsPerNs = self.maxStreamsPerNs ∧ (self.remove name).maxStreams
      = self.maxStreams
      ∧ (self.remove name).storage = self.storage := by
  unfold remove
  split
  · split
    · exact ⟨rfl, rfl, rfl⟩
    · exact ⟨rfl, rfl, rfl⟩
  · exact ⟨rfl, rfl, rfl⟩

/-- What `get?` finds after one value was replaced. -/
theorem get?_set_cases {streams streams' : Dict String Ref} {ns' : String}
    (h : (self.namespaces.set ns streams).get? ns' = some streams') :
    ns' = ns ∧ streams' = streams ∨ ns' ≠ ns ∧ self.namespaces.get? ns' = some streams' := by
  rw [Dict.get?_set] at h
  by_cases hns : ns' = ns
  · rw [if_pos hns, Option.some.injEq] at h
    exact .inl ⟨hns, h.symm⟩
  · rw [if_neg hns] at h
    exact .inr ⟨hns, h⟩

theorem Within.moveToEnd (h : self.Within) (hpeek : self.peek name = some ref) :
    (self.moveToEnd name).Within := by
  obtain ⟨hmax, htotal, -⟩ := self.moveToEnd_limits name
  refine ⟨?_, fun ns => ?_, ?_⟩
  · intro ns' streams' hget
    obtain ⟨streams, hstreams, -⟩ := peek_eq_some_iff.mp hpeek
    have hmove : self.moveToEnd name
        = { self with namespaces := self.namespaces.set name.1 (streams.moveToEnd name.2) } := by
      unfold StreamRegistry.moveToEnd
      rw [hstreams]
    rw [hmove] at hget
    obtain ⟨-, heq⟩ | ⟨-, hget⟩ := get?_set_cases hget
    · rw [heq, Dict.size_moveToEnd]
      exact h.nonempty _ _ hstreams
    · exact h.nonempty _ _ hget
  · rw [sizeOf_moveToEnd, hmax]
    exact h.namespaces ns
  · rw [countLocked_moveToEnd, htotal]
    exact h.total

theorem InOrder.moveToEnd (h : self.InOrder uses) (hpeek : self.peek name = some ref) :
    (self.moveToEnd name).InOrder (name :: uses) := by
  obtain ⟨streams, hstreams, hid⟩ := peek_eq_some_iff.mp hpeek
  have hmove : self.moveToEnd name
      = { self with namespaces := self.namespaces.set name.1 (streams.moveToEnd name.2) } := by
    unfold StreamRegistry.moveToEnd
    rw [hstreams]
  intro ns' streams' hget
  rw [hmove] at hget
  obtain ⟨hns, heq⟩ | ⟨hns, hget⟩ := get?_set_cases hget
  · have hkeys : (streams.moveToEnd name.2).keys.map (Prod.mk name.1)
        = (streams.keys.map (Prod.mk name.1)).filter (· ≠ name) ++ [name] := by
      rw [keys_moveToEnd hid, List.map_append, List.filter_map]
      refine congrArg₂ _ (congrArg _ (List.filter_congr fun id _ => ?_)) rfl
      exact decide_eq_decide.mpr
        (not_congr ⟨fun heq => Prod.ext rfl heq, fun heq => congrArg Prod.snd heq⟩)
    rw [heq, hns, hkeys]
    exact (h _ _ hstreams).use name
  · refine (h _ _ hget).use_of_not_mem fun hmem => ?_
    obtain ⟨id, -, heq⟩ := List.mem_map.mp hmem
    exact hns (congrArg Prod.fst heq)

/-! ## A stream is removed -/

theorem Within.remove (h : self.Within) (hpeek : self.peek name = some ref) :
    (self.remove name).Within := by
  obtain ⟨hmax, htotal, -⟩ := self.remove_limits name
  have hcount := countLocked_remove hpeek
  -- three limits: no namespace is empty, none is above its maximum, nor is the total
  refine ⟨?_, fun ns => ?_, ?_⟩
  · intro ns' streams' hget
    obtain ⟨streams, hstreams, -⟩ := peek_eq_some_iff.mp hpeek
    rw [remove_of_get? hstreams] at hget
    by_cases hempty : (streams.pop name.2).isEmpty = true
    · rw [if_pos hempty] at hget
      have hpop : (self.namespaces.pop name.1).get? ns' = some streams' := hget
      rw [Dict.get?_pop] at hpop
      obtain ⟨-, hpop⟩ := Option.ite_none_left_eq_some.mp hpop
      exact h.nonempty _ _ hpop
    · -- a namespace that stays does so because something is left in it
      rw [if_neg hempty] at hget
      obtain ⟨-, heq⟩ | ⟨-, hget⟩ := get?_set_cases hget
      · rw [heq]
        exact List.length_pos_iff.mpr fun hnil => hempty (Dict.isEmpty_iff.mpr hnil)
      · exact h.nonempty _ _ hget
  · rw [sizeOf_remove hpeek, hmax]
    have hns := h.namespaces ns
    split
    · omega
    · exact hns
  · rw [htotal]
    have hle := h.total
    omega

theorem InOrder.remove (h : self.InOrder uses) (name : StreamName) :
    (self.remove name).InOrder uses := by
  intro ns' streams' hget
  cases hstreams : self.namespaces.get? name.1 with
  | none =>
    have hsame : self.remove name = self := by
      unfold StreamRegistry.remove
      rw [hstreams]
    rw [hsame] at hget
    exact h _ _ hget
  | some streams =>
    rw [remove_of_get? hstreams] at hget
    by_cases hempty : (streams.pop name.2).isEmpty = true
    · rw [if_pos hempty] at hget
      have hpop : (self.namespaces.pop name.1).get? ns' = some streams' := hget
      rw [Dict.get?_pop] at hpop
      exact h _ _ (Option.ite_none_left_eq_some.mp hpop).2
    · rw [if_neg hempty] at hget
      obtain ⟨hns, heq⟩ | ⟨-, hget⟩ := get?_set_cases hget
      · rw [heq, hns, Dict.keys_pop]
        exact (h _ _ hstreams).sublist (List.filter_sublist.map _)
      · exact h _ _ hget

/-! ## A stream is put in

There has to be room. The new stream is the one used last. -/

theorem Within.put (h : self.Within) (hpeek : self.peek name = none) (hroom : self.HasRoom name.1) :
    (self.put name ref).Within := by
  refine ⟨?_, fun ns => ?_, ?_⟩
  · intro ns' streams' hget
    obtain ⟨hns, heq⟩ | ⟨-, hget⟩ := get?_set_cases hget
    · have hsize : (self.put name ref).sizeOf name.1 = self.sizeOf name.1 + 1 :=
        (sizeOf_put hpeek).trans (if_pos rfl)
      rw [sizeOf_of_get? (hns ▸ hget)] at hsize
      omega
    · exact h.nonempty _ _ hget
  · rw [sizeOf_put hpeek]
    have hle := h.namespaces ns
    split
    · next hns =>
      rw [hns]
      exact hroom.1
    · exact hle
  · rw [countLocked_put hpeek]
    exact hroom.2

theorem InOrder.put (h : self.InOrder uses) (hpeek : self.peek name = none) :
    (self.put name ref).InOrder (name :: uses) := by
  intro ns' streams' hget
  obtain ⟨hns, heq⟩ | ⟨hns, hget⟩ := get?_set_cases hget
  · -- the stream was not in its namespace, so it goes to the end of the order
    have hnot : name.2 ∉ ((self.namespaces.get? name.1).getD ∅).keys := by
      rw [← Dict.get?_eq_none_iff]
      unfold peek at hpeek
      cases hstreams : self.namespaces.get? name.1 with
      | none => rfl
      | some streams =>
        rw [hstreams] at hpeek
        exact hpeek
    have hall : ((self.namespaces.get? name.1).getD ∅).keys.filter (· ≠ name.2)
        = ((self.namespaces.get? name.1).getD ∅).keys :=
      List.filter_eq_self.mpr fun a ha => decide_eq_true fun heq => hnot (heq ▸ ha)
    have hordered : Ordered uses
      (((self.namespaces.get? name.1).getD ∅).keys.map (Prod.mk name.1)) := by
      cases hstreams : self.namespaces.get? name.1 with
      | none => exact List.Pairwise.nil
      | some streams => exact h _ _ hstreams
    rw [heq, hns, keys_set_of_not_mem hnot, hall, List.map_append]
    have huse := hordered.use name
    rw [List.filter_eq_self.mpr] at huse
    · exact huse
    · intro other hother
      obtain ⟨id, hid, heq⟩ := List.mem_map.mp hother
      refine decide_eq_true fun hsame => hnot ?_
      rw [← congrArg Prod.snd (heq.trans hsame)]
      exact hid
  · -- another namespace does not have the name, whose use changes nothing there
    refine (h _ _ hget).use_of_not_mem fun hmem => ?_
    obtain ⟨id, -, heq⟩ := List.mem_map.mp hmem
    exact hns (congrArg Prod.fst heq)

/-! ## Room

Evicting the victim makes room for one more stream. -/

theorem firstStream_eq_none (hfirst : self.firstStream = none) : self.countLocked = 0 := by
  refine List.sum_eq_zero fun size hsize => ?_
  obtain ⟨kv, hkv, heq⟩ := List.mem_map.mp hsize
  have hnone := List.findSome?_eq_none_iff.mp hfirst kv hkv
  rw [Option.map_eq_none_iff, Dict.first?_eq_none_iff, Dict.isEmpty_iff] at hnone
  rw [← heq, Dict.size, hnone]
  rfl

/-- Where there is no victim there is room. -/
theorem hasRoom_of_victim_none (hmax : 0 < self.maxStreamsPerNs) (htotal : 0 < self.maxStreams)
    (hnone : self.victim ns = none) : self.HasRoom ns := by
  obtain ⟨_, _, -, -, -, hsome⟩ | ⟨hsize, hvictim⟩ := self.victim_cases ns
  · rw [hsome] at hnone
    cases hnone
  · refine ⟨?_, ?_⟩
    · by_cases hpos : 0 < self.sizeOf ns
      · exact hsize hpos
      · omega
    · rw [hvictim] at hnone
      by_cases hfull : self.maxStreams ≤ self.countLocked
      · rw [if_pos hfull] at hnone
        have hzero := firstStream_eq_none hnone
        omega
      · exact not_le.mp hfull

/-- The removal of the victim makes room. -/
theorem hasRoom_remove_victim (h : self.Within) (hmax : 0 < self.maxStreamsPerNs)
    {victim : StreamName × Ref}
    (hvictim : self.victim ns = some victim) : (self.remove victim.1).HasRoom ns := by
  have hpeek := victim_peek hvictim
  obtain ⟨hlimit, hlimit', -⟩ := self.remove_limits victim.1
  have hcount := countLocked_remove hpeek
  have htotal := h.total
  unfold HasRoom
  rw [hlimit, hlimit', sizeOf_remove hpeek]
  refine ⟨?_, by omega⟩
  obtain ⟨streams, item, hstreams, -, -, hfull⟩ | ⟨hsize, -⟩ := self.victim_cases ns
  · rw [hfull, Option.some.injEq] at hvictim
    have hns : ns = victim.1.1 := by rw [← hvictim]
    have hle := h.namespaces ns
    rw [if_pos hns]
    omega
  · split
    · have hle := h.namespaces ns
      omega
    · by_cases hpos : 0 < self.sizeOf ns
      · exact hsize hpos
      · omega

theorem hasRoom_remove_moveToEnd {victim : StreamName} (hpeek : self.peek victim = some ref)
    (h : (self.remove victim).HasRoom ns) (name : StreamName) :
    ((self.moveToEnd name).remove victim).HasRoom ns := by
  have hpeek' : (self.moveToEnd name).peek victim = some ref := peek_moveToEnd.trans hpeek
  obtain ⟨hlimit, hlimit', -⟩ := self.remove_limits victim
  obtain ⟨hlimit₁, hlimit₁', -⟩ := (self.moveToEnd name).remove_limits victim
  obtain ⟨hlimit₂, hlimit₂', -⟩ := self.moveToEnd_limits name
  have hcount := countLocked_remove hpeek
  have hcount' := countLocked_remove hpeek'
  rw [countLocked_moveToEnd] at hcount'
  unfold HasRoom at h ⊢
  rw [hlimit, hlimit', sizeOf_remove hpeek] at h
  rw [hlimit₁, hlimit₁', hlimit₂, hlimit₂', sizeOf_remove hpeek', sizeOf_moveToEnd]
  exact ⟨h.1, by omega⟩

/-! ## The registry as a whole -/

/-- A registry with the given limits, which it keeps, whose streams are in order. -/
structure Sound (r : StreamRegistry Ref) (limits : ℕ × ℕ × Bool) (uses : List StreamName) : Prop where
  limits : (r.maxStreamsPerNs, r.maxStreams, r.storage) = limits
  within : r.Within
  inOrder : r.InOrder uses

variable {limits : ℕ × ℕ × Bool}

theorem sound_new (maxStreamsPerNs maxStreams : ℕ) (storage : Bool) :
    (new maxStreamsPerNs maxStreams storage : StreamRegistry Ref).Sound
    (maxStreamsPerNs, maxStreams, storage) [] where
  limits := rfl
  within := by
    refine ⟨fun ns streams h => ?_, fun _ => Nat.zero_le _, Nat.zero_le _⟩
    cases h
  inOrder := fun ns streams h => by cases h

theorem Sound.moveToEnd (h : self.Sound limits uses) (hpeek : self.peek name = some ref) :
    (self.moveToEnd name).Sound limits (name :: uses) := by
  obtain ⟨hmax, htotal, hstorage⟩ := self.moveToEnd_limits name
  refine ⟨?_, h.within.moveToEnd hpeek, h.inOrder.moveToEnd hpeek⟩
  rw [hmax, htotal, hstorage]
  exact h.limits

theorem Sound.remove (h : self.Sound limits uses) (hpeek : self.peek name = some ref) :
    (self.remove name).Sound limits uses := by
  obtain ⟨hmax, htotal, hstorage⟩ := self.remove_limits name
  refine ⟨?_, h.within.remove hpeek, h.inOrder.remove name⟩
  rw [hmax, htotal, hstorage]
  exact h.limits

theorem Sound.put (h : self.Sound limits uses) (hpeek : self.peek name = none)
    (hroom : self.HasRoom name.1) :
    (self.put name ref).Sound limits (name :: uses) :=
  ⟨h.limits, h.within.put hpeek hroom, h.inOrder.put hpeek⟩

theorem Sound.discard (h : self.Sound limits uses) (name : StreamName) :
    (self.discard name).Sound limits uses := by
  unfold StreamRegistry.discard
  cases hpeek : self.peek name with
  | none => exact h
  | some ref => exact h.remove hpeek

end StreamRegistry

/-! ## Every interleaving

An operation waits for the storage while others run. `Waits` is what an operation relies on
meanwhile, and no step of another takes it away. -/

namespace Host

variable {M : IndexMapping} {K : LogKind M} {D : Saver K.Log} {s s' : Host K D} {empty : K.Log}
  {limits : ℕ × ℕ × Bool}

/-- What the holder of the lock relies on while it waits. -/
def Waits (s : Host K D) (op : Operation K.Log) : Prop :=
  match op.stage with
  | .loading => s.registry.peek op.name = none
  | .loaded _ => s.registry.peek op.name = none
  | .saving _ victim => s.registry.peek op.name = none ∧ s.registry.peek victim.1 = some victim.2
      ∧ (s.registry.remove victim.1).HasRoom op.name.1
  | .saved _ victim => s.registry.peek op.name = none ∧ s.registry.peek victim.1 = some victim.2
      ∧ (s.registry.remove victim.1).HasRoom op.name.1
  | .deleting => True
  | .deleted => True

structure Bounded (limits : ℕ × ℕ × Bool) (s : Host K D) : Prop where
  registry : s.registry.Sound limits s.uses
  operation : ∀ op, s.operation = some op → s.Waits op

theorem bounded_new (maxStreamsPerNs maxStreams : ℕ) (storage : Bool) (clock : ℚ) :
    (new (.new maxStreamsPerNs maxStreams storage) clock : Host K D).Bounded
      (maxStreamsPerNs, maxStreams, storage) where
  registry := StreamRegistry.sound_new maxStreamsPerNs maxStreams storage
  operation := fun _ h => by cases h

/-- The lock is free after a step. -/
theorem Bounded.of_none (hregistry : s.registry.Sound limits s.uses) (hnone : s.operation = none) :
    s.Bounded limits where
  registry := hregistry
  operation := fun _ h => by
    rw [hnone] at h
    cases h

/-- Neither the registry nor the lock has changed. -/
theorem Bounded.of_same (h : s.Bounded limits) (hregistry : s'.registry = s.registry)
    (huses : s'.uses = s.uses)
    (hoperation : s'.operation = s.operation) : s'.Bounded limits where
  registry := by
    rw [hregistry, huses]
    exact h.registry
  operation := fun op hop => by
    rw [hoperation] at hop
    have hwaits := h.operation op hop
    unfold Waits at hwaits ⊢
    rw [hregistry]
    exact hwaits

/-- A request without the lock comes to a stream. -/
theorem Bounded.use (h : s.Bounded limits) {name : StreamName} {ref : ℕ}
    (hpeek : s.registry.peek name = some ref) :
    (s.use name).Bounded limits where
  registry := h.registry.moveToEnd hpeek
  operation := fun op hop => by
    have hwaits := h.operation op hop
    have hsame (other : StreamName) : (s.use name).registry.peek other = s.registry.peek other :=
      StreamRegistry.peek_moveToEnd
    unfold Waits at hwaits ⊢
    -- the victim is as it was, and moving another stream to the end makes no less room
    cases hstage : op.stage with
    | saving stream victim =>
      simp only [hstage] at hwaits ⊢
      rw [hsame, hsame]
      exact ⟨hwaits.1, hwaits.2.1, StreamRegistry.hasRoom_remove_moveToEnd hwaits.2.1 hwaits.2.2 name⟩
    | saved stream victim =>
      simp only [hstage] at hwaits ⊢
      rw [hsame, hsame]
      exact ⟨hwaits.1, hwaits.2.1, StreamRegistry.hasRoom_remove_moveToEnd hwaits.2.1 hwaits.2.2 name⟩
    | loading =>
      simp only [hstage, hsame] at hwaits ⊢
      exact hwaits
    | loaded stream =>
      simp only [hstage, hsame] at hwaits ⊢
      exact hwaits
    | deleting => trivial
    | deleted => trivial

/-- What the end of a request does to the registry. -/
theorem complete_registry {op : Operation K.Log} {stream : Option (ThreadSafeStreamLog K.Log)}
    {created : Binary64}
    {calls : List (K.Update × Binary64)} (h : s.complete empty op stream created calls = some s') :
    s'.operation = none ∧
      (s'.registry = s.registry ∧ s'.uses = s.uses
        ∨ (∃ ref, s.registry.peek op.name = some ref) ∧ s'.registry = s.registry.moveToEnd op.name
          ∧ s'.uses = op.name :: s.uses
        ∨ s.registry.peek op.name = none ∧ s'.registry = s.registry.put op.name s.objects.length
          ∧ s'.uses = op.name :: s.uses) := by
  unfold complete at h
  -- an object is there already and is moved to the end, or a new one is put in
  split at h
  · next stream _ _ _ =>
    cases h
    unfold finish
    cases hpeek : s.registry.peek op.name with
    | some existing => exact ⟨rfl, .inr (.inl ⟨⟨existing, rfl⟩, rfl, rfl⟩)⟩
    | none => cases stream <;> exact ⟨rfl, .inr (.inr ⟨rfl, rfl, rfl⟩)⟩
  · cases h
    unfold finishGet
    cases hpeek : s.registry.peek op.name with
    | some existing => exact ⟨rfl, .inl ⟨rfl, rfl⟩⟩
    | none => exact ⟨rfl, .inr (.inr ⟨rfl, rfl, rfl⟩)⟩
  · cases h
    exact ⟨rfl, .inl ⟨rfl, rfl⟩⟩
  · cases h

/-- A request ends where there is room. -/
theorem bounded_complete (hregistry : s.registry.Sound limits s.uses) {op : Operation K.Log}
    {stream : Option (ThreadSafeStreamLog K.Log)} {created : Binary64}
    {calls : List (K.Update × Binary64)}
    (hroom : s.registry.peek op.name = none → s.registry.HasRoom op.name.1)
    (h : s.complete empty op stream created calls = some s') : s'.Bounded limits := by
  obtain ⟨hnone, ⟨hsame, huses⟩ | ⟨⟨ref, hpeek⟩, hmove, huses⟩ | ⟨hpeek, hput, huses⟩⟩ :=
    complete_registry h
  · refine .of_none ?_ hnone
    rw [hsame, huses]
    exact hregistry
  · refine .of_none ?_ hnone
    rw [hmove, huses]
    exact hregistry.moveToEnd hpeek
  · refine .of_none ?_ hnone
    rw [hput, huses]
    exact hregistry.put hpeek (hroom hpeek)

theorem bounded_storageStep (h : s.Bounded limits) (hstep : s.storageStep = some s') :
    s'.Bounded limits ∧ s'.registry = s.registry := by
  unfold storageStep at hstep
  -- a step of the storage moves the operation on and leaves the registry
  split at hstep
  · next request name hop =>
    obtain ⟨stream, -, hs'⟩ := Option.map_eq_some_iff.mp hstep
    subst hs'
    refine ⟨⟨h.registry, fun op hop' => ?_⟩, rfl⟩
    cases hop'
    exact h.operation _ hop
  · next request name stream victim hop =>
    split at hstep
    · split at hstep
      · cases hstep
        refine ⟨⟨h.registry, fun op hop' => ?_⟩, rfl⟩
        cases hop'
        exact h.operation _ hop
      · cases hstep
        exact ⟨.of_none h.registry rfl, rfl⟩
    · cases hstep
  · cases hstep
    refine ⟨⟨h.registry, fun op hop' => ?_⟩, rfl⟩
    cases hop'
    trivial
  · cases hstep

theorem bounded_resumeStep (hmax : 0 < limits.1) (htotal : 0 < limits.2.1) (h : s.Bounded limits)
    {created : Binary64}
    {calls : List (K.Update × Binary64)} (hstep : s.resumeStep empty created calls = some s') :
      s'.Bounded limits := by
  have hlimits := h.registry.limits
  have hmax' : 0 < s.registry.maxStreamsPerNs := by
    rw [← hlimits] at hmax
    exact hmax
  have htotal' : 0 < s.registry.maxStreams := by
    rw [← hlimits] at htotal
    exact htotal
  unfold resumeStep at hstep
  split at hstep
  · next request name stream hop =>
    have hpeek : s.registry.peek name = none := h.operation _ hop
    split at hstep
    · cases hstep
      exact .of_none h.registry rfl
    · split at hstep
      · next victim hvictim =>
        -- the victim is chosen, and its removal will make room
        cases hstep
        refine ⟨h.registry, fun op hop' => ?_⟩
        cases hop'
        exact ⟨hpeek, StreamRegistry.victim_peek hvictim,
          StreamRegistry.hasRoom_remove_victim h.registry.within hmax' hvictim⟩
      · next hnone =>
        exact bounded_complete h.registry (fun _ =>
          StreamRegistry.hasRoom_of_victim_none hmax' htotal' hnone) hstep
  · next request name stream victim hop =>
    obtain ⟨hpeek, hvictim, hroom⟩ := h.operation _ hop
    -- the victim is still there, as nobody else holds the lock
    rw [StreamRegistry.evict_of_peek hvictim] at hstep
    exact bounded_complete (s := { s with registry := s.registry.remove victim.1 })
      (h.registry.remove hvictim)
      (fun _ => hroom) hstep
  · cases hstep
    exact .of_none (h.registry.discard _) rfl
  · cases hstep

theorem bounded_getOrCreate (hmax : 0 < limits.1) (htotal : 0 < limits.2.1) (h : s.Bounded limits)
    {name : StreamName}
    {created : Binary64} {calls : List (K.Update × Binary64)}
    (hstep : s.step empty (.getOrCreate name created calls) = some s') : s'.Bounded limits := by
  have hlimits := h.registry.limits
  have hmax' : 0 < s.registry.maxStreamsPerNs := by
    rw [← hlimits] at hmax
    exact hmax
  have htotal' : 0 < s.registry.maxStreams := by
    rw [← hlimits] at htotal
    exact htotal
  -- without storage a created stream is put in at once
  have hcomplete (s : Host K D) :
      s.complete empty ⟨.getOrCreate, name, .loading⟩ none created calls
        = some (s.finish empty name none created calls) := rfl
  simp only [Host.step] at hstep
  split at hstep
  · cases hstep
  · split at hstep
    · next hload =>
      cases hstep
      refine ⟨h.registry, fun op hop => ?_⟩
      cases hop
      rw [Bool.and_eq_true, Option.isNone_iff_eq_none] at hload
      exact hload.1
    · split at hstep
      · -- a victim is evicted, and that makes room for the new stream
        next victim hpeek hvictim =>
        rw [StreamRegistry.evict_of_peek (StreamRegistry.victim_peek hvictim)] at hstep
        refine bounded_complete (h.registry.remove (StreamRegistry.victim_peek hvictim))
          (fun _ => ?_) ((hcomplete { s with registry := s.registry.remove victim.1 }).trans hstep)
        exact StreamRegistry.hasRoom_remove_victim h.registry.within hmax' hvictim
      · -- without a victim neither limit is reached
        next hother =>
        refine bounded_complete h.registry (fun hpeek => ?_) ((hcomplete s).trans hstep)
        refine StreamRegistry.hasRoom_of_victim_none hmax' htotal' ?_
        exact Option.eq_none_iff_forall_ne_some.mpr
          fun victim hvictim => hother victim hpeek hvictim

/-- The flush loop reads, and writes to the storage. -/
theorem flush_same {part : Flush} (hstep : s.flushStep part = some s') :
    s'.registry = s.registry ∧ s'.uses = s.uses ∧ s'.operation = s.operation := by
  have hread (read : Copy K.Log → ThreadSafeStreamLog K.Log → Option (Copy K.Log))
    (h : s.readStep read = some s') :
      s'.registry = s.registry ∧ s'.uses = s.uses ∧ s'.operation = s.operation := by
    unfold readStep at h
    split at h
    · cases h
    · split at h
      · obtain ⟨copy, -, hs'⟩ := Option.map_eq_some_iff.mp h
        subst hs'
        exact ⟨rfl, rfl, rfl⟩
      · cases h
  -- every part of a flush reads or writes the copy, never the registry
  cases part with
  | snapshot =>
    simp only [flushStep] at hstep
    split at hstep
    · cases hstep
      exact ⟨rfl, rfl, rfl⟩
    · cases hstep
  | serialize =>
    simp only [flushStep] at hstep
    exact hread _ hstep
  | stamp =>
    simp only [flushStep] at hstep
    exact hread _ hstep
  | write =>
    simp only [flushStep] at hstep
    split at hstep
    · split at hstep
      · cases hstep
        exact ⟨rfl, rfl, rfl⟩
      · cases hstep
        exact ⟨rfl, rfl, rfl⟩
    · cases hstep
  | skip =>
    simp only [flushStep] at hstep
    split at hstep
    · cases hstep
      exact ⟨rfl, rfl, rfl⟩
    · cases hstep

/-- One step. -/
theorem Bounded.step (hmax : 0 < limits.1) (htotal : 0 < limits.2.1) {a : Action K}
    (h : s.Bounded limits)
    (hstep : s.step empty a = some s') : s'.Bounded limits := by
  cases a with
  | getOrCreate name created calls => exact bounded_getOrCreate hmax htotal h hstep
  | get name =>
    simp only [Host.step] at hstep
    split at hstep
    · next ref hpeek =>
      cases hstep
      exact h.use hpeek
    · next hpeek =>
      split at hstep
      · cases hstep
        -- a stream that is not resident is loaded first, and is still not resident meanwhile
        refine ⟨h.registry, fun op hop => ?_⟩
        cases hop
        exact hpeek
      · cases hstep
        exact h
      · cases hstep
  -- with storage the stream leaves when its row is gone, without it leaves at once
  | delete name =>
    simp only [Host.step] at hstep
    split at hstep
    · cases hstep
    · cases hstep
      refine ⟨h.registry, fun op hop => ?_⟩
      cases hop
      trivial
    · next hnone _ =>
      cases hstep
      exact .of_none (h.registry.discard name) hnone
  -- the row alone is deleted, and the stream keeps its place
  | deleteStored name =>
    simp only [Host.step] at hstep
    split at hstep
    · cases hstep
      exact h.of_same rfl rfl rfl
    · cases hstep
  | forget name =>
    simp only [Host.step] at hstep
    split at hstep
    · next hnone _ =>
      cases hstep
      exact .of_none (h.registry.discard name) hnone
    · cases hstep
  | storage => exact (bounded_storageStep h hstep).1
  | resume created calls => exact bounded_resumeStep hmax htotal h hstep
  -- an exception ends the operation where it stands and leaves the registry
  | raise =>
    simp only [Host.step] at hstep
    split at hstep
    · cases hstep
      exact .of_none h.registry rfl
    · cases hstep
      exact .of_none h.registry rfl
    · cases hstep
      exact .of_none h.registry rfl
    · cases hstep
  | flush part =>
    obtain ⟨hregistry, huses, hoperation⟩ := flush_same hstep
    exact h.of_same hregistry huses hoperation

/-- Every server that has run for a while. -/
theorem bounded_of_run {maxStreamsPerNs maxStreams : ℕ} {storage : Bool} {clock : ℚ}
    {as : List (Action K)}
    (hmax : 0 < maxStreamsPerNs) (htotal : 0 < maxStreams)
    (hrun : run (step empty) (new (.new maxStreamsPerNs maxStreams storage) clock : Host K D) as
      = some s) :
    s.Bounded (maxStreamsPerNs, maxStreams, storage) :=
  run_invariant (fun _ _ _ h _ hstep => h.step hmax htotal hstep)
    (bounded_new maxStreamsPerNs maxStreams storage clock)
    meets_true hrun

/-- While the lock is held, only its holder, going on after its storage call, changes what is
resident. -/
theorem peek_step_of_held {op : Operation K.Log} (hop : s.operation = some op) {a : Action K}
    (ha : ∀ created calls, a ≠ .resume created calls) (hstep : s.step empty a = some s')
    (name : StreamName) :
    s'.registry.peek name = s.registry.peek name := by
  -- while an operation is held no request starts, so only `get` touches the registry
  cases a with
  | getOrCreate name' created calls =>
    simp only [Host.step, hop] at hstep
    cases hstep
  | get name' =>
    simp only [Host.step, hop] at hstep
    split at hstep
    · cases hstep
      exact StreamRegistry.peek_moveToEnd
    · split at hstep
      · next hnone _ => cases hnone
      · cases hstep
        rfl
      · cases hstep
  | delete name' =>
    simp only [Host.step, hop] at hstep
    cases hstep
  | deleteStored name' =>
    simp only [Host.step] at hstep
    split at hstep
    · cases hstep
      rfl
    · cases hstep
  | forget name' =>
    simp only [Host.step, hop] at hstep
    cases hstep
  | storage =>
    simp only [Host.step, storageStep, hop] at hstep
    split at hstep
    · obtain ⟨stream, -, hs'⟩ := Option.map_eq_some_iff.mp hstep
      subst hs'
      rfl
    · split at hstep
      · split at hstep
        · cases hstep
          rfl
        · cases hstep
          rfl
      · cases hstep
    · cases hstep
      rfl
    · cases hstep
  | resume created calls => exact absurd rfl (ha created calls)
  | raise =>
    simp only [Host.step, hop] at hstep
    split at hstep
    · cases hstep
      rfl
    · cases hstep
      rfl
    · cases hstep
      rfl
    · cases hstep
  | flush part => rw [(flush_same hstep).1]

end Host

open Host

variable {M : IndexMapping} {K : LogKind M} {D : Saver K.Log}

/-- **The limits hold at every moment.** Whatever the order of the requests, the storage calls and
the flush loop: each namespace has a stream and no more than its limit, the server has no more than
its limit, and a request that raises while it waits for the storage has put in and taken out
nothing. -/
theorem registry_within_limits {maxStreamsPerNs maxStreams : ℕ} (storage : Bool) (empty : K.Log)
    {clock : ℚ}
    {as : List (Action K)} {s : Host K D} (hmax : 0 < maxStreamsPerNs) (htotal : 0 < maxStreams)
    (hrun : run (step empty) (new (.new maxStreamsPerNs maxStreams storage) clock) as = some s) :
    (∀ ns streams, s.registry.namespaces.get? ns = some streams → 0 < streams.size ∧ streams.size
      ≤ maxStreamsPerNs)
      ∧ s.registry.countLocked ≤ maxStreams
      ∧ ∀ op a s', s.operation = some op → (∀ created calls, a ≠ .resume created calls)
        → s.step empty a = some s' →
        ∀ name, s'.registry.peek name = s.registry.peek name := by
  have hbounded := bounded_of_run hmax htotal hrun
  have hlimit : s.registry.maxStreamsPerNs = maxStreamsPerNs :=
    congrArg Prod.fst hbounded.registry.limits
  have hlimit' : s.registry.maxStreams = maxStreams := congrArg (·.2.1) hbounded.registry.limits
  have hwithin := hbounded.registry.within
  refine ⟨fun ns streams hget => ⟨hwithin.nonempty ns streams hget, ?_⟩, ?_, ?_⟩
  · have hle := hwithin.namespaces ns
    rw [StreamRegistry.sizeOf_of_get? hget, hlimit] at hle
    exact hle
  · have hle := hwithin.total
    rw [hlimit'] at hle
    exact hle
  · intro op a s' hop ha hstep name
    exact peek_step_of_held hop ha hstep name

namespace Waiting

/-- A server with storage, and room for two streams of a namespace. -/
def start : Host (.python .ternary) (sqlAlchemySaver .compact (LogKind.python .ternary).codec) :=
  new (.new 2 3 true) 0

/-- Two streams are made, and the first one is used again. A third one is asked for, and waits for
the save of the second one. -/
def actions : List (Host.Action (.python .ternary)) :=
  let one := .ofInt 1 Binary64.abs_one_lt
  [.getOrCreate ("ns", "a") one [], .storage, .resume one [],
    .getOrCreate ("ns", "b") one [], .storage, .resume one [],
    .get ("ns", "a"), .getOrCreate ("ns", "c") one [], .storage, .resume one []]

/-- Whether the lock is held, what is resident, and what is to be given up. -/
def seen (s : Host (.python .ternary) (sqlAlchemySaver .compact (LogKind.python .ternary).codec)) :
    Bool × Option (List String) × Option StreamName :=
  (s.operation.isSome && (s.step Saving.empty.log .raise).isSome,
    (s.registry.namespaces.get? "ns").map Dict.keys, (s.registry.victim "ns").map Prod.fst)

theorem seen_run : (run (step Saving.empty.log) start actions).map seen
    = some (true, some ["b", "a"], some ("ns", "b")) := by
  decide +kernel

end Waiting

/-- The third stream waits, and its request may raise. -/
theorem registry_within_limits_waiting :
    ∃ s, run (step Saving.empty.log) Waiting.start Waiting.actions = some s
      ∧ (∀ ns streams, s.registry.namespaces.get? ns = some streams →
        0 < streams.size ∧ streams.size ≤ 2)
      ∧ s.registry.countLocked ≤ 3
      ∧ ∃ op s', s.operation = some op ∧ s.step Saving.empty.log .raise = some s'
        ∧ ∀ name, s'.registry.peek name = s.registry.peek name := by
  obtain ⟨s, hrun, hseen⟩ := Option.map_eq_some_iff.mp Waiting.seen_run
  have hwaits := (Prod.mk.inj hseen).1
  rw [Bool.and_eq_true] at hwaits
  obtain ⟨op, hop⟩ := Option.isSome_iff_exists.mp hwaits.1
  obtain ⟨s', hs'⟩ := Option.isSome_iff_exists.mp hwaits.2
  obtain ⟨hnamespaces, htotal, hwait⟩ := registry_within_limits (K := .python .ternary) true
    Saving.empty.log (by decide : 0 < 2) (by decide : 0 < 3) hrun
  have hraise : ∀ created calls,
      (Host.Action.raise : Host.Action (.python .ternary)) ≠ .resume created calls := by
    intro created calls h
    cases h
  exact ⟨s, hrun, hnamespaces, htotal, op, s', hop, hs', hwait op .raise s' hop hraise hs'⟩

/-- **What is given up.** Where a namespace is full, the stream that is chosen to be evicted is one
of its own, and every other resident stream of it was come to later. -/
theorem victim_least_recently_used {maxStreamsPerNs maxStreams : ℕ} (storage : Bool) (empty : K.Log)
    {clock : ℚ}
    {as : List (Action K)} {s : Host K D} (hmax : 0 < maxStreamsPerNs) (htotal : 0 < maxStreams)
    (hrun : run (step empty) (new (.new maxStreamsPerNs maxStreams storage) clock) as = some s)
    {ns : String}
    {streams : Dict String ℕ} (hstreams : s.registry.namespaces.get? ns = some streams)
    (hfull : streams.size = maxStreamsPerNs) :
    ∃ victim, s.registry.victim ns = some victim ∧ victim.1.1 = ns ∧ s.registry.peek victim.1
      = some victim.2
      ∧ ∀ id, id ∈ streams.keys → id ≠ victim.1.2 → Older s.uses victim.1 (ns, id) := by
  have hbounded := bounded_of_run hmax htotal hrun
  -- the limits are those the registry was made with
  have hlimit : s.registry.maxStreamsPerNs = maxStreamsPerNs :=
    congrArg Prod.fst hbounded.registry.limits
  obtain ⟨streams', item, hstreams', hfirst, -, hvictim⟩ | ⟨hsize, -⟩ := s.registry.victim_cases ns
  · rw [hstreams, Option.some.injEq] at hstreams'
    subst hstreams'
    refine ⟨_, hvictim, rfl, StreamRegistry.victim_peek hvictim, fun id hid hne => ?_⟩
    -- the first stream of the namespace stands at the head of the order of uses
    have hkeys : (streams.keys.map (Prod.mk ns)).head? = some (ns, item.1) := by
      have hhead : streams.items.head? = some item := hfirst
      rw [Dict.keys, List.map_map, List.head?_map, hhead]
      rfl
    exact (hbounded.registry.inOrder ns streams hstreams).head hkeys (List.mem_map_of_mem hid)
      fun heq => hne (congrArg Prod.snd heq)
  · -- a full namespace does not fall through to the other limit
    rw [StreamRegistry.sizeOf_of_get? hstreams, hfull, hlimit] at hsize
    exact absurd (hsize hmax) (Nat.lt_irrefl _)

/-- The second stream is given up, as the first one was used after it. -/
theorem victim_least_recently_used_waiting :
    ∃ s victim, run (step Saving.empty.log) Waiting.start Waiting.actions = some s
      ∧ s.registry.victim "ns" = some victim ∧ victim.1 = ("ns", "b")
      ∧ Older s.uses ("ns", "b") ("ns", "a") := by
  obtain ⟨s, hrun, hseen⟩ := Option.map_eq_some_iff.mp Waiting.seen_run
  obtain ⟨-, hfound⟩ := Prod.mk.inj hseen
  obtain ⟨hkeys, hgiven⟩ := Prod.mk.inj hfound
  obtain ⟨streams, hstreams, hkeys⟩ := Option.map_eq_some_iff.mp hkeys
  have hfull : streams.size = 2 := by
    rw [Dict.size, ← List.length_map (f := Prod.fst)]
    exact congrArg List.length hkeys
  obtain ⟨victim, hvictim, -, -, holder⟩ := victim_least_recently_used (K := .python .ternary) true
    Saving.empty.log (by decide : 0 < 2) (by decide : 0 < 3) hrun hstreams hfull
  have hname : victim.1 = ("ns", "b") := by
    rw [hvictim] at hgiven
    exact Option.some.inj hgiven
  refine ⟨s, victim, hrun, hvictim, hname, ?_⟩
  rw [← hname]
  refine holder "a" (by rw [hkeys]; decide) ?_
  rw [hname]
  decide

end Sketchlog.Server
