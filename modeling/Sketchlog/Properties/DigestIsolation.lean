import Sketchlog.Lib.Gather
import Sketchlog.Properties.DigestProgress

/-!
# Malformed entries of a digest

`handle_gossip_digest` leaves out what it cannot read of a digest: stream keys and origins that are
not valid, versions that are not finite numbers. Two kinds of entries are not left out: at an integer
that no float can hold `math.isfinite` raises, and at a key that is nested too deeply `json.loads`
does, and with it the whole call. A digest is answered as if its malformed entries were not there
exactly when no such entry is reached before the limits on streams and origins end the reading
(`digest_isolates_iff`).
-/

namespace Sketchlog.Mesh

open Checked Gather

/-! ## Well-formed entries

What a digest has to look like for an entry to be read, and which entries raise: an integer too
large for a double. -/

/-- A finite number that is not negative, and that a float can hold. -/
def validVersion : PyVal → Bool
  | .int n => 0 ≤ n && n.natAbs < floatLimit
  | .float (.fin x) => 0 ≤ x.val
  | _ => false

/-- The identifier of an origin that is well formed, with its version. -/
def wellFormedOrigin : PyKey × PyVal → Option String
  | (.str nid, version) => if validIdentifier nid ∧ validVersion version then some nid else none
  | _ => none

/-- The key of a stream that is well formed, whatever its origins. -/
def wellFormedStream : PyKey × PyVal → Option String
  | (.str key, .dict _) => if canonicalKey key then some key else none
  | _ => none

/-- The origins without those that are malformed. -/
def cleanOrigins (origins : Items) : Items :=
  origins.filterMap fun entry => (wellFormedOrigin entry).map fun _ => entry

/-- A stream without its malformed origins; nothing, when its key is malformed or its origins are no
object. -/
def cleanStream : PyKey × PyVal → Option (PyKey × PyVal)
  | (.str key, .dict origins) =>
      if canonicalKey key then some (.str key, .dict (cleanOrigins origins)) else none
  | _ => none

/-- The versions of a digest without what is malformed. -/
def cleanVersions (versions : Items) : Items := versions.filterMap cleanStream

/-- A valid origin whose version is an integer that no float can hold. -/
def TooLarge : PyKey × PyVal → Prop
  | (.str nid, .int n) => validIdentifier nid ∧ floatLimit ≤ n.natAbs
  | _ => False

/-- Such an origin stands in the list before the limit on origins. -/
def OriginsTooLarge (origins : Items) : Prop :=
  ∃ entry, Reached wellFormedOrigin maxOriginsPerStream origins entry ∧ TooLarge entry

/-- A stream at which the call raises: at its key, or at one of its origins. -/
def Unreadable (maxNesting : ℕ) : PyKey × PyVal → Prop
  | (.str key, .dict origins) =>
      ¬ Shallow maxNesting key ∨ (canonicalKey key = true ∧ OriginsTooLarge origins)
  | (.str key, _) => ¬ Shallow maxNesting key
  | _ => False

/-- Such a stream stands in the list before the limit on streams. -/
def VersionsUnreadable (maxNesting : ℕ) (versions : Items) : Prop :=
  ∃ entry, Reached wellFormedStream maxPeerStreams versions entry ∧ Unreadable maxNesting entry

/-! ## Origins

The loop over the origins of a stream skips what is malformed and stops at the limit on their
number. -/

theorem normalizeOrigins_eq (origins : Items) (d : Dict String Binary64) :
    normalizeOrigins origins d = gather readOrigin maxOriginsPerStream origins d := by
  induction origins generalizing d with
  | nil => rfl
  | cons entry rest ih =>
    rw [normalizeOrigins, gather]
    simp only [ih]

/-- What is read of a version. -/
theorem readDigestVersion_cases (version : PyVal) :
    (∃ n, version = .int n ∧ floatLimit ≤ n.natAbs ∧ ∃ e, readDigestVersion version = .error e)
      ∨ ((∀ n, version = .int n → n.natAbs < floatLimit)
        ∧ ∃ r, readDigestVersion version = .ok r ∧ r.isSome = validVersion version) := by
  -- an integer is converted to a double, which fails from `2 ^ 1024` on
  cases version with
  | int n =>
    by_cases hfits : n.natAbs < floatLimit
    · have hread : readDigestVersion (.int n) = .ok (if 0 ≤ n then
          some ⟨Binary64.roundInt n, Binary64.isBinary64_roundInt hfits⟩ else none) := by
        rw [readDigestVersion]
        simp only [hfits, dite_true]
      refine .inr ⟨fun n' hn' => PyVal.int.inj hn' ▸ hfits, _, hread, ?_⟩
      unfold validVersion
      by_cases hn : 0 ≤ n
      · simp only [if_pos hn, Option.isSome_some, decide_eq_true hn, decide_eq_true hfits,
          Bool.and_self]
      · simp only [if_neg hn, Option.isSome_none, decide_eq_false hn, Bool.false_and]
    · have hread : readDigestVersion (.int n)
        = .error (.overflowError "int too large to convert to float") := by
        rw [readDigestVersion]
        simp only [hfits, dite_false]
      exact .inl ⟨n, rfl, not_lt.mp hfits, _, hread⟩
  | float x =>
    cases x with
    | fin x =>
      refine .inr ⟨fun n hn => (by cases hn), _, rfl, ?_⟩
      unfold validVersion
      by_cases hx : 0 ≤ x.val
      · simp only [if_pos hx, Option.isSome_some, decide_eq_true hx]
      · simp only [if_neg hx, Option.isSome_none, decide_eq_false hx]
    | _ => exact .inr ⟨fun n hn => (by cases hn), _, rfl, rfl⟩
  | _ => exact .inr ⟨fun n hn => (by cases hn), _, rfl, rfl⟩

/-- What is read of an origin. -/
theorem readOrigin_cases (entry : PyKey × PyVal) :
    (TooLarge entry ∧ ∃ e, readOrigin entry = .error e)
      ∨ (¬ TooLarge entry ∧ ∃ r, readOrigin entry = .ok r ∧ wellFormedOrigin entry
        = r.map Prod.fst) := by
  obtain ⟨key, version⟩ := entry
  cases key with
  | str nid =>
    unfold readOrigin wellFormedOrigin
    by_cases hnid : validIdentifier nid
    · -- the version of a valid name raises if it is too large, and is read otherwise
      simp only [hnid, true_and, if_true]
      rcases readDigestVersion_cases version with ⟨n, rfl, hlarge, e, he⟩ | ⟨hsmall, r, hr, hvalid⟩
      · rw [he]
        exact .inl ⟨⟨hnid, hlarge⟩, e, rfl⟩
      · rw [hr, ← hvalid]
        refine .inr ⟨?_, _, rfl, ?_⟩
        · cases version with
          | int n => exact fun h => absurd (hsmall n rfl) (not_lt.mpr h.2)
          | _ => exact id
        · cases r <;> rfl
    · simp only [hnid, false_and, if_false]
      refine .inr ⟨?_, none, rfl, rfl⟩
      cases version with
      | int n => exact fun h => hnid h.1
      | _ => exact id
  | _ => exact .inr ⟨id, none, rfl, rfl⟩

theorem wellFormedOrigin_of_read {entry : PyKey × PyVal} {r : Option (String × Binary64)}
    (h : readOrigin entry = .ok r) : wellFormedOrigin entry = r.map Prod.fst := by
  rcases readOrigin_cases entry with ⟨-, e, he⟩ | ⟨-, r', hr', heq⟩
  · cases h.symm.trans he
  · cases h.symm.trans hr'
    exact heq

theorem maxOriginsPerStream_pos : (∅ : Dict String Binary64).size < maxOriginsPerStream := by decide

/-- Origins raise when a version that is too large is reached. -/
theorem normalizeOrigins_error {origins : Items} (h : OriginsTooLarge origins) :
    ∃ e, normalizeOrigins origins ∅ = .error e := by
  obtain ⟨entry, hreached, hlarge⟩ := h
  rw [normalizeOrigins_eq]
  apply gather_error (fun e r => wellFormedOrigin_of_read) (reachedFrom_empty.mpr hreached)
  rcases readOrigin_cases entry with ⟨-, he⟩ | ⟨hnot, -⟩
  · exact he
  · exact absurd hlarge hnot

/-- Otherwise they are read, and malformed origins make no difference. -/
theorem normalizeOrigins_clean {origins : Items} (h : ¬ OriginsTooLarge origins) :
    ∃ o, normalizeOrigins origins ∅ = .ok o ∧ normalizeOrigins (cleanOrigins origins) ∅ = .ok o := by
  have hreads : ∀ entry, ReachedFrom wellFormedOrigin maxOriginsPerStream
    (∅ : Dict String Binary64) origins entry →
      ∃ r, readOrigin entry = .ok r := by
    intro entry hreached
    rcases readOrigin_cases entry with ⟨hlarge, -⟩ | ⟨-, r, hr, -⟩
    · exact absurd ⟨entry, reachedFrom_empty.mp hreached, hlarge⟩ h
    · exact ⟨r, hr⟩
  obtain ⟨o, ho⟩ := gather_ok (fun e r => wellFormedOrigin_of_read) maxOriginsPerStream_pos hreads
  refine ⟨o, (normalizeOrigins_eq origins ∅).trans ho, (normalizeOrigins_eq _ ∅).trans ?_⟩
  rw [← ho]
  refine gather_filterMap (fun e r => wellFormedOrigin_of_read) (fun e hskip =>
    ?_) (fun e kv hread => ?_)
    maxOriginsPerStream_pos hreads
  · rw [wellFormedOrigin_of_read hskip]
    rfl
  · rw [wellFormedOrigin_of_read hread]
    exact ⟨e, rfl, hread⟩

/-! ## Streams

The same for the loop over the streams, where a key can also be nested too deep. -/

theorem normalizeVersions_eq (maxNesting : ℕ) (versions : Items)
    (d : Dict String (Dict String Binary64)) (hopen : d.size < maxPeerStreams) :
    normalizeVersions maxNesting versions d
      = gather (readStream maxNesting) maxPeerStreams versions d := by
  induction versions generalizing d with
  | nil => rfl
  | cons entry rest ih =>
    rw [normalizeVersions, gather]
    cases readStream maxNesting entry with
    | error e => rfl
    | ok read =>
      cases read with
      | none =>
        show normalizeVersions maxNesting rest d
          = if maxPeerStreams ≤ d.size then .ok d else gather (readStream maxNesting) _ rest d
        rw [if_neg (not_le.mpr hopen)]
        exact ih d hopen
      | some stream =>
        show (if maxPeerStreams ≤ (d.set stream.1 stream.2).size then _ else _)
          = if maxPeerStreams ≤ (d.set stream.1 stream.2).size then _ else _
        split
        · rfl
        · next hnext => exact ih _ (not_le.mp hnext)

/-- What is read of a stream. -/
theorem readStream_cases (maxNesting : ℕ) (entry : PyKey × PyVal) :
    (Unreadable maxNesting entry ∧ ∃ e, readStream maxNesting entry = .error e)
      ∨ (¬ Unreadable maxNesting entry ∧ cleanStream entry = none ∧ wellFormedStream entry = none
        ∧ readStream maxNesting entry = .ok none)
      ∨ ¬ Unreadable maxNesting entry ∧ ∃ key o entry', cleanStream entry = some entry'
        ∧ wellFormedStream entry = some key ∧ readStream maxNesting entry = .ok (some (key, o))
        ∧ readStream maxNesting entry' = .ok (some (key, o)) := by
  obtain ⟨key, value⟩ := entry
  -- the code looks at the key first, then at the value, then whether the key is canonical
  cases key with
  | str key =>
    by_cases hshallow : Shallow maxNesting key
    · cases value with
      | dict origins =>
        cases hkey : canonicalKey key with
        | true =>
          by_cases hlarge : OriginsTooLarge origins
          · obtain ⟨e, he⟩ := normalizeOrigins_error hlarge
            refine .inl ⟨.inr ⟨hkey, hlarge⟩, e, ?_⟩
            simp only [readStream, hshallow.validStreamKey, hkey, bind, Except.bind, he]
          · obtain ⟨o, ho, hclean⟩ := normalizeOrigins_clean hlarge
            refine .inr (.inr ⟨?_, key, o, _, if_pos hkey, if_pos hkey, ?_, ?_⟩)
            · exact not_or.mpr ⟨not_not.mpr hshallow, fun h => hlarge h.2⟩
            · simp only [readStream, hshallow.validStreamKey, hkey, bind, Except.bind, ho]
            · simp only [readStream, hshallow.validStreamKey, hkey, bind, Except.bind, hclean]
        | false =>
          have hfalse : ¬ canonicalKey key = true := by rw [hkey]; exact Bool.false_ne_true
          refine .inr (.inl ⟨?_, if_neg hfalse, if_neg hfalse, ?_⟩)
          · exact not_or.mpr ⟨not_not.mpr hshallow, fun h => hfalse h.1⟩
          · simp only [readStream, hshallow.validStreamKey, hkey, bind, Except.bind]
      | _ =>
        refine .inr (.inl ⟨not_not.mpr hshallow, rfl, rfl, ?_⟩)
        simp only [readStream, hshallow.validStreamKey, bind, Except.bind]
        cases canonicalKey key <;> rfl
    · -- a nested key raises before the type of the value is looked at
      obtain ⟨e, he⟩ := exists_error_of_not_shallow hshallow
      have hraises : ∃ e, readStream maxNesting (.str key, value) = .error e :=
        ⟨e, by simp only [readStream, he, bind, Except.bind]⟩
      cases value with
      | dict origins => exact .inl ⟨.inl hshallow, hraises⟩
      | _ => exact .inl ⟨hshallow, hraises⟩
  -- a key that is no string is skipped
  | _ => cases value <;> exact .inr (.inl ⟨id, rfl, rfl, rfl⟩)

theorem wellFormedStream_of_read {maxNesting : ℕ} {entry : PyKey × PyVal}
    {r : Option (String × Dict String Binary64)} (h : readStream maxNesting entry = .ok r) :
    wellFormedStream entry = r.map Prod.fst := by
  rcases readStream_cases maxNesting entry
    with ⟨-, e, he⟩ | ⟨-, -, hkey, hread⟩ | ⟨-, key, o, entry', -, hkey, hread, -⟩
  · cases h.symm.trans he
  · cases h.symm.trans hread
    exact hkey
  · cases h.symm.trans hread
    exact hkey

theorem maxPeerStreams_pos : (∅ : Dict String (Dict String Binary64)).size < maxPeerStreams := by
  decide

/-- A digest is rejected where an unreadable stream is reached. -/
theorem normalizeVersions_error {maxNesting : ℕ} {versions : Items}
    (h : VersionsUnreadable maxNesting versions) :
    ∃ e, normalizeVersions maxNesting versions ∅ = .error e := by
  obtain ⟨entry, hreached, hunreadable⟩ := h
  rw [normalizeVersions_eq maxNesting versions ∅ maxPeerStreams_pos]
  apply gather_error (fun e r => wellFormedStream_of_read) (reachedFrom_empty.mpr hreached)
  rcases readStream_cases maxNesting entry with ⟨-, he⟩ | ⟨hnot, -⟩ | ⟨hnot, -⟩
  · exact he
  · exact absurd hunreadable hnot
  · exact absurd hunreadable hnot

/-- Any other digest is read, and what is malformed makes no difference. -/
theorem normalizeVersions_clean {maxNesting : ℕ} {versions : Items}
    (h : ¬ VersionsUnreadable maxNesting versions) :
    ∃ remote, normalizeVersions maxNesting versions ∅ = .ok remote
      ∧ normalizeVersions maxNesting (cleanVersions versions) ∅ = .ok remote := by
  -- no entry that the loop reaches raises
  have hreads : ∀ entry, ReachedFrom wellFormedStream maxPeerStreams
      (∅ : Dict String (Dict String Binary64)) versions entry →
      ∃ r, readStream maxNesting entry = .ok r := by
    intro entry hreached
    rcases readStream_cases maxNesting entry
      with ⟨hunreadable, -⟩ | ⟨-, -, -, hread⟩ | ⟨-, _, _, _, -, -, hread, -⟩
    · exact absurd ⟨entry, reachedFrom_empty.mp hreached, hunreadable⟩ h
    · exact ⟨_, hread⟩
    · exact ⟨_, hread⟩
  obtain ⟨remote, hremote⟩ :=
    gather_ok (fun e r => wellFormedStream_of_read) maxPeerStreams_pos hreads
  refine ⟨remote, (normalizeVersions_eq _ versions ∅ maxPeerStreams_pos).trans hremote,
    (normalizeVersions_eq _ _ ∅ maxPeerStreams_pos).trans ?_⟩
  -- what is skipped is dropped from the clean digest too, and what is read is read from it alike
  rw [← hremote]
  refine gather_filterMap (fun e r => wellFormedStream_of_read) (fun e hskip => ?_)
    (fun e kv hread => ?_) maxPeerStreams_pos hreads
  · rcases readStream_cases maxNesting e
      with ⟨-, x, hx⟩ | ⟨-, hclean, -⟩ | ⟨-, _, _, _, -, -, hread, -⟩
    · cases hskip.symm.trans hx
    · exact hclean
    · cases hskip.symm.trans hread
  · rcases readStream_cases maxNesting e
      with ⟨-, x, hx⟩ | ⟨-, -, -, hskip⟩ | ⟨-, key, o, e', hclean, -, hread', hclean'⟩
    · cases hread.symm.trans hx
    · cases hread.symm.trans hskip
    · cases hread.symm.trans hread'
      exact ⟨e', hclean, hclean'⟩

/-! ## The answer

The digest is answered as if the malformed entries were not there, unless one that the loop reaches
raises. -/

variable {C : LogCodec} {reprFloat : Binary64 → List Char} {self : ClusterManager C.Log}
  {getSnapshot : C.Log → Except PyError C.Log} {registry : List (LocalStream C.Log)}

/-- A digest is answered, as if what is malformed were not there. -/
def Isolates (reprFloat : Binary64 → List Char) (getSnapshot : C.Log → Except PyError C.Log)
    (self : ClusterManager C.Log)
    (registry : List (LocalStream C.Log)) (versions : Items) : Prop :=
  ∃ r, self.handleGossipDigest reprFloat getSnapshot registry [(.str "versions", .dict versions)]
    = .ok r
    ∧ self.handleGossipDigest reprFloat getSnapshot registry
      [(.str "versions", .dict (cleanVersions versions))] = .ok r

theorem readDigest_versions (maxNesting : ℕ) (versions : Items) :
    readDigest maxNesting [(.str "versions", .dict versions)]
      = normalizeVersions maxNesting versions ∅ := rfl

/-- **When malformed entries are isolated.** A node that holds restored logs answers a digest as if
its malformed entries were removed exactly when no key that is nested too deeply and no integer
version that is too large for a float is reached. -/
theorem digest_isolates_iff (hC : LogCodec.HasTexts reprFloat C) (hheld : self.Restored)
    (versions : Items) :
    Isolates reprFloat getSnapshot self registry versions
      ↔ ¬ VersionsUnreadable self.maxNesting versions := by
  constructor
  · rintro ⟨r, hr, -⟩ hunreadable
    obtain ⟨e, he⟩ := normalizeVersions_error hunreadable
    obtain ⟨remote, hread, -⟩ := bind_eq_ok.mp hr
    rw [readDigest_versions] at hread
    cases hread.symm.trans he
  · intro hreadable
    obtain ⟨remote, hread, hclean⟩ := normalizeVersions_clean hreadable
    have htexts := hasTexts_of_restored hC hheld
    obtain ⟨r₁, -, -, hanswer⟩ :=
      handleGossipDigest_ok getSnapshot registry htexts (readDigest_versions _ _ ▸ hread)
    refine ⟨_, hanswer, ?_⟩
    rw [← hanswer]
    show (readDigest _ _ >>= _) = (readDigest _ _ >>= _)
    rw [readDigest_versions, readDigest_versions, hread, hclean]

namespace Isolation

/-- A node that knows nothing. -/
def node : ClusterManager (LogCodec.python .ternary).Log := ⟨"node1", 1048576, 100, 990, ∅, ∅, ∅⟩

/-- A stream with malformed origins beside a good one, and two malformed keys. -/
def malformed : Items :=
  [(.str "[\"default\", \"checkout\"]",
    .dict [(.str "node2", .int (-1)), (.str "", .int 5), (.str "node3", .none),
    (.str "node4", .int 5)]), (.str "checkout", .dict [(.str "node2", .int 5)]),
    (.str "[[[\"default\"", .dict [])]

/-- Its origins are small integers. -/
theorem natAbs_le_of_mem {k : PyKey} {origins : Items} (hmem : (k, .dict origins) ∈ malformed)
    {nid : PyKey} {n : ℤ} (hn : (nid, .int n) ∈ origins) : n.natAbs ≤ 5 := by
  simp only [malformed, List.mem_cons, Prod.mk.injEq, PyVal.dict.injEq, List.not_mem_nil,
    or_false] at hmem
  rcases hmem with ⟨-, rfl⟩ | ⟨-, rfl⟩ | ⟨-, rfl⟩
  · simp only [List.mem_cons, Prod.mk.injEq, PyVal.int.injEq, List.not_mem_nil, or_false,
      reduceCtorEq, and_false, false_or] at hn
    omega
  · simp only [List.mem_cons, Prod.mk.injEq, PyVal.int.injEq, List.not_mem_nil, or_false] at hn
    omega
  · cases hn

theorem not_unreadable_malformed : ¬ VersionsUnreadable node.maxNesting malformed := by
  rintro ⟨entry, ⟨before, after, heq, -⟩, hunreadable⟩
  have hmem : entry ∈ malformed := heq ▸ List.mem_append_right before List.mem_cons_self
  have hshallow : ∀ entry ∈ malformed, ClusterManager.keyShallow node.maxNesting entry = true := by
    decide +kernel
  obtain ⟨key, value⟩ := entry
  cases key with
  | str key =>
    have hkey : Shallow node.maxNesting key := of_decide_eq_true (hshallow _ hmem)
    cases value with
    | dict origins =>
      obtain hdeep | ⟨-, ⟨nid, version⟩, ⟨before', after', rfl, -⟩, hlarge⟩ := hunreadable
      · exact hdeep hkey
      · cases nid with
        | str nid =>
          cases version with
          | int n =>
            have hle := natAbs_le_of_mem hmem (List.mem_append_right before' List.mem_cons_self)
            have hlimit : 5 < floatLimit := by decide +kernel
            exact absurd hlarge.2 (by omega)
          | _ => exact hlarge
        | _ => exact hlarge
    | _ => exact hunreadable hkey
  | _ => cases value <;> exact hunreadable

end Isolation

/-- Malformed entries are left out. -/
theorem digest_isolates_malformed :
    Isolates Starved.reprFive .ok Isolation.node [] Isolation.malformed
      ∧ ¬ VersionsUnreadable Isolation.node.maxNesting Isolation.malformed :=
  ⟨(digest_isolates_iff (hasTexts_python _ _) (fun _ _ _ h => by cases h) _).mpr
    Isolation.not_unreadable_malformed,
    Isolation.not_unreadable_malformed⟩

/-- A version of four hundred digits rejects the digest. -/
theorem digest_rejected_by_version :
    ¬ Isolates Starved.reprFive .ok Isolation.node []
      [(.str "[\"default\", \"checkout\"]", .dict [(.str "node2", .int (10 ^ 400))])] := by
  rintro ⟨r, hr, -⟩
  have hunreadable : VersionsUnreadable Isolation.node.maxNesting
      [(.str "[\"default\", \"checkout\"]", .dict [(.str "node2", .int (10 ^ 400))])] := by
    refine ⟨_, ⟨[], [], rfl, by decide⟩, .inr ⟨by decide +kernel, _, ⟨[], [], rfl, by decide⟩, ?_⟩⟩
    exact ⟨by decide, by decide +kernel⟩
  obtain ⟨e, he⟩ := normalizeVersions_error hunreadable
  obtain ⟨remote, hread, -⟩ := bind_eq_ok.mp hr
  rw [readDigest_versions] at hread
  cases hread.symm.trans he

end Sketchlog.Mesh
