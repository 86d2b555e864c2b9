import Sketchlog.Server.Merge
import Sketchlog.Refine.FromDictErrors

/-!
# Malformed states of `merge_stream`

Every access of the decoding block is an indexing, an iteration or an assignment, and what these
raise on a value of the wrong type is caught, with one exception: `.items()` of a bucket group that
is not a dictionary. So a posted state leaves the block as an exception exactly when such a group is
reached (`GroupReached`).
-/

namespace Sketchlog.Server

open Checked

theorem caught_py {e : PyError} (h : e.Refused) : (Raised.py e).Caught := by
  cases e
  case overflowError => exact h.elim
  case zeroDivisionError => exact h.elim
  all_goals trivial

theorem raises_liftPy {α : Type} {x : Except PyError α} (h : Raises PyError.Refused x) :
    Raises Raised.Caught (liftPy x) := by
  intro e he
  cases x with
  | ok a => cases he
  | error e' =>
    cases he
    exact caught_py (h e' rfl)

/-! ## Strings that are counts -/

/-- A string that passes the check and is converted: decimal digits, not too many. -/
def IsCount (s : String) : Prop :=
  s.toList ≠ [] ∧ s.toList.takeWhile isDecimal = s.toList ∧ s.toList.length ≤ maxStrDigits

theorem raises_decimal (msg s : String) : Raises Raised.Caught (decimal msg s) := by
  refine (Raises.failIf trivial).bind fun _ _ => raises_liftPy ?_
  exact (Raises.failIf trivial).bind fun _ _ => (Raises.failIf trivial).bind fun _ _ => .of_ok _

theorem isCount_of_decimal {msg s : String} {n : ℤ} (h : decimal msg s = .ok n) : IsCount s := by
  rw [decimal, bind_eq_ok, exists_unit, failIf_eq_ok] at h
  obtain ⟨hdigit, hint⟩ := h
  have hok : intOf s = .ok n := by
    cases hcase : intOf s with
    | ok m =>
      rw [hcase] at hint
      cases hint
      rfl
    | error e =>
      rw [hcase] at hint
      cases hint
  simp only [intOf, bind_eq_ok, exists_unit, failIf_eq_ok, ne_eq, not_not, not_lt] at hok
  obtain ⟨hlength, hdecimal, -⟩ := hok
  refine ⟨?_, hdecimal, hdecimal ▸ hlength⟩
  intro hempty
  apply hdigit
  simp [isDigit, hempty]

theorem exists_decimal {s : String} (h : IsCount s) (msg : String) : ∃ n, decimal msg s = .ok n := by
  obtain ⟨hne, hdecimal, hlength⟩ := h
  have hdigit : isDigit s = true := by
    have hall := List.takeWhile_eq_self_iff.mp hdecimal
    rw [isDigit, Bool.and_eq_true, decide_eq_true_eq, List.all_eq_true]
    refine ⟨hne, fun c hc => ?_⟩
    rw [isDigitChar, hall c hc, Bool.true_or]
  obtain ⟨n, hn⟩ : ∃ n, intOf s = .ok n := by
    simp only [intOf, bind_eq_ok, exists_unit, failIf_eq_ok, ne_eq, not_not, not_lt]
    exact ⟨_, hdecimal.symm ▸ hlength, hdecimal, rfl⟩
  refine ⟨n, ?_⟩
  rw [decimal, failIf, if_neg (by rw [hdigit]; decide), hn]
  rfl

/-! ## Accesses

Each access raises errors that are caught, except `items` on what is no dictionary. -/

/-- Setting one key leaves the others. -/
theorem lookup_set_of_ne {d : Items} {k k' : PyKey} {v : PyVal} (h : k' ≠ k) :
    (Items.set d k v).lookup k' = d.lookup k' := by
  have hne : (k' == k) = false := beq_eq_false_iff_ne.mpr h
  have hmap : (d.map fun e => if e.1 = k then (k, v) else e).lookup k' = d.lookup k' := by
    induction d with
    | nil => rfl
    | cons e rest ih =>
      obtain ⟨key, value⟩ := e
      rw [List.map_cons, List.lookup_cons]
      by_cases hkey : key = k
      · subst hkey
        rw [if_pos rfl, List.lookup_cons, hne]
        exact ih
      · rw [if_neg hkey, List.lookup_cons]
        cases k' == key with
        | true => rfl
        | false => exact ih
  unfold Items.set
  split
  · exact hmap
  · rw [List.lookup_append, List.lookup_cons, hne]
    exact Option.or_none

theorem raises_getItem (v : PyVal) (key : String) : Raises Raised.Caught (getItem v key) := by
  unfold getItem
  split
  · refine raises_liftPy ?_
    unfold Items.item
    split
    · exact .of_ok _
    · exact .of_error trivial
  · exact .of_error trivial
  · exact .of_error trivial
  · exact .of_error trivial

theorem raises_decodeField (owner : PyVal) (key : String) :
    Raises Raised.Caught (decodeField owner key) := by
  refine (raises_getItem owner key).bind fun v _ => ?_
  split
  · exact (raises_decimal _ _).bind fun _ _ => .of_ok _
  · exact .of_ok _

theorem raises_decodeCount (msg : String) (v : PyVal) : Raises Raised.Caught (decodeCount msg v) := by
  unfold decodeCount
  split
  · exact (raises_decimal _ _).map
  · exact .of_ok _

theorem raises_assignDigit (s : String) {e : PyError} (h : e.Refused) :
    Raises Raised.Caught (assignDigit s e) :=
  (raises_decimal _ _).bind fun _ _ => .of_error (caught_py h)

theorem raises_decodeRow (row : PyVal) : Raises Raised.Caught (decodeRow row) := by
  unfold decodeRow
  split
  · exact (Raises.mapM (raises_decodeCount _) _).bind fun _ _ => .of_ok _
  · refine (Raises.forM (fun c => ?_) _).bind fun _ _ => .of_ok _
    apply raises_assignDigit
    trivial
  · refine (Raises.forM (fun kv => ?_) _).bind fun _ _ => .of_ok _
    split
    · apply raises_assignDigit
      trivial
    · exact .of_ok _
  · exact .of_error trivial

theorem raises_decodeTable (events : PyVal) : Raises Raised.Caught (decodeTable events) := by
  refine (raises_getItem _ _).bind fun v _ => ?_
  split
  · exact (Raises.mapM raises_decodeRow _).bind fun _ _ => .of_ok _
  · exact (Raises.forM (fun _ => (raises_decodeRow _).bind fun _ _ => .of_ok _) _).bind fun _ _ =>
      .of_ok _
  · refine (Raises.forM (fun kv => ?_) _).bind fun _ _ => .of_ok _
    split
    · exact (raises_decodeRow _).bind fun _ _ => .of_ok _
    · exact .of_error trivial
    · exact .of_error trivial
  · exact .of_error trivial

/-! ## What a round that succeeds has read

A step that returns has found a field of the right kind, and it leaves the other fields as they are. -/

/-- The count is there; if it is a string, it is converted. -/
def Countable (d : Items) (key : String) : Prop :=
  ∃ v, d.lookup (.str key) = some v ∧ ∀ s, v = .str s → IsCount s

/-- The group is there, and is no dictionary. -/
def NoItems (d : Items) (bucketGroup : String) : Prop :=
  ∃ v, d.lookup (.str bucketGroup) = some v ∧ ∀ items, v ≠ .dict items

/-- The group is a dictionary, and each of its strings is converted. -/
def CountedGroup (d : Items) (bucketGroup : String) : Prop :=
  ∃ items, d.lookup (.str bucketGroup) = some (.dict items) ∧ ∀ kv ∈ items, ∀ s, kv.2 = .str s
    → IsCount s

theorem getItem_eq_ok {owner v : PyVal} {key : String} :
    getItem owner key = .ok v ↔ ∃ d, owner = .dict d ∧ d.lookup (.str key) = some v := by
  constructor
  · intro h
    cases owner with
    | dict d =>
      refine ⟨d, rfl, ?_⟩
      show d.lookup (.str key) = some v
      cases hlookup : d.lookup (.str key) with
      | some w =>
        simp only [getItem, liftPy, Items.item, hlookup] at h
        cases h
        rfl
      | none =>
        simp only [getItem, liftPy, Items.item, hlookup] at h
        cases h
    | _ => cases h
  · rintro ⟨d, rfl, h⟩
    simp only [getItem, liftPy, Items.item, h]
    rfl

/-- A dictionary with the other fields of `d`. -/
def SameBut (key : String) (d d' : Items) : Prop := ∀ k, k ≠ .str key → d'.lookup k = d.lookup k

/-- The block comes to a bucket group that has no `items`: it is there, it is no dictionary, and
everything that is decoded before it is well formed. -/
structure GroupReached (state latency events : Items) : Prop where
  latency_eq : state.lookup (.str "latency") = some (.dict latency)
  events_eq : state.lookup (.str "events") = some (.dict events)
  total : Countable state "total"
  zero_count : Countable latency "zero_count"
  count : Countable latency "count"
  events_total : Countable events "total"
  group : NoItems latency "positive" ∨ CountedGroup latency "positive" ∧ NoItems latency "negative"

theorem decodeField_eq_ok {owner out : PyVal} {key : String} (h : decodeField owner key = .ok out) :
    ∃ d d', owner = .dict d ∧ out = .dict d' ∧ Countable d key ∧ SameBut key d d' := by
  rw [decodeField, bind_eq_ok] at h
  obtain ⟨v, hget, h⟩ := h
  obtain ⟨d, rfl, hlookup⟩ := getItem_eq_ok.mp hget
  split at h
  · next s =>
    obtain ⟨n, hn, h⟩ := bind_eq_ok.mp h
    cases h
    have hcount := isCount_of_decimal hn
    refine ⟨d, _, rfl, rfl, ⟨_, hlookup, ?_⟩, fun _ hk => lookup_set_of_ne hk⟩
    rintro _ ⟨⟩
    exact hcount
  · next hno =>
    cases h
    exact ⟨d, d, rfl, rfl, ⟨v, hlookup, fun s hs => absurd hs (hno s)⟩, fun _ _ => rfl⟩

theorem exists_decodeField {d : Items} {key : String} (h : Countable d key) :
    ∃ d', decodeField (.dict d) key = .ok (.dict d') ∧ SameBut key d d' := by
  obtain ⟨v, hlookup, hcount⟩ := h
  have hget : getItem (.dict d) key = .ok v := getItem_eq_ok.mpr ⟨d, rfl, hlookup⟩
  cases v with
  | str s =>
    obtain ⟨n, hn⟩ := exists_decimal (hcount s rfl) (key ++ " must be a decimal integer")
    refine ⟨d.set (.str key) (.int n), ?_, fun _ hk => lookup_set_of_ne hk⟩
    rw [decodeField, hget]
    show (decimal _ s >>= fun n => .ok (setItem (.dict d) key (.int n))) = _
    rw [hn]
    rfl
  | _ =>
    refine ⟨d, ?_, fun _ _ => rfl⟩
    rw [decodeField, hget]
    rfl

theorem raises_decodeGroup {latency : PyVal} {bucketGroup : String}
    (h : ∀ d, latency = .dict d → ¬ NoItems d bucketGroup) :
    Raises Raised.Caught (decodeGroup latency bucketGroup) := by
  refine (raises_getItem latency bucketGroup).bind fun v hget => ?_
  obtain ⟨d, rfl, hlookup⟩ := getItem_eq_ok.mp hget
  split
  · refine (Raises.mapM (fun kv => ?_) _).bind fun _ _ => .of_ok _
    exact (raises_decodeCount _ _).bind fun _ _ => .of_ok _
  · next hno => exact absurd ⟨v, hlookup, hno⟩ (h d rfl)

theorem decodeGroup_eq_ok {latency out : PyVal} {bucketGroup : String}
    (h : decodeGroup latency bucketGroup = .ok out) :
    ∃ d d', latency = .dict d ∧ out = .dict d' ∧ CountedGroup d bucketGroup
      ∧ SameBut bucketGroup d d' := by
  rw [decodeGroup, bind_eq_ok] at h
  obtain ⟨v, hget, h⟩ := h
  obtain ⟨d, rfl, hlookup⟩ := getItem_eq_ok.mp hget
  split at h
  · next items =>
    obtain ⟨decoded, hitems, h⟩ := bind_eq_ok.mp h
    cases h
    refine ⟨d, _, rfl, rfl, ⟨items, hlookup, ?_⟩, fun _ hk => lookup_set_of_ne hk⟩
    intro kv hkv s hs
    obtain ⟨i, hi, rfl⟩ := List.mem_iff_getElem.mp hkv
    have hround := (List.forall₂_iff_get.mp (mapM_eq_ok.mp hitems)).2 i hi
      ((mapM_eq_ok.mp hitems).length_eq ▸ hi)
    rw [List.get_eq_getElem, hs] at hround
    obtain ⟨value, hvalue, -⟩ := bind_eq_ok.mp hround
    cases hdecimal : decimal "bucket counts must be decimal integers" s with
    | ok n => exact isCount_of_decimal hdecimal
    | error e =>
      rw [decodeCount, hdecimal] at hvalue
      cases hvalue
  · cases h

theorem exists_decodeGroup {d : Items} {bucketGroup : String} (h : CountedGroup d bucketGroup) :
    ∃ d', decodeGroup (.dict d) bucketGroup = .ok (.dict d') ∧ SameBut bucketGroup d d' := by
  obtain ⟨items, hlookup, hcount⟩ := h
  have hget : getItem (.dict d) bucketGroup = .ok (.dict items) := getItem_eq_ok.mpr ⟨d, rfl, hlookup⟩
  obtain ⟨decoded, hdecoded⟩ : ∃ decoded, items.mapM (fun kv => do
      let value ← decodeCount "bucket counts must be decimal integers" kv.2
      Except.ok (kv.1, value)) = .ok decoded := by
    apply exists_mapM
    intro kv hkv
    cases hvalue : kv.2 with
    | str s =>
      obtain ⟨n, hn⟩ := exists_decimal (hcount kv hkv s hvalue) "bucket counts must be decimal integers"
      refine ⟨(kv.1, .int n), ?_⟩
      rw [decodeCount, hn]
      rfl
    | _ => exact ⟨_, rfl⟩
  refine ⟨d.set (.str bucketGroup) (.dict decoded), ?_, fun _ hk => lookup_set_of_ne hk⟩
  rw [decodeGroup, hget]
  show (items.mapM _ >>= fun items => Except.ok (setItem (.dict d) bucketGroup (.dict items))) = _
  rw [hdecoded]
  rfl

theorem decodeGroup_noItems {d : Items} {bucketGroup : String} (h : NoItems d bucketGroup) :
    ∃ msg, decodeGroup (.dict d) bucketGroup = .error (.attributeError msg) := by
  obtain ⟨v, hlookup, hno⟩ := h
  have hget : getItem (.dict d) bucketGroup = .ok v := getItem_eq_ok.mpr ⟨d, rfl, hlookup⟩
  refine ⟨"'" ++ v.typeName ++ "' object has no attribute 'items'", ?_⟩
  rw [decodeGroup, hget]
  cases v with
  | dict items => exact absurd rfl (hno items)
  | _ => rfl

theorem Countable.of_same {d d' : Items} {k key : String} (h : Countable d key)
    (hsame : SameBut k d d') (hne : key ≠ k) :
    Countable d' key := by
  obtain ⟨v, hlookup, hcount⟩ := h
  exact ⟨v, (hsame _ fun h => hne (PyKey.str.inj h)).trans hlookup, hcount⟩

theorem NoItems.of_same {d d' : Items} {k key : String} (h : NoItems d key) (hsame : SameBut k d d')
    (hne : key ≠ k) :
    NoItems d' key := by
  obtain ⟨v, hlookup, hno⟩ := h
  exact ⟨v, (hsame _ fun h => hne (PyKey.str.inj h)).trans hlookup, hno⟩

theorem CountedGroup.of_same {d d' : Items} {k key : String} (h : CountedGroup d key)
    (hsame : SameBut k d d')
    (hne : key ≠ k) : CountedGroup d' key := by
  obtain ⟨items, hlookup, hcount⟩ := h
  exact ⟨items, (hsame _ fun h => hne (PyKey.str.inj h)).trans hlookup, hcount⟩

theorem SameBut.symm {k : String} {d d' : Items} (h : SameBut k d d') : SameBut k d' d :=
  fun key hkey => (h key hkey).symm

/-! ## The one access that is not caught

`GroupReached` follows the handler up to that access. Exactly when it is reached, the exception is
none that the handler catches. -/

theorem raises_decodeState {state : Items} (h : ∀ latency events, ¬ GroupReached state latency events) :
    Raises Raised.Caught (decodeState state) := by
  refine (raises_getItem _ _).bind fun latency hlatency =>
    (raises_getItem _ _).bind fun events hevents => ?_
  -- the fields are decoded in this order, and each may raise an error the caller catches
  refine (raises_decodeField _ _).bind fun _ htotal =>
    (raises_decodeField _ _).bind fun latency₁ hzero => ?_
  refine (raises_decodeField _ _).bind fun latency₂ hcount =>
    (raises_decodeField _ _).bind fun events₁ hetotal => ?_
  -- what came through was a group of items, with its field decoded
  obtain ⟨_, ⟨⟩, hlatency⟩ := getItem_eq_ok.mp hlatency
  obtain ⟨_, ⟨⟩, hevents⟩ := getItem_eq_ok.mp hevents
  obtain ⟨_, _, ⟨⟩, -, htotal, -⟩ := decodeField_eq_ok htotal
  obtain ⟨l, l₁, rfl, rfl, hzero, hl₁⟩ := decodeField_eq_ok hzero
  obtain ⟨_, l₂, ⟨⟩, rfl, hcount, hl₂⟩ := decodeField_eq_ok hcount
  obtain ⟨e, _, rfl, -, hetotal, -⟩ := decodeField_eq_ok hetotal
  -- the fields decoded so far leave the two groups as they stood in `state`
  have hreached : NoItems l₂ "positive" ∨ CountedGroup l₂ "positive" ∧ NoItems l₂ "negative"
    → GroupReached state l e := by
    intro hgroup
    refine ⟨hlatency, hevents, htotal, hzero, hcount.of_same hl₁.symm (by decide), hetotal, ?_⟩
    obtain hpositive | ⟨hpositive, hnegative⟩ := hgroup
    · exact .inl ((hpositive.of_same hl₂.symm (by decide)).of_same hl₁.symm (by decide))
    · exact .inr ⟨(hpositive.of_same hl₂.symm (by decide)).of_same hl₁.symm (by decide),
        (hnegative.of_same hl₂.symm (by decide)).of_same hl₁.symm (by decide)⟩
  -- so a group without items would be reached, which is excluded
  have hpositive : Raises Raised.Caught (decodeGroup (.dict l₂) "positive") := by
    apply raises_decodeGroup
    rintro _ ⟨⟩ hno
    exact h l e (hreached (.inl hno))
  refine hpositive.bind fun latency₃ hgroup => ?_
  obtain ⟨_, l₃, ⟨⟩, rfl, hcounted, hl₃⟩ := decodeGroup_eq_ok hgroup
  have hnegative : Raises Raised.Caught (decodeGroup (.dict l₃) "negative") := by
    apply raises_decodeGroup
    rintro _ ⟨⟩ hno
    exact h l e (hreached (.inr ⟨hcounted, hno.of_same hl₃.symm (by decide)⟩))
  exact hnegative.bind fun _ _ => (raises_decodeTable _).bind fun _ _ => .of_ok _

theorem decodeState_of_groupReached {state latency events : Items}
    (h : GroupReached state latency events) :
    ∃ msg, decodeState state = .error (.attributeError msg) := by
  have hlatency : getItem (.dict state) "latency" = .ok (.dict latency) :=
    getItem_eq_ok.mpr ⟨state, rfl, h.latency_eq⟩
  have hevents : getItem (.dict state) "events" = .ok (.dict events) :=
    getItem_eq_ok.mpr ⟨state, rfl, h.events_eq⟩
  -- every field ahead of the group decodes
  obtain ⟨state', htotal, -⟩ := exists_decodeField h.total
  obtain ⟨l₁, hzero, hl₁⟩ := exists_decodeField h.zero_count
  obtain ⟨l₂, hcount, hl₂⟩ := exists_decodeField (h.count.of_same hl₁ (by decide))
  obtain ⟨e₁, hetotal, -⟩ := exists_decodeField h.events_total
  unfold decodeState
  rw [hlatency, hevents]
  simp only [ok_bind, htotal, hzero, hcount, hetotal]
  -- the group without items is the positive one or, behind it, the negative one
  obtain hno | ⟨hcounted, hno⟩ := h.group
  · obtain ⟨msg, hmsg⟩ := decodeGroup_noItems ((hno.of_same hl₁ (by decide)).of_same hl₂ (by decide))
    refine ⟨msg, ?_⟩
    rw [hmsg]
    rfl
  · obtain ⟨l₃, hpositive, hl₃⟩ :=
      exists_decodeGroup ((hcounted.of_same hl₁ (by decide)).of_same hl₂ (by decide))
    obtain ⟨msg, hmsg⟩ := decodeGroup_noItems
      (((hno.of_same hl₁ (by decide)).of_same hl₂ (by decide)).of_same hl₃ (by decide))
    refine ⟨msg, ?_⟩
    rw [hpositive, ok_bind, hmsg]
    rfl

/-- **The decoding block classifies every state**, save those where it comes to a bucket group that
has no `items`: it goes on with a log that `from_dict` made of the decoded document, or it answers
422. -/
theorem mergeStream_classifies_iff (M : IndexMapping) (cppAvailable : Bool) (state : Items) :
    ((∃ incoming decoded, mergeStream M cppAvailable state = .lookup incoming
        ∧ decodeState state = .ok decoded
        ∧ Facade.StreamLog.fromDict M cppAvailable decoded = .ok incoming) ∨
      ∃ detail, mergeStream M cppAvailable state = .respond ⟨422, detail⟩) ↔
    ∀ latency events, ¬ GroupReached state latency events := by
  constructor
  · -- the error of such a state is an `AttributeError`, which nothing catches
    intro h latency events hreached
    obtain ⟨msg, hmsg⟩ := decodeState_of_groupReached hreached
    have hescape : mergeStream M cppAvailable state = .escape (.attributeError msg) := by
      rw [mergeStream, hmsg]
      rfl
    rw [hescape] at h
    obtain ⟨_, _, h, -⟩ | ⟨_, h⟩ := h
    · cases h
    · cases h
  · intro h
    -- without such a group every error is one that is answered with 422
    have hraises : Raises Raised.Caught (decodeState state >>= fun decoded =>
        liftPy (Facade.StreamLog.fromDict M cppAvailable decoded)) :=
      (raises_decodeState h).bind fun decoded _ =>
        raises_liftPy (Facade.StreamLog.raises_fromDict M cppAvailable decoded)
    unfold mergeStream
    show (∃ incoming decoded, _ ∧ _ ∧ _) ∨ _
    -- decoding and construction together either hand on a log or raise
    cases hcase : decodeState state >>= fun decoded =>
      liftPy (Facade.StreamLog.fromDict M cppAvailable decoded) with
    | ok incoming =>
      obtain ⟨decoded, hdecoded, hlift⟩ := bind_eq_ok.mp hcase
      refine .inl ⟨incoming, decoded, rfl, hdecoded, ?_⟩
      cases hfrom : Facade.StreamLog.fromDict M cppAvailable decoded with
      | ok log =>
        rw [hfrom] at hlift
        cases hlift
        rfl
      | error e =>
        rw [hfrom] at hlift
        cases hlift
    | error e =>
      refine .inr ⟨"Invalid sketch state: " ++ e.text, ?_⟩
      exact if_pos (hraises e hcase)

/-- Everything is well formed, but the positive buckets are a list. -/
def listGroup : Items :=
  [(.str "total", .int 0),
    (.str "latency", .dict [(.str "zero_count", .int 0), (.str "count", .int 0),
      (.str "positive", .list []),
      (.str "negative", .dict [])]),
    (.str "events", .dict [(.str "total", .int 0), (.str "table", .list [])])]

theorem mergeStream_listGroup (M : IndexMapping) (cppAvailable : Bool) :
    mergeStream M cppAvailable listGroup
      = .escape (.attributeError "'list' object has no attribute 'items'") := rfl

/-- The exception is none of the four. -/
theorem listGroup_not_classified :
    ¬ ((∃ incoming decoded, mergeStream .ternary false listGroup = .lookup incoming
        ∧ decodeState listGroup = .ok decoded
        ∧ Facade.StreamLog.fromDict .ternary false decoded = .ok incoming) ∨
      ∃ detail, mergeStream .ternary false listGroup = .respond ⟨422, detail⟩) := by
  rw [mergeStream_listGroup]
  rintro (⟨_, _, h, -⟩ | ⟨_, h⟩)
  · cases h
  · cases h

end Sketchlog.Server
