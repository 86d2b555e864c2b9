import Mathlib.Data.List.Basic
import Sketchlog.Server.OmniKV

/-!
# Keys and rows of OmniKV

The names in a key are in base64, which has no slash, so a key tells its names apart
(`tombstoneKey_inj`), tombstones and states have different keys (`stateKey_ne_tombstoneKey`), and a
scan for a node's tombstones finds no other node's (`nodeTombstones_isPrefix_iff`). What a store
holds under such keys is read back as it was put (`loadTombstones_eq`).
-/

namespace Sketchlog.Storage

open Checked

variable {E : Encodings} {n n' sk sk' : String}

/-! ## Keys

Parts are encoded without a slash, so a key determines its parts and the two families of keys are
disjoint. -/

theorem encodeKeyPart_injective (h : encodeKeyPart n = encodeKeyPart n') : n = n' := by
  have hbytes : n.toUTF8.data = n'.toUTF8.data := Array.toList_inj.mp (Base64.encode_injective h)
  exact String.toByteArray_inj.mp (ByteArray.ext hbytes)

theorem slash_not_mem_encodeKeyPart (n : String) : '/' ∉ encodeKeyPart n :=
  Base64.slash_not_mem_encode _

/-- Two names behind a common start. -/
theorem names_inj {start : List Char} {a a' b b' : List Char} (ha' : '/' ∉ a') (hb' : '/' ∉ b')
    (h : start ++ '/' :: a ++ '/' :: b = start ++ '/' :: a' ++ '/' :: b') : a = a' ∧ b = b' := by
  rw [List.append_assoc, List.append_assoc, List.append_cancel_left_eq, List.cons_append,
    List.cons_append,
    List.cons.injEq] at h
  have hsplit := (List.append_cons_inj_of_notMem ha' hb').mp h.2.symm
  exact ⟨hsplit.1.symm, hsplit.2.2.symm⟩

theorem toList_tombstoneKey (n sk : String) :
    (tombstoneKey n sk).toList = tombstoneKeys ++ '/' :: encodeKeyPart n ++ '/' :: encodeKeyPart
      sk := by
  simp [tombstoneKey, nodeTombstones]

theorem toList_stateKey (space streamId : String) :
    (stateKey space streamId).toList = stateKeys ++ '/' :: encodeKeyPart space
      ++ '/' :: encodeKeyPart streamId := by
  simp [stateKey]

/-- **The key of a tombstone tells its node and stream.** -/
theorem tombstoneKey_inj : tombstoneKey n sk = tombstoneKey n' sk' ↔ n = n' ∧ sk = sk' := by
  constructor
  · intro h
    have hchars := congrArg String.toList h
    rw [toList_tombstoneKey, toList_tombstoneKey] at hchars
    obtain ⟨hnode, hstream⟩ :=
      names_inj (slash_not_mem_encodeKeyPart n') (slash_not_mem_encodeKeyPart sk') hchars
    exact ⟨encodeKeyPart_injective hnode, encodeKeyPart_injective hstream⟩
  · rintro ⟨rfl, rfl⟩
    rfl

/-- The key of a state tells its names. -/
theorem stateKey_inj {space space' streamId streamId' : String}
    (h : stateKey space streamId = stateKey space' streamId') :
    space = space' ∧ streamId = streamId' := by
  have hchars := congrArg String.toList h
  rw [toList_stateKey, toList_stateKey] at hchars
  obtain ⟨hspace, hstream⟩ :=
    names_inj (slash_not_mem_encodeKeyPart space') (slash_not_mem_encodeKeyPart streamId') hchars
  exact ⟨encodeKeyPart_injective hspace, encodeKeyPart_injective hstream⟩

/-- The first characters in which the keys of states and tombstones differ. -/
theorem take_stateKey (space streamId : String) : (stateKey space streamId).toList.take 14
    = "sketchlog/v1/s".toList := by
  rw [toList_stateKey, List.append_assoc, List.take_append_of_le_length (by decide)]
  decide

theorem take_tombstoneKeys (rest : List Char) :
    (tombstoneKeys ++ rest).take 14 = "sketchlog/v1/t".toList := by
  rw [List.take_append_of_le_length (by decide)]
  decide

theorem stateKey_ne_tombstoneKey (space streamId n sk : String) :
    stateKey space streamId ≠ tombstoneKey n sk := by
  intro h
  have hchars := congrArg (fun s => s.toList.take 14) h
  simp only [take_stateKey, toList_tombstoneKey, List.append_assoc, take_tombstoneKeys] at hchars
  exact absurd hchars (by decide)

/-- A scan for a node finds the keys of its tombstones, and of no other's. -/
theorem nodeTombstones_isPrefix_iff : (nodeTombstones n).isPrefixOf (tombstoneKey n' sk).toList
    ↔ n = n' := by
  rw [List.isPrefixOf_iff_prefix]
  constructor
  · rintro ⟨rest, hrest⟩
    rw [toList_tombstoneKey, nodeTombstones, List.append_assoc, List.singleton_append] at hrest
    have hnames := names_inj (slash_not_mem_encodeKeyPart n') (slash_not_mem_encodeKeyPart sk) hrest
    exact encodeKeyPart_injective hnames.1
  · rintro rfl
    exact ⟨encodeKeyPart sk, by simp [tombstoneKey]⟩

theorem nodeTombstones_not_isPrefix_stateKey (n space streamId : String) :
    (nodeTombstones n).isPrefixOf (stateKey space streamId).toList = false := by
  rw [Bool.eq_false_iff, Ne, List.isPrefixOf_iff_prefix]
  rintro ⟨rest, hrest⟩
  have hchars := congrArg (List.take 14) hrest
  rw [take_stateKey, nodeTombstones, List.append_assoc, List.append_assoc, take_tombstoneKeys] at hchars
  exact absurd hchars (by decide)

/-! ## Rows

`load_tombstones` reads back what `save_tombstone` wrote, for the node's own rows and no other. -/

/-- JSON gives the document of a tombstone back. -/
def Encodings.KeepsTombstones (E : Encodings) : Prop :=
  ∀ sk v, E.loads (tombstoneEnvelope E sk v) = .ok (.dict (tombstoneDict sk v))

/-- Every entry of a store is a state or a tombstone, under its key. -/
def Kept (E : Encodings) (store : Dict String Bytes) : Prop :=
  ∀ key value, store.get? key = some value → (∃ space streamId, key = stateKey space streamId)
    ∨ ∃ n sk v, key = tombstoneKey n sk ∧ value = tombstoneEnvelope E sk v

section Rows

variable (hE : E.KeepsTombstones) {v : Binary64} {store : Dict String Bytes}

include hE

theorem tombstoneVersion_envelope (sk : String) (v : Binary64) :
    tombstoneVersion E (some (tombstoneEnvelope E sk v)) = .ok (.fin v) := by
  have hread : readTombstone E (tombstoneEnvelope E sk v) = .ok (.fin v) := by
    unfold readTombstone
    rw [hE]
    rfl
  simp only [tombstoneVersion, hread]

/-- An envelope tells its version. -/
theorem tombstoneEnvelope_inj {v v' : Binary64}
    (h : tombstoneEnvelope E sk v = tombstoneEnvelope E sk v') : v = v' := by
  have hv := tombstoneVersion_envelope hE sk v
  rw [h, tombstoneVersion_envelope hE sk v', Except.ok.injEq, PyFloat.fin.injEq] at hv
  exact hv.symm

theorem loadRow_envelope (str : PyVal → String) {d : Dict String PyFloat}
    (hfresh : d.get? sk = none) (key : String) :
    loadRow E str d (key, tombstoneEnvelope E sk v) = .ok (d.set sk (.fin v)) := by
  have hread : readRow E str (tombstoneEnvelope E sk v) = .ok (sk, .fin v) := by
    unfold readRow
    rw [hE]
    rfl
  have hmax : floatMax (.fin v) (.fin v) = .fin v := by
    unfold floatMax
    split <;> rfl
  unfold loadRow
  rw [hread]
  show Except.ok (d.set sk (floatMax (.fin v) ((d.get? sk).getD (.fin v)))) = _
  rw [hfresh, Option.getD_none, hmax]

/-- The rows of a node, with distinct keys. -/
theorem foldlM_loadRow (str : PyVal → String) {rows : List (String × Bytes)}
    {d : Dict String PyFloat} (hnodup : (rows.map Prod.fst).Nodup)
    (hrows : ∀ row ∈ rows, ∃ sk v, row = (tombstoneKey n sk, tombstoneEnvelope E sk v) ∧ d.get? sk
      = none) :
    ∃ d', rows.foldlM (loadRow E str) d = .ok d'
      ∧ ∀ sk x, d'.get? sk = some x ↔ d.get? sk = some x
        ∨ ∃ v, x = .fin v ∧ (tombstoneKey n sk, tombstoneEnvelope E sk v) ∈ rows := by
  induction rows generalizing d with
  | nil => exact ⟨d, rfl, fun sk x => by simp⟩
  | cons row rest ih =>
    obtain ⟨sk, v, rfl, hfresh⟩ := hrows row List.mem_cons_self
    rw [List.map_cons, List.nodup_cons] at hnodup
    -- no later row is about the stream of this one
    have hlater : ∀ sk' v', (tombstoneKey n sk', tombstoneEnvelope E sk' v') ∈ rest → sk' ≠ sk := by
      rintro sk' v' hmem rfl
      exact hnodup.1 (List.mem_map.mpr ⟨_, hmem, rfl⟩)
    have hrest : ∀ row ∈ rest, ∃ sk' v', row = (tombstoneKey n sk', tombstoneEnvelope E sk' v')
        ∧ (d.set sk (.fin v)).get? sk' = none := by
      intro row hmem
      obtain ⟨sk', v', rfl, hfresh'⟩ := hrows row (List.mem_cons_of_mem _ hmem)
      refine ⟨sk', v', rfl, ?_⟩
      rw [Dict.get?_set_of_ne (hlater sk' v' hmem)]
      exact hfresh'
    obtain ⟨d', hrun, hget⟩ := ih hnodup.2 hrest
    refine ⟨d', ?_, fun sk' x => ?_⟩
    · rw [List.foldlM_cons, loadRow_envelope hE str hfresh]
      exact hrun
    · rw [hget, Dict.get?_set]
      by_cases hsk : sk' = sk
      · subst hsk
        rw [if_pos rfl, hfresh]
        constructor
        · rintro (heq | ⟨v', -, hmem⟩)
          · exact .inr ⟨v, (Option.some.inj heq).symm, List.mem_cons_self⟩
          · exact absurd rfl (hlater sk' v' hmem)
        · rintro (hnone | ⟨v', rfl, hmem⟩)
          · cases hnone
          · rcases List.mem_cons.mp hmem with heq | hmem
            · exact .inl (by rw [tombstoneEnvelope_inj hE (Prod.mk.inj heq).2])
            · exact absurd rfl (hlater sk' v' hmem)
      · have hhead : ∀ v', (tombstoneKey n sk', tombstoneEnvelope E sk' v')
          ≠ (tombstoneKey n sk, tombstoneEnvelope E sk v) :=
          fun v' heq => hsk (tombstoneKey_inj.mp (Prod.mk.inj heq).1).2
        simp only [if_neg hsk, List.mem_cons, hhead, false_or]

/-- **`load_tombstones` returns the stored versions of the node.** -/
theorem loadTombstones_eq (str : PyVal → String) (hkept : Kept E store) (n : String) :
    ∃ loaded, loadTombstones E str store n = .ok loaded
      ∧ ∀ sk x, loaded.get? sk = some x ↔ store.get? (tombstoneKey n sk) ≠ none
        ∧ tombstoneVersion E (store.get? (tombstoneKey n sk)) = .ok x := by
  -- the scan yields every key of the store once
  have hnodup : ((scanPrefix store (nodeTombstones n)).map Prod.fst).Nodup :=
    store.nodup.sublist (List.filter_sublist.map Prod.fst)
  have hmem : ∀ key value, (key, value) ∈ scanPrefix store (nodeTombstones n)
      ↔ store.get? key = some value ∧ (nodeTombstones n).isPrefixOf key.toList := by
    intro key value
    rw [scanPrefix, List.mem_filter, Dict.get?_eq_some_iff]
  obtain ⟨loaded, hrun, hget⟩ := foldlM_loadRow hE str (n := n) (d := ∅) hnodup fun row hrow => by
    obtain ⟨key, value⟩ := row
    obtain ⟨hvalue, hprefix⟩ := (hmem key value).mp hrow
    -- under the node's prefix stand tombstones of this node only
    rcases hkept key value hvalue with ⟨space, streamId, rfl⟩ | ⟨n', sk, v, rfl, rfl⟩
    · rw [nodeTombstones_not_isPrefix_stateKey] at hprefix
      cases hprefix
    · exact ⟨sk, v, by rw [nodeTombstones_isPrefix_iff.mp hprefix], rfl⟩
  refine ⟨loaded, hrun, fun sk x => ?_⟩
  rw [hget]
  constructor
  · rintro (hnone | ⟨v, rfl, hrow⟩)
    · cases hnone
    · have hvalue := ((hmem _ _).mp hrow).1
      rw [hvalue]
      exact ⟨Option.some_ne_none _, tombstoneVersion_envelope hE sk v⟩
  · rintro ⟨hstored, hversion⟩
    obtain ⟨value, hvalue⟩ := Option.ne_none_iff_exists'.mp hstored
    -- a tombstone key is no state key, and it names its node and stream
    rcases hkept _ value hvalue with ⟨space, streamId, heq⟩ | ⟨n', sk', v, heq, rfl⟩
    · exact absurd heq.symm (stateKey_ne_tombstoneKey space streamId n sk)
    · obtain ⟨rfl, rfl⟩ := tombstoneKey_inj.mp heq
      rw [hvalue, tombstoneVersion_envelope hE, Except.ok.injEq] at hversion
      exact .inr ⟨v, hversion.symm, (hmem _ _).mpr ⟨hvalue, nodeTombstones_isPrefix_iff.mpr rfl⟩⟩

end Rows

end Sketchlog.Storage
