import Sketchlog.Lib.Dict

/-!
# Dictionaries in the order of use

A dictionary that moves a key to its end when the key is used, and appends new ones, has the key
that was not used for the longest time first. `uses` is the record of the uses, the last one first,
so a key was used later the earlier it stands there. `Ordered.use` is one use, `Ordered.head` what
being first means.
-/

namespace Recency

variable {α β : Type*} [DecidableEq α] {uses keys : List α} {a b k : α}

/-- `a` was last used before `b` was. -/
def Older (uses : List α) (a b : α) : Prop := uses.idxOf b < uses.idxOf a

/-- The keys in the order of their last use. -/
def Ordered (uses keys : List α) : Prop := keys.Pairwise (Older uses)

theorem Older.use (ha : a ≠ k) (hb : b ≠ k) (h : Older uses a b) : Older (k :: uses) a b := by
  unfold Older
  rw [List.idxOf_cons_ne _ ha.symm, List.idxOf_cons_ne _ hb.symm]
  exact Nat.succ_lt_succ h

theorem older_use (ha : a ≠ k) : Older (k :: uses) a k := by
  unfold Older
  rw [List.idxOf_cons_ne _ ha.symm, List.idxOf_cons_self]
  exact Nat.succ_pos _

/-- The use of another key. -/
theorem Ordered.use_of_not_mem (h : Ordered uses keys) (hk : k ∉ keys) : Ordered (k :: uses) keys := by
  refine List.Pairwise.imp_of_mem (fun ha hb hab => ?_) h
  exact hab.use (fun heq => hk (heq ▸ ha)) fun heq => hk (heq ▸ hb)

theorem Ordered.sublist {keys' : List α} (h : Ordered uses keys) (hsub : keys'.Sublist keys) :
    Ordered uses keys' :=
  List.Pairwise.sublist hsub h

/-- The use of a key that goes to the end. -/
theorem Ordered.use (h : Ordered uses keys) (k : α) :
    Ordered (k :: uses) (keys.filter (· ≠ k) ++ [k]) := by
  have hothers : ∀ a ∈ keys.filter (· ≠ k), a ≠ k :=
    fun a ha => of_decide_eq_true (List.mem_filter.mp ha).2
  refine List.pairwise_append.mpr ⟨?_, List.pairwise_singleton _ _, ?_⟩
  · exact (h.sublist List.filter_sublist).use_of_not_mem fun hk => hothers k hk rfl
  · intro a ha b hb
    rw [List.mem_singleton.mp hb]
    exact older_use (hothers a ha)

/-- The first key is the one that was not used for the longest time. -/
theorem Ordered.head (h : Ordered uses keys) (hfirst : keys.head? = some a) (hb : b ∈ keys)
    (hne : b ≠ a) :
    Older uses a b := by
  obtain ⟨rest, hrest⟩ := List.head?_eq_some_iff.mp hfirst
  rw [hrest] at h hb
  rcases List.mem_cons.mp hb with hb | hb
  · exact absurd hb hne
  · exact (List.pairwise_cons.mp h).1 b hb

/-! ## Keys and sums of a dictionary -/

variable {d : Dict α β}

theorem keys_moveToEnd {v : β} (h : d.get? k = some v) :
    (d.moveToEnd k).keys = d.keys.filter (· ≠ k) ++ [k] := by
  have hmove : d.moveToEnd k = (d.pop k).set k v := by
    unfold Dict.moveToEnd
    rw [h]
  have hnot : k ∉ (d.pop k).keys := Dict.get?_eq_none_iff.mp Dict.get?_pop_self
  rw [hmove, Dict.keys_set, if_neg hnot, Dict.keys_pop]

theorem keys_set_of_not_mem (h : k ∉ d.keys) (v : β) :
    (d.set k v).keys = d.keys.filter (· ≠ k) ++ [k] := by
  have hall : d.keys.filter (· ≠ k) = d.keys :=
    List.filter_eq_self.mpr fun a ha => decide_eq_true fun heq => h (heq ▸ ha)
  rw [Dict.keys_set, if_neg h, hall]

theorem sum_pop_of_get? {f : α → β → ℕ} {v : β} (h : d.get? k = some v) :
    ((d.pop k).items.map fun kv => f kv.1 kv.2).sum + f k v
      = (d.items.map fun kv => f kv.1 kv.2).sum := by
  have hset := Dict.sum_set_of_none (f := f) (v := v) (Dict.get?_pop_self (d := d) (k := k))
  rw [← hset]
  have hmove : d.moveToEnd k = (d.pop k).set k v := by
    unfold Dict.moveToEnd
    rw [h]
  -- the items are the same in another order
  have hperm : ((d.pop k).set k v).items.Perm d.items := by
    refine (List.perm_ext_iff_of_nodup ?_ ?_).mpr fun item => ?_
    · exact List.Nodup.of_map _ ((d.pop k).set k v).nodup
    · exact List.Nodup.of_map _ d.nodup
    · rw [← Dict.get?_eq_some_iff, ← Dict.get?_eq_some_iff, ← hmove, Dict.get?_moveToEnd]
  exact (hperm.map _).sum_eq

end Recency
