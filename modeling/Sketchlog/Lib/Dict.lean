import Mathlib

/-!
# Insertion-ordered dictionaries

`Dict α β` is a list of items with distinct keys. Setting a key that is present replaces its value in
place, setting a new one appends it, and popping and re-setting moves it to the end. What a dictionary
means is its lookups; `get?_set`, `get?_pop` and `get?_moveToEnd` give them for every operation, and
`size_set`, `size_pop` the number of keys. A dictionary built from a list of values by their keys is
read in `get?_foldl_set`, and one built from what a function makes of the items of another in
`get?_foldl_set_filterMap`.
-/

/-- A dictionary, by its items in insertion order. -/
structure Dict (α β : Type*) where
  items : List (α × β)
  nodup : (items.map Prod.fst).Nodup

namespace Dict

variable {α β : Type*}

instance : EmptyCollection (Dict α β) := ⟨⟨[], List.nodup_nil⟩⟩

def keys (d : Dict α β) : List α := d.items.map Prod.fst

theorem nodup_keys (d : Dict α β) : d.keys.Nodup := d.nodup

def size (d : Dict α β) : ℕ := d.items.length

def isEmpty (d : Dict α β) : Bool := d.items.isEmpty

variable [DecidableEq α]

def get? (d : Dict α β) (k : α) : Option β := (d.items.find? fun kv => kv.1 = k).map Prod.snd

/-- The items after `d[k] = v`. -/
def setItems (items : List (α × β)) (k : α) (v : β) : List (α × β) :=
  if k ∈ items.map Prod.fst then items.map fun kv => if kv.1 = k then (k, v) else kv
  else items ++ [(k, v)]

theorem keys_setItems (items : List (α × β)) (k : α) (v : β) :
    (setItems items k v).map Prod.fst
      = if k ∈ items.map Prod.fst then items.map Prod.fst else items.map Prod.fst ++ [k] := by
  unfold setItems
  by_cases hk : k ∈ items.map Prod.fst
  · rw [if_pos hk, if_pos hk, List.map_map]
    refine List.map_congr_left fun kv _ => ?_
    show (if kv.1 = k then (k, v) else kv).1 = kv.1
    split
    · next h => exact h.symm
    · rfl
  · rw [if_neg hk, if_neg hk, List.map_append]
    rfl

/-- `d[k] = v`. -/
def set (d : Dict α β) (k : α) (v : β) : Dict α β where
  items := setItems d.items k v
  nodup := by
    rw [keys_setItems]
    split
    · exact d.nodup
    · next hk => exact List.nodup_append'.mpr ⟨d.nodup, List.nodup_singleton k, by simpa using hk⟩

/-- `d.pop(k, None)`. -/
def pop (d : Dict α β) (k : α) : Dict α β where
  items := d.items.filter fun kv => kv.1 ≠ k
  nodup := d.nodup.sublist (List.filter_sublist.map _)

/-- `d.move_to_end(k)`, for a key that is present. -/
def moveToEnd (d : Dict α β) (k : α) : Dict α β :=
  match d.get? k with
  | some v => (d.pop k).set k v
  | none => d

omit [DecidableEq α] in
/-- The same keys, with other values. -/
def mapVal {γ : Type*} (f : β → γ) (d : Dict α β) : Dict α γ where
  items := d.items.map fun kv => (kv.1, f kv.2)
  nodup := by
    rw [List.map_map]
    exact d.nodup

/-- `next(iter(d.items()))`. -/
def first? (d : Dict α β) : Option (α × β) := d.items.head?

variable {d : Dict α β} {k k' : α} {v : β}

/-! ## Lookups

What each operation does to a lookup, at the key and elsewhere. -/

theorem get?_eq_some_iff : d.get? k = some v ↔ (k, v) ∈ d.items := by
  unfold get?
  constructor
  · intro h
    obtain ⟨kv, hfind, hv⟩ := Option.map_eq_some_iff.mp h
    have hk : kv.1 = k := by simpa using List.find?_some hfind
    have hkv : kv = (k, v) := Prod.ext hk hv
    exact hkv ▸ List.mem_of_find?_eq_some hfind
  · intro h
    cases hfind : d.items.find? fun kv => kv.1 = k with
    | none =>
      have hne := List.find?_eq_none.mp hfind (k, v) h
      exact absurd (decide_eq_true rfl) hne
    | some kv =>
      -- two items with one key are the same item
      have hk : kv.1 = k := by simpa using List.find?_some hfind
      have hmem := List.mem_of_find?_eq_some hfind
      have heq := List.inj_on_of_nodup_map d.nodup hmem h hk
      rw [heq]
      rfl

theorem get?_isSome_iff : (d.get? k).isSome ↔ k ∈ d.keys := by
  rw [Option.isSome_iff_exists, keys, List.mem_map]
  constructor
  · intro ⟨v, hv⟩
    exact ⟨(k, v), get?_eq_some_iff.mp hv, rfl⟩
  · intro ⟨kv, hkv, hk⟩
    exact ⟨kv.2, get?_eq_some_iff.mpr (hk ▸ hkv)⟩

theorem get?_eq_none_iff : d.get? k = none ↔ k ∉ d.keys := by
  rw [← get?_isSome_iff, Option.not_isSome_iff_eq_none]

@[simp] theorem get?_empty : (∅ : Dict α β).get? k = none := rfl

@[simp] theorem get?_set_self : (d.set k v).get? k = some v := by
  rw [get?_eq_some_iff]
  show (k, v) ∈ setItems d.items k v
  unfold setItems
  split
  · next hk =>
    obtain ⟨kv, hkv, hk'⟩ := List.mem_map.mp hk
    exact List.mem_map.mpr ⟨kv, hkv, if_pos hk'⟩
  · exact List.mem_append_right _ List.mem_cons_self

theorem get?_set_of_ne (h : k' ≠ k) : (d.set k v).get? k' = d.get? k' := by
  refine Option.ext fun w => ?_
  rw [get?_eq_some_iff, get?_eq_some_iff]
  show (k', w) ∈ setItems d.items k v ↔ _
  unfold setItems
  split
  · rw [List.mem_map]
    constructor
    · intro ⟨kv, hkv, heq⟩
      by_cases hk : kv.1 = k
      · rw [if_pos hk] at heq
        exact absurd (congrArg Prod.fst heq).symm h
      · rw [if_neg hk] at heq
        exact heq ▸ hkv
    · intro hmem
      exact ⟨(k', w), hmem, if_neg h⟩
  · rw [List.mem_append, List.mem_singleton]
    exact or_iff_left fun heq => h (congrArg Prod.fst heq)

theorem get?_set : (d.set k v).get? k' = if k' = k then some v else d.get? k' := by
  by_cases h : k' = k
  · rw [if_pos h, h, get?_set_self]
  · rw [if_neg h, get?_set_of_ne h]

theorem get?_pop : (d.pop k).get? k' = if k' = k then none else d.get? k' := by
  refine Option.ext fun w => ?_
  rw [get?_eq_some_iff]
  show (k', w) ∈ d.items.filter _ ↔ _
  rw [List.mem_filter, ← get?_eq_some_iff]
  by_cases h : k' = k
  · simp [h]
  · simp [h]

@[simp] theorem get?_pop_self : (d.pop k).get? k = none := by rw [get?_pop, if_pos rfl]

theorem get?_moveToEnd : (d.moveToEnd k).get? k' = d.get? k' := by
  unfold moveToEnd
  cases h : d.get? k with
  | none => rfl
  | some v =>
    show ((d.pop k).set k v).get? k' = _
    rw [get?_set, get?_pop]
    by_cases hk : k' = k
    · rw [if_pos hk, hk, h]
    · rw [if_neg hk, if_neg hk]

theorem get?_mapVal {γ : Type*} (f : β → γ) : (d.mapVal f).get? k = (d.get? k).map f := by
  show ((d.items.map fun kv => (kv.1, f kv.2)).find? _).map Prod.snd
    = ((d.items.find? _).map Prod.snd).map f
  rw [List.find?_map, Option.map_map, Option.map_map]
  rfl

omit [DecidableEq α] in
theorem isEmpty_iff : d.isEmpty = true ↔ d.items = [] := List.isEmpty_iff

theorem isEmpty_iff_get? : d.isEmpty = true ↔ ∀ k, d.get? k = none := by
  rw [isEmpty_iff]
  constructor
  · intro h k
    rw [get?_eq_none_iff, keys, h]
    exact List.not_mem_nil
  · intro h
    refine List.eq_nil_iff_forall_not_mem.mpr fun kv hkv => ?_
    have hnone := h kv.1
    rw [get?_eq_some_iff.mpr hkv] at hnone
    cases hnone

theorem first?_get? {kv : α × β} (h : d.first? = some kv) : d.get? kv.1 = some kv.2 :=
  get?_eq_some_iff.mpr (List.mem_of_head? h)

omit [DecidableEq α] in
theorem first?_eq_none_iff : d.first? = none ↔ d.isEmpty = true := by
  rw [isEmpty_iff]
  exact List.head?_eq_none_iff

/-! ## Sizes -/

theorem mem_keys_of_get? (h : d.get? k = some v) : k ∈ d.keys :=
  get?_isSome_iff.mp (by rw [h]; rfl)

omit [DecidableEq α] in
theorem size_eq_length_keys : d.size = d.keys.length := (List.length_map _).symm

theorem keys_set : (d.set k v).keys = if k ∈ d.keys then d.keys else d.keys ++ [k] :=
  keys_setItems d.items k v

theorem size_set : (d.set k v).size = if k ∈ d.keys then d.size else d.size + 1 := by
  rw [size_eq_length_keys, keys_set]
  split
  · exact size_eq_length_keys.symm
  · rw [List.length_append, ← size_eq_length_keys]
    rfl

theorem keys_pop : (d.pop k).keys = d.keys.filter (· ≠ k) := by
  show (d.items.filter _).map Prod.fst = (d.items.map Prod.fst).filter _
  rw [List.filter_map]
  rfl

theorem size_pop_of_mem (h : k ∈ d.keys) : (d.pop k).size + 1 = d.size := by
  have hkeys : (d.pop k).keys = d.keys.erase k := by
    rw [keys_pop, d.nodup_keys.erase_eq_filter]
    refine List.filter_congr fun x _ => ?_
    by_cases hx : x = k
    · simp [hx]
    · simp [hx]
  rw [size_eq_length_keys, size_eq_length_keys, hkeys, List.length_erase_of_mem h]
  have hpos := List.length_pos_of_mem h
  omega

theorem size_moveToEnd : (d.moveToEnd k).size = d.size := by
  unfold moveToEnd
  cases h : d.get? k with
  | none => rfl
  | some v =>
    have hmem := mem_keys_of_get? h
    have hnot : k ∉ (d.pop k).keys := get?_eq_none_iff.mp get?_pop_self
    show ((d.pop k).set k v).size = d.size
    rw [size_set, if_neg hnot, size_pop_of_mem hmem]

/-- The keys of a dictionary lie in a set that is as large as the dictionary at least. -/
theorem size_le_card {s : Finset α} (h : ∀ k, k ∈ d.keys → k ∈ s) : d.size ≤ s.card := by
  rw [size_eq_length_keys, ← List.toFinset_card_of_nodup d.nodup_keys]
  exact Finset.card_le_card fun k hk => h k (List.mem_toFinset.mp hk)

/-! ## Sums over the items -/

theorem sum_set_of_none {f : α → β → ℕ} (h : d.get? k = none) :
    ((d.set k v).items.map fun kv => f kv.1 kv.2).sum = (d.items.map fun kv =>
      f kv.1 kv.2).sum + f k v := by
  have hitems : (d.set k v).items = d.items ++ [(k, v)] := if_neg (get?_eq_none_iff.mp h)
  rw [hitems, List.map_append, List.sum_append]
  rfl

theorem sum_set_of_get? {f : α → β → ℕ} {w : β} (h : d.get? k = some w) :
    ((d.set k v).items.map fun kv => f kv.1 kv.2).sum + f k w
      = (d.items.map fun kv => f kv.1 kv.2).sum + f k v := by
  have hmem : (k, w) ∈ d.items := get?_eq_some_iff.mp h
  have hitems : (d.set k v).items = d.items.map fun kv => if kv.1 = k then (k, v) else kv :=
    if_pos (mem_keys_of_get? h)
  -- the item with the key splits the list, and no other item has it
  obtain ⟨before, rest, hsplit⟩ := List.append_of_mem hmem
  have hnodup := d.nodup
  rw [hsplit, List.map_append, List.map_cons, List.nodup_append'] at hnodup
  have hbefore : ∀ kv ∈ before, kv.1 ≠ k := by
    intro kv hkv heq
    have hfst : k ∈ before.map Prod.fst := heq ▸ List.mem_map_of_mem (f := Prod.fst) hkv
    exact hnodup.2.2 hfst List.mem_cons_self
  have hrest : ∀ kv ∈ rest, kv.1 ≠ k := by
    intro kv hkv heq
    have hfst : k ∈ rest.map Prod.fst := heq ▸ List.mem_map_of_mem (f := Prod.fst) hkv
    exact (List.nodup_cons.mp hnodup.2.1).1 hfst
  have hsame : ∀ l : List (α × β), (∀ kv ∈ l, kv.1 ≠ k)
    → (l.map fun kv => if kv.1 = k then (k, v) else kv) = l := by
    intro l hl
    refine (List.map_congr_left fun kv hkv => if_neg (hl kv hkv)).trans (List.map_id l)
  rw [hitems, hsplit, List.map_append, List.map_cons, if_pos rfl, hsame before hbefore,
    hsame rest hrest]
  simp only [List.map_append, List.map_cons, List.sum_append, List.sum_cons]
  omega

/-! ## Dictionaries built from lists

A fold of `set` over a list with distinct keys has each pair of the list, and nothing else. -/

/-- `{key(v): v for v in values}`, over the entries of a dictionary, when no two values have one key. -/
theorem get?_foldl_set {key : β → α} {values : List β} {entries : Dict α β}
    (hnodup : (values.map key).Nodup) :
    (values.foldl (fun entries v => entries.set (key v) v) entries).get? k = some v
      ↔ (v ∈ values ∧ key v = k) ∨ ((∀ v' ∈ values, key v' ≠ k) ∧ entries.get? k = some v) := by
  -- the keys are distinct, so what is set under a key is never set again
  induction values generalizing entries with
  | nil => simp
  | cons w values ih =>
    rw [List.map_cons, List.nodup_cons] at hnodup
    have hfresh : ∀ v' ∈ values, key v' ≠ key w := by
      intro v' hmem heq
      exact hnodup.1 (List.mem_map.mpr ⟨v', hmem, heq⟩)
    rw [List.foldl_cons, ih hnodup.2, get?_set]
    -- the key looked up is the one just set, or another
    by_cases hk : k = key w
    · subst hk
      rw [if_pos rfl]
      constructor
      · rintro (⟨hmem, heq⟩ | ⟨-, heq⟩)
        · exact absurd heq (hfresh v hmem)
        · exact .inl ⟨Option.some.inj heq ▸ List.mem_cons_self, by rw [Option.some.inj heq]⟩
      · rintro (⟨hmem, heq⟩ | ⟨hne, -⟩)
        · rcases List.mem_cons.mp hmem with rfl | hmem'
          · exact .inr ⟨hfresh, rfl⟩
          · exact absurd heq (hfresh v hmem')
        · exact absurd rfl (hne w List.mem_cons_self)
    · rw [if_neg hk]
      constructor
      · rintro (⟨hmem, heq⟩ | ⟨hne, heq⟩)
        · exact .inl ⟨List.mem_cons_of_mem _ hmem, heq⟩
        · exact .inr ⟨List.forall_mem_cons.mpr ⟨fun h => hk h.symm, hne⟩, heq⟩
      · rintro (⟨hmem, heq⟩ | ⟨hne, heq⟩)
        · rcases List.mem_cons.mp hmem with rfl | hmem'
          · exact absurd heq.symm hk
          · exact .inl ⟨hmem', heq⟩
        · exact .inr ⟨(List.forall_mem_cons.mp hne).2, heq⟩

/-- The values that `f` makes of the items of a dictionary, in any order, by their keys. -/
theorem get?_foldl_set_filterMap {γ : Type*} {key : γ → α} {f : β → α → Option γ}
    (hkey : ∀ v k w, f v k = some w → key w = k) (d : Dict α β) {values : List γ}
    (hperm : values.Perm (d.items.filterMap fun kv => f kv.2 kv.1)) (k : α) :
    (values.foldl (fun entries w => entries.set (key w) w) (∅ : Dict α γ)).get? k = (d.get? k).bind
      fun v => f v k := by
  -- the keys of what is kept are a sublist of the keys of the dictionary, so they are distinct
  have hsub : ((d.items.filterMap fun kv => f kv.2 kv.1).map key).Sublist d.keys := by
    unfold keys
    induction d.items with
    | nil => exact List.Sublist.refl _
    | cons kv items ih =>
      cases hres : f kv.2 kv.1 with
      | none =>
        rw [List.filterMap_cons, hres]
        exact ih.cons _
      | some w =>
        rw [List.filterMap_cons, hres, List.map_cons, List.map_cons, hkey _ _ _ hres]
        exact ih.cons_cons _
  have hnodup : (values.map key).Nodup := (hperm.map key).nodup_iff.mpr (d.nodup_keys.sublist hsub)
  apply Option.ext
  intro w
  rw [get?_foldl_set hnodup, hperm.mem_iff, List.mem_filterMap, Option.bind_eq_some_iff]
  simp only [get?_empty, reduceCtorEq, and_false, or_false]
  constructor
  · rintro ⟨⟨kv, hkv, hres⟩, rfl⟩
    have hname := hkey _ _ _ hres
    exact ⟨kv.2, get?_eq_some_iff.mpr (hname ▸ hkv), hname ▸ hres⟩
  · rintro ⟨v, hget, hres⟩
    exact ⟨⟨(k, v), get?_eq_some_iff.mp hget, hres⟩, hkey _ _ _ hres⟩

end Dict
