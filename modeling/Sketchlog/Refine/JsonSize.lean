import Sketchlog.Mesh.Digest

/-!
# Sizes of JSON texts

The size of a dictionary's text is that of its braces, keys, colons, values and commas
(`jsonSize_dictVal`). So setting a key changes it by the size of the new value less that of the old
one, and a new key also by the key, a colon and a comma (`content_set_of_get?`,
`content_set_of_none`): the differences that the digest code adds up.
-/

namespace Sketchlog.Mesh

open Checked

/-! ## Joined texts

The length of a joined text is the sum of the lengths and the separators. -/

/-- The length of texts that are joined by commas. -/
def joinLen (lengths : List ℕ) : ℕ := lengths.sum + (lengths.length - 1)

theorem length_joinComma (ts : List (List Char)) :
    (Json.joinComma ts).length = joinLen (ts.map List.length) := by
  induction ts with
  | nil => rfl
  | cons t ts ih =>
    cases ts with
    | nil =>
      show t.length = joinLen [t.length]
      unfold joinLen
      simp
    | cons t' ts =>
      show (t ++ ',' :: Json.joinComma (t' :: ts)).length = _
      rw [List.length_append, List.length_cons, ih]
      unfold joinLen
      simp only [List.map_cons, List.sum_cons, List.length_cons, List.length_map]
      omega

/-- The length of a quoted string. -/
def quoteLen (s : String) : ℕ := (Json.quote s).length

variable {reprFloat : Binary64 → List Char}

theorem jsonSize_eq_ok {v : PyVal} {n : ℕ} :
    jsonSize reprFloat v = .ok n ↔ ∃ text, Json.text reprFloat v = .ok text ∧ text.length = n := by
  unfold jsonSize
  cases Json.text reprFloat v with
  | ok text => simp [Except.map]
  | error e => simp [Except.map]

/-- The text of the value exists. -/
def Sizable (reprFloat : Binary64 → List Char) (v : PyVal) : Prop := ∃ n, jsonSize reprFloat v = .ok n

/-- The size of a value that has a text. -/
def sizeOf (reprFloat : Binary64 → List Char) (v : PyVal) : ℕ :=
  match jsonSize reprFloat v with
  | .ok n => n
  | .error _ => 0

theorem sizeOf_eq {v : PyVal} {n : ℕ} (h : jsonSize reprFloat v = .ok n) : sizeOf reprFloat v = n := by
  rw [sizeOf, h]

theorem Sizable.jsonSize_eq {v : PyVal} (h : Sizable reprFloat v) :
    jsonSize reprFloat v = .ok (sizeOf reprFloat v) := by
  obtain ⟨n, hn⟩ := h
  rw [sizeOf_eq hn, hn]

@[simp] theorem jsonSize_str (s : String) : jsonSize reprFloat (.str s) = .ok (quoteLen s) := rfl

/-! ## Items

`content` sums the sizes of the items and their commas, so the size of a dictionary is its content
and two braces. -/

/-- The texts of items whose values have texts. -/
theorem itemTexts_lengths {β : Type} {value : β → PyVal} (items : List (String × β))
    (h : ∀ kv ∈ items, Sizable reprFloat (value kv.2)) :
    ∃ ts, Json.itemTexts reprFloat (items.map fun kv => (.str kv.1, value kv.2)) = .ok ts
      ∧ ts.map List.length = items.map fun kv => quoteLen kv.1 + 1 + sizeOf reprFloat (value kv.2) := by
  induction items with
  | nil => exact ⟨[], rfl, rfl⟩
  | cons kv rest ih =>
    obtain ⟨ts, hts, hlengths⟩ := ih fun kv' hkv' => h kv' (List.mem_cons_of_mem _ hkv')
    obtain ⟨text, htext, hlength⟩ := jsonSize_eq_ok.mp (h kv List.mem_cons_self).jsonSize_eq
    refine ⟨(Json.quote kv.1 ++ ':' :: text) :: ts, ?_, ?_⟩
    · show (Json.keyText (.str kv.1) >>= fun kt => Json.text reprFloat (value kv.2) >>= fun t =>
        Json.itemTexts reprFloat _ >>= fun ts => Except.ok ((kt ++ ':' :: t) :: ts)) = _
      rw [htext, hts]
      rfl
    · rw [List.map_cons, List.map_cons, hlengths, List.length_append, List.length_cons, hlength]
      rw [quoteLen, Nat.add_comm _ 1, Nat.add_assoc]

/-- The size of what is between the braces of a dictionary. -/
def content {β : Type} (weight : β → ℕ) (d : Dict String β) : ℕ :=
  joinLen (d.items.map fun kv => quoteLen kv.1 + 1 + weight kv.2)

theorem jsonSize_items {β : Type} (value : β → PyVal) (items : List (String × β))
    (h : ∀ kv ∈ items, Sizable reprFloat (value kv.2)) :
    jsonSize reprFloat (.dict (items.map fun kv => (.str kv.1, value kv.2)))
      = .ok (2 + joinLen (items.map fun kv => quoteLen kv.1 + 1 + sizeOf reprFloat (value kv.2))) := by
  obtain ⟨ts, hts, hlengths⟩ := itemTexts_lengths items h
  refine jsonSize_eq_ok.mpr ⟨'{' :: Json.joinComma ts ++ ['}'], ?_, ?_⟩
  · show (Json.itemTexts reprFloat _).map _ = _
    rw [hts]
    rfl
  · rw [List.length_append, List.length_cons, length_joinComma, hlengths]
    simp only [List.length_cons, List.length_nil]
    omega

/-- **The size of a dictionary.** -/
theorem jsonSize_dictVal {β : Type} {value : β → PyVal} {d : Dict String β}
    (h : ∀ k v, d.get? k = some v → Sizable reprFloat (value v)) :
    jsonSize reprFloat (dictVal value d) = .ok (2 + content (fun v => sizeOf reprFloat (value v)) d) :=
  jsonSize_items value d.items fun kv hkv => h kv.1 kv.2 (Dict.get?_eq_some_iff.mpr hkv)

/-- A text of items has texts of their values. -/
theorem sizable_of_itemTexts {items : List (PyKey × PyVal)} {ts : List (List Char)}
    (h : Json.itemTexts reprFloat items = .ok ts) : ∀ kv ∈ items, Sizable reprFloat kv.2 := by
  induction items generalizing ts with
  | nil =>
    intro kv hkv
    cases hkv
  | cons kv₀ rest ih =>
    obtain ⟨kt, -, h⟩ := bind_eq_ok.mp h
    obtain ⟨text, htext, h⟩ := bind_eq_ok.mp h
    obtain ⟨ts', hts', -⟩ := bind_eq_ok.mp h
    intro kv hkv
    rcases List.mem_cons.mp hkv with rfl | hkv
    · exact ⟨text.length, jsonSize_eq_ok.mpr ⟨text, htext, rfl⟩⟩
    · exact ih hts' kv hkv

theorem itemTexts_of_sizable {items : List (PyKey × PyVal)} (h : Sizable reprFloat (.dict items)) :
    ∃ ts, Json.itemTexts reprFloat items = .ok ts := by
  obtain ⟨n, hn⟩ := h
  obtain ⟨text, htext, -⟩ := jsonSize_eq_ok.mp hn
  cases hts : Json.itemTexts reprFloat items with
  | ok ts => exact ⟨ts, rfl⟩
  | error e =>
    have herr : Json.text reprFloat (.dict items) = .error e := congrArg (Except.map _) hts
    rw [herr] at htext
    cases htext

theorem sizable_of_dict {items : List (PyKey × PyVal)} (h : Sizable reprFloat (.dict items)) :
    ∀ kv ∈ items, Sizable reprFloat kv.2 := by
  obtain ⟨ts, hts⟩ := itemTexts_of_sizable h
  exact sizable_of_itemTexts hts

theorem sizable_dictVal {β : Type} {value : β → PyVal} {d : Dict String β} :
    Sizable reprFloat (dictVal value d) ↔ ∀ k v, d.get? k = some v → Sizable reprFloat (value v) := by
  constructor
  · intro h k v hget
    have hmem := List.mem_map_of_mem (f := fun kv : String × β => (PyKey.str kv.1, value kv.2))
      (Dict.get?_eq_some_iff.mp hget)
    exact sizable_of_dict h _ hmem
  · intro h
    exact ⟨_, jsonSize_dictVal h⟩

theorem listTexts_str (nids : List String) :
    Json.listTexts reprFloat (nids.map .str) = .ok (nids.map Json.quote) := by
  induction nids with
  | nil => rfl
  | cons nid rest ih =>
    show (Json.text reprFloat (.str nid) >>= fun t =>
      Json.listTexts reprFloat (rest.map .str) >>= fun ts =>
      Except.ok (t :: ts)) = _
    rw [ih]
    rfl

theorem jsonSize_nidsVal (nids : List String) :
    jsonSize reprFloat (nidsVal nids) = .ok (2 + joinLen (nids.map quoteLen)) := by
  refine jsonSize_eq_ok.mpr ⟨'[' :: Json.joinComma (nids.map Json.quote) ++ [']'], ?_, ?_⟩
  · show (Json.listTexts reprFloat (nids.map .str)).map _ = _
    rw [listTexts_str]
    rfl
  · rw [List.length_append, List.length_cons, length_joinComma, List.map_map]
    simp only [List.length_cons, List.length_nil]
    show joinLen (nids.map quoteLen) + 1 + (0 + 1) = _
    omega

/-! ## Setting a key

How the content changes when a key is set, which is what the code computes without encoding again. -/

section Content

variable {β : Type} {d : Dict String β} {k : String} {w : β}

theorem content_eq (weight : β → ℕ) (d : Dict String β) :
    content weight d = (d.items.map fun kv => quoteLen kv.1 + 1 + weight kv.2).sum + (d.size - 1) := by
  rw [content, joinLen, List.length_map]
  rfl

theorem content_empty (weight : β → ℕ) : content weight ∅ = 0 := rfl

/-- A new value under a key that is there. -/
theorem content_set_of_get? (weight : β → ℕ) (v : β) (h : d.get? k = some w) :
    content weight (d.set k v) + weight w = content weight d + weight v := by
  have hsize : (d.set k v).size = d.size := by rw [Dict.size_set, if_pos (Dict.mem_keys_of_get? h)]
  have hsum := Dict.sum_set_of_get? (f := fun k v => quoteLen k + 1 + weight v) (v := v) h
  rw [content_eq, content_eq, hsize]
  omega

/-- A new key. -/
theorem content_set_of_none (weight : β → ℕ) (v : β) (h : d.get? k = none) :
    content weight (d.set k v)
      = content weight d + (if d.isEmpty then 0 else 1) + quoteLen k + 1 + weight v := by
  have hsize : (d.set k v).size = d.size + 1 := by
    rw [Dict.size_set, if_neg (Dict.get?_eq_none_iff.mp h)]
  have hsum := Dict.sum_set_of_none (f := fun k v => quoteLen k + 1 + weight v) (v := v) h
  rw [content_eq, content_eq, hsize, hsum]
  cases hitems : d.items with
  | nil =>
    have hempty : d.isEmpty = true := Dict.isEmpty_iff.mpr hitems
    rw [if_pos hempty, Dict.size, hitems]
    simp
  | cons kv rest =>
    have hempty : ¬ d.isEmpty = true := fun he => by
      rw [Dict.isEmpty_iff.mp he] at hitems
      cases hitems
    rw [if_neg hempty, Dict.size, hitems, List.length_cons]
    omega

theorem content_singleton (weight : β → ℕ) (k : String) (v : β) :
    content weight ((∅ : Dict String β).set k v) = quoteLen k + 1 + weight v := by
  rw [content_set_of_none weight v Dict.get?_empty, content_empty]
  show 0 + 0 + quoteLen k + 1 + weight v = _
  omega

end Content

/-! ## Payloads -/

/-- The size of a payload with one field beside the identifier of the node, when its dictionary is
empty. -/
def payloadBase (field nodeId : String) : ℕ :=
  2 + joinLen [quoteLen "node_id" + 1 + quoteLen nodeId, quoteLen field + 1 + 2]

theorem jsonSize_payload {β : Type} {value : β → PyVal} {d : Dict String β} (field nodeId : String)
    (h : ∀ k v, d.get? k = some v → Sizable reprFloat (value v)) :
    jsonSize reprFloat (.dict [(.str "node_id", .str nodeId), (.str field, dictVal value d)])
      = .ok (payloadBase field nodeId + content (fun v => sizeOf reprFloat (value v)) d) := by
  have hsizable : ∀ kv ∈ [("node_id", PyVal.str nodeId), (field, dictVal value d)],
    Sizable reprFloat (id kv.2) := by
    intro kv hkv
    simp only [List.mem_cons, List.not_mem_nil, or_false] at hkv
    rcases hkv with rfl | rfl
    · exact ⟨_, jsonSize_str nodeId⟩
    · exact ⟨_, jsonSize_dictVal h⟩
  refine (jsonSize_items id _ hsizable).trans (congrArg Except.ok ?_)
  simp only [List.map_cons, List.map_nil, id, sizeOf_eq (jsonSize_str nodeId),
    sizeOf_eq (jsonSize_dictVal h)]
  simp only [payloadBase, joinLen, List.sum_cons, List.sum_nil, List.length_cons, List.length_nil]
  omega

end Sketchlog.Mesh
