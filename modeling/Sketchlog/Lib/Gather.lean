import Mathlib.Data.Finset.Card
import Sketchlog.Lib.Checked
import Sketchlog.Lib.Dict

/-!
# Reading entries into a dictionary of bounded size

`gather` reads entries one after another: each may be read, be left out or raise. What is read goes
into a dictionary, and the loop ends when that is full. An entry is reached when the distinct keys
in front of it do not fill the dictionary; `gather` raises exactly when a reached entry does
(`gather_error`, `gather_ok`), and otherwise entries that are left out may as well not be there
(`gather_filterMap`).
-/

namespace Gather

open Checked

variable {ε α β E : Type*} [DecidableEq α] {read : ε → Except E (Option (α × β))}
    {key : ε → Option α} {cap : ℕ}

/-- The loop. -/
def gather (read : ε → Except E (Option (α × β))) (cap : ℕ) : List ε → Dict α β → Except E (Dict α β)
  | [], d => .ok d
  | e :: rest, d => do
    let r ← read e
    let d := r.elim d fun kv => d.set kv.1 kv.2
    if cap ≤ d.size then .ok d else gather read cap rest d

/-- The entry stands in the list, behind too few distinct keys to fill a dictionary. -/
def Reached (key : ε → Option α) (cap : ℕ) (entries : List ε) (e : ε) : Prop :=
  ∃ before after, entries = before ++ e :: after ∧ (before.filterMap key).toFinset.card < cap

/-- The same, behind a dictionary. -/
def ReachedFrom (key : ε → Option α) (cap : ℕ) (d : Dict α β) (entries : List ε) (e : ε) : Prop :=
  ∃ before after, entries = before ++ e :: after
    ∧ (d.keys.toFinset ∪ (before.filterMap key).toFinset).card < cap

theorem reachedFrom_empty {entries : List ε} {e : ε} :
    ReachedFrom key cap (∅ : Dict α β) entries e ↔ Reached key cap entries e := by
  have hunion : ∀ before : List ε, ((∅ : Dict α β).keys.toFinset ∪ (before.filterMap key).toFinset)
      = (before.filterMap key).toFinset := fun before => Finset.empty_union _
  unfold ReachedFrom Reached
  simp only [hunion]

theorem card_keys (d : Dict α β) : d.keys.toFinset.card = d.size := by
  rw [List.toFinset_card_of_nodup d.nodup_keys, Dict.size_eq_length_keys]

theorem keys_toFinset_set (d : Dict α β) (k : α) (v : β) :
    (d.set k v).keys.toFinset = insert k d.keys.toFinset := by
  rw [Dict.keys_set]
  split
  · next hmem => exact (Finset.insert_eq_of_mem (List.mem_toFinset.mpr hmem)).symm
  · rw [List.toFinset_append, Finset.insert_eq, Finset.union_comm]
    rfl

/-- The first entry is reached while there is room. -/
theorem reachedFrom_head {d : Dict α β} {e : ε} {rest : List ε} (hopen : d.size < cap) :
    ReachedFrom key cap d (e :: rest) e := by
  refine ⟨[], rest, rfl, ?_⟩
  rw [List.filterMap_nil, List.toFinset_nil, Finset.union_empty, card_keys]
  exact hopen

section Loop

variable (hkey : ∀ e r, read e = .ok r → key e = r.map Prod.fst)

include hkey

/-- The keys behind an entry that is read. -/
theorem keys_next {e : ε} {r : Option (α × β)} (hread : read e = .ok r) (d : Dict α β)
    (before : List ε) :
    (r.elim d fun kv => d.set kv.1 kv.2).keys.toFinset ∪ (before.filterMap key).toFinset
      = d.keys.toFinset ∪ ((e :: before).filterMap key).toFinset := by
  have hfst := hkey e r hread
  cases r with
  | none => rw [List.filterMap_cons_none hfst, Option.elim_none]
  | some kv =>
    rw [List.filterMap_cons_some hfst, Option.elim_some, keys_toFinset_set, List.toFinset_cons,
      Finset.insert_union,
      Finset.union_insert]

/-- What is reached behind an entry that is read is reached. -/
theorem reachedFrom_cons {e e' : ε} {r : Option (α × β)} (hread : read e = .ok r) {d : Dict α β}
    {rest : List ε}
    (h : ReachedFrom key cap (r.elim d fun kv => d.set kv.1 kv.2) rest e') :
      ReachedFrom key cap d (e :: rest) e' := by
  obtain ⟨before, after, rfl, hcard⟩ := h
  rw [keys_next hkey hread] at hcard
  exact ⟨e :: before, after, rfl, hcard⟩

/-- **A reached entry that raises.** -/
theorem gather_error {entries : List ε} {d : Dict α β} {e : ε}
    (hreached : ReachedFrom key cap d entries e)
    (hraises : ∃ x, read e = .error x) : ∃ x, gather read cap entries d = .error x := by
  obtain ⟨before, after, rfl, hcard⟩ := hreached
  induction before generalizing d with
  | nil =>
    obtain ⟨x, hx⟩ := hraises
    refine ⟨x, ?_⟩
    rw [List.nil_append, gather, hx]
    rfl
  | cons b before ih =>
    rw [List.cons_append, gather]
    cases hread : read b with
    | error x => exact ⟨x, rfl⟩
    | ok r =>
      rw [← keys_next hkey hread] at hcard
      have hopen : ¬ cap ≤ (r.elim d fun kv => d.set kv.1 kv.2).size := by
        rw [← card_keys]
        exact not_le.mpr (lt_of_le_of_lt (Finset.card_le_card Finset.subset_union_left) hcard)
      show ∃ x, (if cap ≤ (r.elim d fun kv => d.set kv.1 kv.2).size then _ else _) = _
      rw [if_neg hopen]
      exact ih hcard

/-- **No reached entry raises.** -/
theorem gather_ok {entries : List ε} {d : Dict α β} (hopen : d.size < cap)
    (hreads : ∀ e, ReachedFrom key cap d entries e → ∃ r, read e = .ok r) :
    ∃ d', gather read cap entries d = .ok d' := by
  induction entries generalizing d with
  | nil => exact ⟨d, rfl⟩
  | cons e rest ih =>
    obtain ⟨r, hread⟩ := hreads e (reachedFrom_head hopen)
    rw [gather, hread]
    show ∃ d', (if cap ≤ (r.elim d fun kv => d.set kv.1 kv.2).size then _ else _) = _
    split
    · exact ⟨_, rfl⟩
    · next hnext => exact ih (not_le.mp hnext) fun e' he' => hreads e' (reachedFrom_cons hkey hread he')

/-- **Entries that are left out.** Where no reached entry raises, it is enough to read those that
are kept. -/
theorem gather_filterMap {clean : ε → Option ε} (hskip : ∀ e, read e = .ok none → clean e = none)
    (hclean : ∀ e kv, read e = .ok (some kv) → ∃ e', clean e = some e' ∧ read e' = .ok (some kv))
    {entries : List ε} {d : Dict α β} (hopen : d.size < cap)
    (hreads : ∀ e, ReachedFrom key cap d entries e → ∃ r, read e = .ok r) :
    gather read cap (entries.filterMap clean) d = gather read cap entries d := by
  induction entries generalizing d with
  | nil => rfl
  | cons e rest ih =>
    obtain ⟨r, hread⟩ := hreads e (reachedFrom_head hopen)
    have hrest := fun e' he' => hreads e' (reachedFrom_cons hkey hread he')
    cases r with
    | none =>
      rw [List.filterMap_cons_none (hskip e hread), ih hopen hrest, gather, hread]
      show _ = if cap ≤ d.size then _ else _
      rw [if_neg (not_le.mpr hopen)]
      rfl
    | some kv =>
      obtain ⟨e', hclean', hread'⟩ := hclean e kv hread
      rw [List.filterMap_cons_some hclean', gather, gather, hread, hread']
      show (if cap ≤ (d.set kv.1 kv.2).size then _ else _) = if cap ≤ (d.set kv.1 kv.2).size then _
        else _
      split
      · rfl
      · next hnext => exact ih (not_le.mp hnext) hrest

end Loop

end Gather
