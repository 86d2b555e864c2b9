import Sketchlog.Lib.Dict

/-!
# Folding into groups

Rows come one after another, and each changes the state of its group, which the first of its rows
makes (`add`). In the end there is one group for each key, in the order of the first rows, and its
state is what its own rows make, in their order (`items_addAll`).
-/

namespace Grouping

variable {ι κ σ : Type*} [DecidableEq κ]

/-- The distinct keys, in the order in which they first come. -/
def firsts (keys : List κ) : List κ :=
  keys.foldl (fun seen k => if k ∈ seen then seen else seen ++ [k]) []

theorem firsts_append (keys : List κ) (k : κ) :
    firsts (keys ++ [k]) = if k ∈ firsts keys then firsts keys else firsts keys ++ [k] := by
  rw [firsts, List.foldl_append]
  rfl

variable (key : ι → κ) (fresh : ι → σ) (step : ι → σ → σ)

/-- What a row makes of the state of its group, if there is one. -/
def advance (state : Option σ) (row : ι) : σ := step row (state.getD (fresh row))

/-- A row changes the state of its group. -/
def add (groups : Dict κ σ) (row : ι) : Dict κ σ :=
  groups.set (key row) (advance fresh step (groups.get? (key row)) row)

def addAll (rows : List ι) : Dict κ σ := rows.foldl (add key fresh step) ∅

/-- The rows of a group. -/
def rowsOf (rows : List ι) (k : κ) : List ι := rows.filter fun row => key row = k

/-- What rows of one group make. -/
def stateOf (rows : List ι) : Option σ :=
  rows.foldl (fun state row => some (advance fresh step state row)) none

variable {key fresh step}

theorem addAll_append (rows : List ι) (row : ι) :
    addAll key fresh step (rows ++ [row]) = add key fresh step (addAll key fresh step rows) row :=
  List.foldl_append

theorem stateOf_append (rows : List ι) (row : ι) :
    stateOf fresh step (rows ++ [row]) = some (advance fresh step (stateOf fresh step rows) row) :=
  List.foldl_append

theorem rowsOf_append (rows : List ι) (row : ι) (k : κ) :
    rowsOf key (rows ++ [row]) k = if key row = k then rowsOf key rows k ++ [row]
      else rowsOf key rows k := by
  rw [rowsOf, List.filter_append, List.filter_singleton]
  by_cases h : key row = k
  · rw [if_pos h, decide_eq_true h]
    rfl
  · rw [if_neg h, decide_eq_false h]
    exact List.append_nil _

theorem keys_addAll (rows : List ι) : (addAll key fresh step rows).keys = firsts (rows.map key) := by
  induction rows using List.reverseRecOn with
  | nil => rfl
  | append_singleton rows row ih =>
    rw [addAll_append, add, Dict.keys_set, ih, List.map_append, List.map_singleton, firsts_append]

/-- A group is what its rows make. -/
theorem get?_addAll (rows : List ι) (k : κ) :
    (addAll key fresh step rows).get? k = stateOf fresh step (rowsOf key rows k) := by
  induction rows using List.reverseRecOn with
  | nil => rfl
  | append_singleton rows row ih =>
    rw [addAll_append, add, Dict.get?_set, rowsOf_append]
    by_cases heq : key row = k
    · rw [if_pos heq.symm, if_pos heq, stateOf_append, ← ih, heq]
    · rw [if_neg (Ne.symm heq), if_neg heq, ih]

/-- The items of a dictionary, by its keys. -/
theorem items_eq_filterMap {β : Type*} (d : Dict κ β) :
    d.items = d.keys.filterMap fun k => (d.get? k).map (k, ·) := by
  rw [Dict.keys, List.filterMap_map]
  refine (List.filterMap_some.symm.trans (List.filterMap_congr fun kv hkv => ?_) :)
  have hget : d.get? kv.1 = some kv.2 := Dict.get?_eq_some_iff.mpr hkv
  rw [Function.comp_apply, hget]
  rfl

/-- **One group for each key, made by its own rows.** -/
theorem items_addAll (rows : List ι) :
    (addAll key fresh step rows).items
      = (firsts (rows.map key)).filterMap fun k =>
        (stateOf fresh step (rowsOf key rows k)).map (k, ·) := by
  have hitems := items_eq_filterMap (addAll key fresh step rows)
  rw [keys_addAll] at hitems
  rw [hitems]
  exact List.filterMap_congr fun k _ => by rw [get?_addAll]

end Grouping
