import Sketchlog.Lib.Grouping
import Sketchlog.Sql.Engine

/-!
# The SQL engine groups, then aggregates

`add_row` keeps a table of logs as the rows come, and a row may raise in the middle of its select
list. In the end the table is what grouping all rows first would give: a log for each key, in the
order of the first rows, written by the rows of that key alone. So what a query says of one group
does not depend on the rows of the others.
-/

namespace Sketchlog.Sql

open Imperative

variable {V K : Type} {M : IndexMapping} {E : Estimator} {U : Values V K} {plan : Plan}
    {log : Facade.StreamLog}

/-- What a row makes of the log that it is written to, also when it raises. -/
def written (M : IndexMapping) (U : Values V K) (plan : Plan) (row : Row V) (t : Facade.StreamLog) :
    Facade.StreamLog :=
  after (writeRow M U plan row) t

/-- What a row makes of its group. -/
def writtenGroup (M : IndexMapping) (U : Values V K) (plan : Plan) (row : Row V)
    (group : List (Option V) × Facade.StreamLog) : List (Option V) × Facade.StreamLog :=
  (group.1, written M U plan row group.2)

theorem after_zoom {σ τ ε α : Type} (get : σ → τ) (put : τ → σ → σ) (x : EStateM ε τ α) (s : σ) :
    after (zoom get put x) s = put (after x (get s)) s := by
  rw [after, run_zoom, after]
  cases x.run (get s) with
  | ok a t => rfl
  | error e t => rfl

/-- A new key that is set twice. -/
theorem set_set_of_new {α β : Type} [DecidableEq α] {d : Dict α β} {k : α} (h : k ∉ d.keys) (v w : β) :
    (d.set k v).set k w = d.set k w := by
  have hitems : ∀ u, (d.set k u).items = d.items ++ [(k, u)] := fun u => if_neg h
  have hmem : k ∈ (d.set k v).items.map Prod.fst := by
    rw [hitems, List.map_append]
    exact List.mem_append_right _ List.mem_cons_self
  have hsame : d.items.map (fun kv => if kv.1 = k then (k, w) else kv) = d.items := by
    refine (List.map_congr_left fun kv hkv => if_neg fun heq => h ?_).trans (List.map_id _)
    exact heq ▸ List.mem_map_of_mem hkv
  have htwice : ((d.set k v).set k w).items = (d.set k w).items := by
    show Dict.setItems (d.set k v).items k w = _
    rw [Dict.setItems, if_pos hmem, hitems, hitems, List.map_append, hsame, List.map_singleton,
      if_pos rfl]
  cases hd : (d.set k v).set k w
  cases hd' : d.set k w
  rw [hd, hd'] at htwice
  cases htwice
  rfl

/-- The rows of one group: the key is the first one's, and each of them writes. -/
theorem stateOf_rows (rows : List (Row V)) :
    Grouping.stateOf (fun row => (groupKey plan row, log)) (writtenGroup M U plan) rows
      = rows.head?.map fun first =>
        (groupKey plan first, rows.foldl (fun t row => written M U plan row t) log) := by
  induction rows using List.reverseRecOn with
  | nil => rfl
  | append_singleton rows row ih =>
    rw [Grouping.stateOf_append, ih]
    cases rows with
    | nil => rfl
    | cons first rest =>
      -- the row is not the first of its group
      rw [List.foldl_append]
      rfl

variable [DecidableEq K]

/-- The engine after the rows, of which some may have raised. -/
def Engine.addRows (M : IndexMapping) (U : Values V K) (log : Facade.StreamLog) (plan : Plan)
    (rows : List (Row V)) :
    Engine V K :=
  rows.foldl (fun self row => after (Engine.addRow M U log plan row) self) (Engine.new log)

namespace Engine

/-- A row without groups. -/
theorem after_addRow_global (h : plan.groupBy = []) (self : Engine V K) (row : Row V) :
    after (addRow M U log plan row) self
      = { self with globalLog := written M U plan row self.globalLog } := by
  rw [addRow, if_pos h, after_zoom]
  rfl

/-- A row of a group. -/
theorem after_addRow_group (h : plan.groupBy ≠ []) (self : Engine V K) (row : Row V) :
    after (addRow M U log plan row) self
      = { self with
          groups := Grouping.add (groupClass U plan) (fun row => (groupKey plan row, log))
            (writtenGroup M U plan)
            self.groups row } := by
  have hrun : after (addRow M U log plan row) self
      = after (zoom (fun self => (self.group U log plan row).2) (setLog U log plan row)
        (writeRow M U plan row))
        (enter U log plan row self) := by
    rw [addRow, if_neg h]
    rfl
  rw [hrun, after_zoom]
  by_cases hold : groupClass U plan row ∈ self.groups.keys
  · rw [enter, if_pos hold]
    rfl
  · -- the group is made, and then written
    have hnone : self.groups.get? (groupClass U plan row) = none := Dict.get?_eq_none_iff.mpr hold
    have hmade : group U log plan row
          { self with groups := self.groups.set (groupClass U plan row) (groupKey plan row, log) }
        = (groupKey plan row, log) := by
      rw [group, Dict.get?_set_self]
      rfl
    rw [enter, if_neg hold, setLog, hmade, Grouping.add, hnone]
    show (⟨(self.groups.set _ _).set _ _, self.globalLog⟩ : Engine V K) = ⟨_, _⟩
    rw [set_set_of_new hold]
    rfl

/-- All rows write to one log. -/
theorem addRows_global (h : plan.groupBy = []) (rows : List (Row V)) :
    (addRows M U log plan rows).globalLog = rows.foldl (fun t row => written M U plan row t) log := by
  induction rows using List.reverseRecOn with
  | nil => rfl
  | append_singleton rows row ih =>
    rw [addRows, List.foldl_append, List.foldl_append, ← ih]
    show (after (addRow M U log plan row) (addRows M U log plan rows)).globalLog = _
    rw [after_addRow_global h]
    rfl

/-- The table is the grouping of the rows. -/
theorem addRows_groups (h : plan.groupBy ≠ []) (rows : List (Row V)) :
    (addRows M U log plan rows).groups
      = Grouping.addAll (groupClass U plan) (fun row => (groupKey plan row, log))
        (writtenGroup M U plan) rows := by
  induction rows using List.reverseRecOn with
  | nil => rfl
  | append_singleton rows row ih =>
    rw [Grouping.addAll_append, ← ih, addRows, List.foldl_append]
    show (after (addRow M U log plan row) (addRows M U log plan rows)).groups = _
    rw [after_addRow_group h]

end Engine

/-- **The engine groups, then aggregates.** For every query, all rows and every evaluator of its
condition, whether or not rows raise on the way: the result is read off the logs that the rows of
each key alone would have written, one for each key, in the order of the first rows and under the
key of the first; without GROUP BY, off the one log that all rows have written. -/
theorem query_groups (M : IndexMapping) (E : Estimator) (U : Values V K) (log : Facade.StreamLog)
    (plan : Plan)
    (evalHaving : Text → Dict Text (Cell V) → Except PyError Bool) (rows : List (Row V)) :
    (Engine.addRows M U log plan rows).executeQuery M E U evalHaving plan
      = results M E U evalHaving plan
        (if plan.groupBy = [] then [([], rows.foldl (fun t row => written M U plan row t) log)]
        else (Grouping.firsts (rows.map (groupClass U plan))).filterMap fun k =>
          let ofKey := rows.filter fun row => groupClass U plan row = k
          ofKey.head?.map fun first =>
            (groupKey plan first, ofKey.foldl (fun t row => written M U plan row t) log)) := by
  unfold Engine.executeQuery
  congr 1
  by_cases h : plan.groupBy = []
  · rw [if_pos h, if_pos h, Engine.addRows_global h]
  · rw [if_neg h, if_neg h, Engine.addRows_groups h, Grouping.items_addAll, List.map_filterMap]
    refine List.filterMap_congr fun k _ => ?_
    rw [Option.map_map, Function.comp_def, Option.map_id', stateOf_rows]
    rfl

end Sketchlog.Sql
