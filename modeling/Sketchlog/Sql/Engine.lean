import Sketchlog.Lib.Dict
import Sketchlog.Python.Canary
import Sketchlog.Sql.Parser

/-!
# `sql.py`: `SQLStreamEngine`

The engine puts the rows into the logs of their groups, and reads the select list off each log. The
values of a row may be of any type `V` that can be hashed, and `Values` is what the engine uses of
it. A dictionary tells keys apart by `==` (`1`, `1.0` and `True` are one key), and it keeps the key
that came first: so the groups have the class of the key, and the key that was written. The
evaluator of HAVING conditions is an argument.
-/

namespace Sketchlog.Sql

open Imperative

/-- What the engine takes from the values of a row, and `str` of what it returns. -/
structure Values (V K : Type) where
  /-- The class of the values that are one key. -/
  keyOf : V → K
  /-- `float(val)`. -/
  toFloat : V → Except PyError PyFloat
  /-- What `add_unique` is given. -/
  toItem : V → UniqueItem
  str : V → String
  /-- `str(x)`, of a float. -/
  strFloat : ERat → String

/-- `row.get`; a column that is absent is `None`. -/
abbrev Row (V : Type) := Text → Option V

/-- An entry of `row_out`. -/
inductive Cell (V : Type) where
  | value (v : Option V)
  | float (x : ERat)
  | int (n : ℤ)

variable {V K : Type} (M : IndexMapping) (E : Estimator) (U : Values V K)

/-- `str(row_out[col])`. -/
def Cell.str : Cell V → String
  | value none => "None"
  | value (some v) => U.str v
  | float x => U.strFloat x
  | int n => toString n

/-! ## Rows

Each row goes into the log of its group, column by column. -/

/-- `add_unique` of the facade; the bindings take keys only. -/
def addUnique : UniqueItem → EStateM PyError Facade.StreamLog Unit
  | .key k => Facade.StreamLog.add M (.unique k)
  | .other shown =>
    Facade.StreamLog.renameTypeError
      (Facade.StreamLog.dispatch (Sketchlog.StreamLog.addUnique (.other shown))
      (throw (.typeError "incompatible function arguments")))

/-- One round of the loop of `add_row`. -/
def addSelect (row : Row V) : Select → EStateM PyError Facade.StreamLog Unit
  | .col _ _ => pure ()
  | .agg .uniqueCount col _ =>
    match row col with
    | none => pure ()
    | some val => addUnique M (U.toItem val)
  | .agg .eventCount col _ =>
    if col = ['*'] then Facade.StreamLog.add M (.event (.str "*") 1)
    else
      match row col with
      | none => pure ()
      | some val => Facade.StreamLog.add M (.event (.str (U.str val)) 1)
  | .agg _ col _ =>
    match row col with
    | none => pure ()
    | some val => do
      let value ← liftExcept (U.toFloat val)
      Facade.StreamLog.add M (.latency value)

/-- The loop of `add_row`, on the log of the row. -/
def writeRow (plan : Plan) (row : Row V) : EStateM PyError Facade.StreamLog Unit :=
  plan.selects.forM (addSelect M U row)

/-- The key of the group of a row. -/
def groupKey (plan : Plan) (row : Row V) : List (Option V) := plan.groupBy.map row

def groupClass (plan : Plan) (row : Row V) : List (Option K) :=
  (groupKey plan row).map (Option.map U.keyOf)

/-- `SQLStreamEngine`. -/
structure Engine (V K : Type) where
  groups : Dict (List (Option K)) (List (Option V) × Facade.StreamLog)
  globalLog : Facade.StreamLog

/-- `__init__`; `log` is what `StreamLog(**self.sk_kwargs)` makes. -/
def Engine.new (log : Facade.StreamLog) : Engine V K := ⟨∅, log⟩

variable [DecidableEq K]

/-- `if key not in self.groups: self.groups[key] = StreamLog(**self.sk_kwargs)`. -/
def Engine.enter (log : Facade.StreamLog) (plan : Plan) (row : Row V) (self : Engine V K) :
    Engine V K :=
  if groupClass U plan row ∈ self.groups.keys then self
  else { self with groups := self.groups.set (groupClass U plan row) (groupKey plan row, log) }

/-- `self.groups[key]`, of a key that was entered. -/
def Engine.group (log : Facade.StreamLog) (plan : Plan) (row : Row V) (self : Engine V K) :
    List (Option V) × Facade.StreamLog :=
  (self.groups.get? (groupClass U plan row)).getD (groupKey plan row, log)

def Engine.setLog (log : Facade.StreamLog) (plan : Plan) (row : Row V) (t : Facade.StreamLog)
    (self : Engine V K) :
    Engine V K :=
  { self with groups := self.groups.set (groupClass U plan row) ((self.group U log plan row).1, t) }

/-- `add_row`. -/
def Engine.addRow (log : Facade.StreamLog) (plan : Plan) (row : Row V) :
    EStateM PyError (Engine V K) Unit :=
  if plan.groupBy = [] then
    zoom Engine.globalLog (fun t self => { self with globalLog := t }) (writeRow M U plan row)
  else do
    modify (Engine.enter U log plan row)
    zoom (fun self => (self.group U log plan row).2) (Engine.setLog U log plan row)
      (writeRow M U plan row)

/-! ## Results -/

/-- One round of the loop over the select list in `execute_query`. -/
def selectCell (log : Facade.StreamLog) (rowOut : Dict Text (Cell V)) :
    Select → Except PyError (Dict Text (Cell V))
  | .col _ alias_ => .ok (if alias_ ∈ rowOut.keys then rowOut else rowOut.set alias_ (.value none))
  | .agg .p99 _ alias_ => do
    let x ← log.percentile M (.fin Canary.p99)
    .ok (rowOut.set alias_ (.float x))
  | .agg .p95 _ alias_ => do
    let x ← log.percentile M (.fin Canary.p95)
    .ok (rowOut.set alias_ (.float x))
  | .agg .p50 _ alias_ => do
    let x ← log.percentile M (.fin Binary64.half)
    .ok (rowOut.set alias_ (.float x))
  | .agg .uniqueCount _ alias_ => .ok (rowOut.set alias_ (.int (log.uniqueCount E)))
  | .agg .eventCount col alias_ =>
    if col = ['*'] then .ok (rowOut.set alias_ (.int log.totalEvents))
    else
      match rowOut.get? col with
      | none => .ok (rowOut.set alias_ (.int log.totalEvents))
      | some cell => do
        let n ← log.eventCount (.str (cell.str U))
        .ok (rowOut.set alias_ (.int n))

/-- `row_out`, of one group. -/
def rowOut (plan : Plan) (key : List (Option V)) (log : Facade.StreamLog) :
    Except PyError (Dict Text (Cell V)) :=
  plan.selects.foldlM (selectCell M E U log)
    ((plan.groupBy.zip key).foldl (fun rowOut ck => rowOut.set ck.1 (.value ck.2)) ∅)

/-- `not self.plan["having"] or self._eval_having(..)`. -/
def keeps (evalHaving : Text → Dict Text (Cell V) → Except PyError Bool) (plan : Plan)
    (rowOut : Dict Text (Cell V)) :
    Except PyError Bool :=
  match plan.having with
  | none => .ok true
  | some condition => if condition = [] then .ok true else evalHaving condition rowOut

/-- The loop of `execute_query`, over `items`. -/
def results (evalHaving : Text → Dict Text (Cell V) → Except PyError Bool) (plan : Plan)
    (items : List (List (Option V) × Facade.StreamLog)) : Except PyError (List (Dict Text (Cell V))) :=
  items.foldlM (fun results item => do
    let row ← rowOut M E U plan item.1 item.2
    let keep ← keeps evalHaving plan row
    .ok (if keep then results ++ [row] else results)) []

/-- `execute_query`. -/
def Engine.executeQuery (evalHaving : Text → Dict Text (Cell V) → Except PyError Bool) (plan : Plan)
    (self : Engine V K) : Except PyError (List (Dict Text (Cell V))) :=
  results M E U evalHaving plan
    (if plan.groupBy = [] then [([], self.globalLog)] else self.groups.items.map Prod.snd)

end Sketchlog.Sql
