import RedBlack.Permutations
import RedBlack.Session.Basic

/-!
# Surveys

The same task carried out in every order of some keys, with the outcomes grouped by the
shape of the tree that they leave. All maps are in natural order, and a key has ten times
itself as its value.
-/

namespace RedBlack

namespace Survey

/-- What to do with the keys, in every order of them. -/
inductive Task where
  /-- Insert them into an empty map. -/
  | insert
  /-- Remove the first few of them from a map that holds all of them. -/
  | remove (stop : Option Nat)

/-- The result of one operation. -/
inductive Result where
  /-- There is nothing to say. -/
  | done
  /-- A value. -/
  | value (value : Int64)
  /-- The operation was refused. -/
  | refused (error : Error)

/-- The orders that leave the same tree, described by the first of them. -/
structure Group where
  /-- The number of the first order. -/
  first : Nat
  /-- The first order. -/
  order : Array Int64
  /-- The results of its operations. -/
  results : List Result
  /-- The shape of the tree. -/
  shape : Tree Int64
  /-- The number of nodes on the longest path. -/
  height : Nat
  /-- The black height, if the tree keeps all rules. -/
  blackHeight : Except Fault Nat
  /-- The number of orders. -/
  count : Nat

/-- A map in natural order that keeps no record of questions. -/
abbrev MapM := EngineM Unit Int64 Int64

/-- The natural order. -/
def natural : Comparator Unit Int64 :=
  Comparator.ofOrder Order.int64

/-- The value of a key. -/
def valueOf (key : Int64) : Int64 :=
  key * 10

/-- Insert keys in order. -/
def insertAll : List Int64 → MapM (List Result)
  | [] => return []
  | key :: keys => do
    let result ← OrderedMap.insert natural key (valueOf key)
    let results ← insertAll keys
    match result with
    | .ok none => return .done :: results
    | .ok (some value) => return .value value :: results
    | .error error => return .refused error :: results

/-- Remove keys in order. -/
def removeAll : List Int64 → MapM (List Result)
  | [] => return []
  | key :: keys => do
    let result ← OrderedMap.remove natural key
    let results ← removeAll keys
    match result with
    | .ok value => return .value value :: results
    | .error error => return .refused error :: results

/-- The map that the task starts from. -/
def Task.start (task : Task) (room : Room) (keys : Array Int64) :
    Except Fault (LinkedTree Int64 Int64) :=
  let empty := LinkedTree.empty room
  match task with
  | insert => .ok empty
  | remove _ =>
    match insertAll keys.toList { tree := empty, memory := () } with
    | .ok _ context => .ok context.tree.copy
    | .error fault _ => .error fault

/-- Carry the task out in one order. -/
def Task.perform (task : Task) (order : Array Int64) : MapM (List Result) :=
  match task with
  | insert => insertAll order.toList
  | remove none => removeAll order.toList
  | remove (some stop) => removeAll (order.toList.take stop)

/-- The group of one order by itself. -/
def Task.group (task : Task) (start : LinkedTree Int64 Int64) (first : Nat)
    (order : Array Int64) : Except Fault Group :=
  match task.perform order { tree := start, memory := () } with
  | .error fault _ => .error fault
  | .ok results context => do
    return {
      first, order, results
      shape := (← context.tree.toTree).map Prod.fst
      height := ← context.tree.height
      blackHeight :=
        match Engine.validate natural context with
        | .ok height _ => .ok height
        | .error fault _ => .error fault
      count := 1 }

/-- Count one more order to the group with its shape, or open a new group. -/
def addTo (group : Group) : List Group → List Group
  | [] => [group]
  | other :: groups =>
    if other.shape = group.shape then { other with count := other.count + 1 } :: groups
    else other :: addTo group groups

/-- The number of orders, and their groups in order of their first members. -/
def Task.survey (task : Task) (room : Room) (keys : Array Int64) :
    Except Fault (Nat × List Group) := do
  let start ← task.start room keys
  Permutations.fold keys
    (fun progress order => do
      let (total, groups) ← progress
      return (total + 1, addTo (← task.group start total order) groups))
    (.ok (0, []))

end Survey

end RedBlack
