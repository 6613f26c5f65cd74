import NetworkAnalysis.Settings
import NetworkAnalysis.Source

/-!
# Loading

A load numbers the nodes of a source, keeps of every node the relationships whose targets are nodes, and
puts them into a storage together with their weights. It fails with the first of these: the declared
count is beyond the capacity, the settings are unusable, a label is listed twice, there are too many
nodes; and then, node by node, a relationship that needs a weight has none, or there are too many
relationships.
-/

namespace NetworkAnalysis

/-- A relationship that a load keeps: its target and its own weight, if it has one. -/
structure Link (n : Nat) (α : Type) where
  /-- The node that the relationship enters. -/
  target : Fin n
  /-- The weight that the source gave. -/
  weight : Option α

namespace Loading

variable {α : Type} [Scalar α]

/-- The error that `what` there is too much of. -/
def capacityError (storage : Storage) (what : String) (requested : Nat) : Error :=
  .capacity storage.name what requested storage.capacity

/-- Refuses counts beyond the capacity of a storage. -/
def checkCapacity (storage : Storage) (what : String) (requested : Nat) : Except Error Unit :=
  if storage.capacity < requested then .error (capacityError storage what requested) else .ok ()

/-- The relationships of a node that lead to nodes. -/
def links (source : Source α) (ids : IdMap) (node : Fin ids.size) : List (Link ids.size α) :=
  (source.relationships (ids.label node)).filterMap fun (target, weight) =>
    (ids.node? target).map fun target => ⟨target, weight⟩

/-- The first relationship of a row that has no weight although it needs one. -/
def firstUnweighted {n : Nat} (settings : LoadSettings α) (row : List (Link n α)) :
    Option (Link n α) :=
  if settings.weighted && settings.defaultWeight.isNone then
    row.find? fun link => link.weight.isNone
  else
    none

/-- Refuses, row by row, a missing weight and a relationship beyond the capacity; `total` relationships
come before the rows. -/
def checkRows (settings : LoadSettings α) (storage : Storage) (ids : IdMap) :
    (total : Nat) → List (Fin ids.size × List (Link ids.size α)) → Except Error Unit
  | _, [] => .ok ()
  | total, (node, row) :: rest =>
    match firstUnweighted settings row with
    | some link =>
      .error (.misconfigured
        (.unweightedRelationship (ids.label node) (ids.label link.target)))
    | none => do
      checkCapacity storage "relationship" (total + row.length)
      checkRows settings storage ids (total + row.length) rest

/-- The places of a row in the order of their targets, equal targets staying in order. -/
def targetOrder {n : Nat} (row : Array (Link n α)) : List (Fin row.size) :=
  (List.finRange row.size).mergeSort fun i j => row[i].target ≤ row[j].target

/-- A row in the order of its targets, each weight staying with its target. -/
def inTargetOrder {n : Nat} (row : Array (Link n α)) : List (Link n α) :=
  (targetOrder row).map fun place => row[place]

/-- The order in which a storage keeps the relationships of a node: packed rows are sorted by target. -/
def arrange {n : Nat} (storage : Storage) (row : List (Link n α)) : List (Link n α) :=
  match storage with
  | .dense => row
  | .huge => inTargetOrder row.toArray

/-- A table of weights in the form that a storage keeps. -/
def weightTable (storage : Storage) (weights : List α) : Weights α :=
  match storage with
  | .dense => .table weights.toArray
  | .huge => .pages (.ofList weights)

/-- The weights of the relationships in the order of their ids. Where no relationship has a weight of
its own, the default stands for all of them. -/
def weightsOf {n : Nat} (settings : LoadSettings α) (storage : Storage) (links : List (Link n α)) :
    Weights α :=
  if settings.weighted then
    match settings.defaultWeight, links.any fun link => link.weight.isSome with
    | some weight, false => .uniform weight
    | default, _ =>
      weightTable storage (links.map fun link => (link.weight.or default).getD Scalar.zero)
  else
    .absent

/-- Loads a source into a storage. -/
def loadInto (storage : Storage) (settings : LoadSettings α) (source : Source α) :
    Except Error (Graph α) := do
  checkCapacity storage "node" source.declared
  settings.validate
  let ids ← IdMap.ofList source.nodes
  checkCapacity storage "node" ids.size
  let rows := Table.ofFn (links source ids)
  checkRows settings storage ids 0 ((List.finRange ids.size).map fun node => (node, rows[node]))
  let arranged := rows.map (arrange storage)
  pure (.ofRows storage ids (arranged.map fun row => row.map Link.target)
    (weightsOf settings storage arranged.toList.flatten))

/-- Whether an error is about a capacity. -/
def isCapacityError : Error → Bool
  | .capacity .. => true
  | _ => false

/-- Loads a source as the settings ask. Without a chosen storage it is the dense one, unless the counts
are beyond its capacity. -/
def load (settings : LoadSettings α) (source : Source α) : Except Error (Graph α) :=
  match settings.backend with
  | .dense => loadInto .dense settings source
  | .huge => loadInto .huge settings source
  | .auto =>
    if Storage.dense.capacity < source.declared then loadInto .huge settings source
    else
      match loadInto .dense settings source with
      | .error e => if isCapacityError e then loadInto .huge settings source else .error e
      | .ok graph => .ok graph

end Loading

end NetworkAnalysis
