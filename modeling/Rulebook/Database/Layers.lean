import Rulebook.Database

/-! Layers. Where no relation depends on itself, relations can be given heights such that each
stands above all it depends on. The heights are found in rounds, and then checked; the check is
what the theorems rest on. -/
namespace Rulebook.Database

/-- Puts each relation just above what it depends on, by the heights of the round before. -/
def raise (db : Database) (heights : List Nat) : List Nat :=
  db.relations.map fun relation =>
    (relation.dependencies.map fun c => heights.getD c 0 + 1).foldl max 0

/-- Raises until nothing changes, for so many rounds at most. -/
def settle (db : Database) : Nat → List Nat → List Nat
  | 0, heights => heights
  | rounds + 1, heights =>
    let raised := db.raise heights
    if raised = heights then heights else db.settle rounds raised

/-- The heights in which the rounds end; a path without repetition is no longer than there are
relations. -/
def heights (db : Database) : List Nat :=
  db.settle (db.relations.length + 1) (db.relations.map fun _ => 0)

def height (db : Database) (r : RelationId) : Nat := db.heights.getD r 0

/-- Does each relation stand above all it depends on? -/
def isLayered (db : Database) : Bool :=
  let heights := db.heights
  (List.range db.relations.length).all fun r =>
    (db.relation r).dependencies.all fun c => decide (heights.getD c 0 < heights.getD r 0)

theorem relation_eq_empty {db : Database} {r : RelationId} (outside : db.relations.length ≤ r) :
    db.relation r = {} := by
  simp [relation, List.getElem?_eq_none outside]

theorem height_lt {db : Database} (layered : db.isLayered) {r c : RelationId}
    (depends : c ∈ (db.relation r).dependencies) : db.height c < db.height r := by
  by_cases inside : r < db.relations.length
  · simp only [isLayered, List.all_eq_true, List.mem_range, decide_eq_true_eq] at layered
    exact layered r inside c depends
  · rw [relation_eq_empty (Nat.le_of_not_lt inside)] at depends
    simp [Relation.dependencies] at depends

end Rulebook.Database
