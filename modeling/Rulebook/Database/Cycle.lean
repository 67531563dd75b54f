import Rulebook.Database

/-! Recursive rules. A relation depends on the relations its rules ask; a rule that would make a
relation depend on itself is refused, so that every search over the relations ends. The walk is
depth first and visits no relation twice, whichever branch it came by. -/
namespace Rulebook.Database

/-- A walk through the dependencies finds a path to its target, or has seen the relations it
could reach. -/
inductive Walk where
  | found (path : List RelationId)
  | missed (seen : List RelationId)

/-- Descends into relations one after the other until one leads to the target. -/
def walkEach (descend : RelationId → List RelationId → Walk) :
    List RelationId → List RelationId → Walk
  | [], seen => .missed seen
  | r :: rest, seen =>
    match descend r seen with
    | .found path => .found path
    | .missed seen => walkEach descend rest seen

/-- Descends from a relation towards the target. The number bounds the depth; a path without
repetition is no longer than there are relations. -/
def walkFrom (db : Database) (target : RelationId) :
    Nat → List RelationId → RelationId → List RelationId → Walk
  | 0, _, _, seen => .missed seen
  | depth + 1, path, r, seen =>
    if r = target then .found (path ++ [r])
    else if r ∈ seen then .missed seen
    else walkEach (fun next seen => walkFrom db target depth (path ++ [r]) next seen)
      (db.relation r).dependencies (r :: seen)

/-- The path from the relation back to itself that adding the rule would make, if it makes one. -/
def findCycle (db : Database) (target : RelationId) (rule : Rule) : Option (List RelationId) :=
  match walkEach (db.walkFrom target (db.relations.length + 1) [target]) rule.relations [] with
  | .found path => some path
  | .missed _ => none

/-- Adds a rule that makes no relation depend on itself. -/
def addRule (db : Database) (r : RelationId) (rule : Rule) : Except Fault Database :=
  match db.findCycle r rule with
  | some path => .error (.recursiveRule (path.map db.nameOf))
  | none => ((db.relation r).appendRule rule).map (db.set r)

end Rulebook.Database
