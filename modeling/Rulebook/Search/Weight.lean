import Rulebook.Database.Layers
import Rulebook.Search

/-! Why searches end. A search has a weight that every step lowers, as long as no goal in it is a
stream and no relation depends on itself. A query weighs what walking the facts and the rules of its
relation takes, and a conjunction weighs its first goal times the rest, because each answer of the
first goal goes through the rest. Weights grow beyond any use as numbers; they are compared and
never computed. -/
namespace Rulebook

mutual

/-- Is there no stream in the goal? -/
def Goal.isFinite : Goal → Bool
  | .stream _ => false
  | .all goals => Goal.areFinite goals
  | .any goals => Goal.areFinite goals
  | .traced _ goal => goal.isFinite
  | .unify _ _ | .unifyAll _ _ | .query _ _ | .unsearchable => true

def Goal.areFinite : List Goal → Bool
  | [] => true
  | goal :: goals => goal.isFinite && Goal.areFinite goals

end

mutual

/-- A bound on the steps of a goal, given bounds for the queries of each relation. -/
def Goal.weight (weightOf : RelationId → Nat) : Goal → Nat
  | .unify _ _ => 2
  | .unifyAll _ _ => 2
  | .all goals => 1 + Goal.chainWeight weightOf goals
  | .any goals => 2 + Goal.branchWeight weightOf goals
  | .query relation _ => weightOf relation
  | .traced _ goal => 2 + goal.weight weightOf
  | .stream _ => 1
  | .unsearchable => 1

/-- What one answer costs that has these goals still before it. -/
def Goal.chainWeight (weightOf : RelationId → Nat) : List Goal → Nat
  | [] => 1
  | goal :: goals => 1 + goal.weight weightOf * Goal.chainWeight weightOf goals

def Goal.branchWeight (weightOf : RelationId → Nat) : List Goal → Nat
  | [] => 0
  | goal :: goals => goal.weight weightOf + Goal.branchWeight weightOf goals

end

/-- What one answer costs that has these queries still before it. -/
def queriesWeight (weightOf : RelationId → Nat) : List RelationId → Nat
  | [] => 1
  | relation :: relations => 1 + weightOf relation * queriesWeight weightOf relations

/-- A bound on the steps of one use of a rule. -/
def Rule.weight (weightOf : RelationId → Nat) (rule : Rule) : Nat :=
  2 + 2 * queriesWeight weightOf rule.relations

namespace Relation

/-- A bound on the steps of walking rules. -/
def rulesWeight (weightOf : RelationId → Nat) : List Rule → Nat
  | [] => 1
  | rule :: rules => 1 + rule.weight weightOf + rulesWeight weightOf rules

/-- A bound on the steps of walking the facts from a place on, and then the rules. -/
def walkWeight (weightOf : RelationId → Nat) (relation : Relation) (next : Nat) : Nat :=
  1 + (relation.facts.length - next) + rulesWeight weightOf relation.rules

/-- A bound on the steps of a query. -/
def weight (weightOf : RelationId → Nat) (relation : Relation) : Nat :=
  1 + relation.walkWeight weightOf 0

end Relation

namespace Database

/-- The weights as far as they go down this many layers. -/
def weightWithin (db : Database) : Nat → RelationId → Nat
  | 0, _ => 0
  | layers + 1, r => (db.relation r).weight (db.weightWithin layers)

/-- The weight of a query of the relation. -/
def weightOf (db : Database) (r : RelationId) : Nat := db.weightWithin (db.height r + 1) r

end Database

/-- Weights that satisfy their own equation. -/
def Weighs (db : Database) (w : RelationId → Nat) : Prop := ∀ r, w r = (db.relation r).weight w

section Agreement
variable {f g : RelationId → Nat}

theorem queriesWeight_congr {relations : List RelationId} (same : ∀ r ∈ relations, f r = g r) :
    queriesWeight f relations = queriesWeight g relations := by
  induction relations with
  | nil => rfl
  | cons r rest ih =>
    simp only [List.mem_cons, forall_eq_or_imp] at same
    simp only [queriesWeight, same.1, ih same.2]

theorem Relation.rulesWeight_congr {rules : List Rule}
    (same : ∀ r ∈ rules.flatMap Rule.relations, f r = g r) :
    Relation.rulesWeight f rules = Relation.rulesWeight g rules := by
  induction rules with
  | nil => rfl
  | cons rule rest ih =>
    simp only [List.flatMap_cons, List.mem_append] at same
    simp only [Relation.rulesWeight, Rule.weight,
      queriesWeight_congr fun r h => same r (.inl h), ih fun r h => same r (.inr h)]

/-- A relation's weight depends on the weights of what its rules ask. -/
theorem Relation.weight_congr {relation : Relation}
    (same : ∀ r ∈ relation.dependencies, f r = g r) : relation.weight f = relation.weight g := by
  simp only [Relation.weight, Relation.walkWeight, Relation.rulesWeight_congr same]

end Agreement

namespace Database
variable {db : Database}

theorem weightWithin_eq (layered : db.isLayered) {m n : Nat} {r : RelationId}
    (hm : db.height r < m) (hn : db.height r < n) : db.weightWithin m r = db.weightWithin n r := by
  induction m generalizing n r with
  | zero => omega
  | succ m ih =>
    cases n with
    | zero => omega
    | succ n =>
      apply Relation.weight_congr
      intro c depends
      have lower := height_lt layered depends
      exact ih (by omega) (by omega)

theorem weighs_weightOf (layered : db.isLayered) : Weighs db db.weightOf := by
  intro r
  apply Relation.weight_congr
  intro c depends
  exact weightWithin_eq layered (height_lt layered depends) (Nat.lt_succ_self _)

end Database

namespace Search

mutual

/-- Is there no stream in what is left to search? -/
def isFinite : Search → Bool
  | .ended => true
  | .pending goal _ => goal.isFinite
  | .facts _ _ _ _ => true
  | .rules _ _ _ _ => true
  | .each live rest below => live.isFinite && Goal.areFinite rest && below.isFinite
  | .round queue => areFinite queue
  | .tracing _ inner => inner.isFinite
  | .streaming _ _ _ => false

def areFinite : List Search → Bool
  | [] => true
  | search :: others => search.isFinite && areFinite others

end

mutual

/-- A bound on the steps that are left. -/
def weight (db : Database) (weightOf : RelationId → Nat) : Search → Nat
  | .ended => 1
  | .pending goal _ => goal.weight weightOf
  | .facts relation _ _ next => (db.relation relation).walkWeight weightOf next
  | .rules relation _ _ next =>
    Relation.rulesWeight weightOf ((db.relation relation).rules.drop next)
  | .each live rest below =>
    live.weight db weightOf * Goal.chainWeight weightOf rest + below.weight db weightOf
  | .round queue => 1 + queueWeight db weightOf queue
  | .tracing _ inner => 1 + inner.weight db weightOf
  | .streaming _ _ _ => 1

def queueWeight (db : Database) (weightOf : RelationId → Nat) : List Search → Nat
  | [] => 0
  | search :: others => search.weight db weightOf + queueWeight db weightOf others

end

end Search
end Rulebook
