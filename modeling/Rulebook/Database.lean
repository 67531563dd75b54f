import Rulebook.Goal
import Rulebook.Naming

/-! Relations, their facts and their rules. A rule says that its parameters stand in a relation
whenever all of its conditions hold. The number of arguments of a relation is fixed by the first
fact or rule added and stays fixed when that fact goes again. -/
namespace Rulebook

/-- An id source's place among the sources. -/
abbrev SourceId := Nat

/-- With a source, each use of the rule renames its variables under a new salt; without one they
are the caller's. -/
structure Rule where
  params : List Term
  conditions : List (RelationId × List Term) := []
  source : Option SourceId := none

namespace Rule

/-- The relations that the rule asks, in order. -/
def relations (rule : Rule) : List RelationId := rule.conditions.map (·.1)

def addCondition (rule : Rule) (relation : RelationId) (args : List Term) : Rule :=
  { rule with conditions := rule.conditions ++ [(relation, args)] }

/-- The rule applied to arguments, its variables renamed by the salt. -/
def goal (rule : Rule) (args : List Term) (salt : String) : Goal :=
  .all (.unifyAll args (rule.params.map (·.salted salt)) ::
    rule.conditions.map fun (relation, terms) => .query relation (terms.map (·.salted salt)))

def text (rule : Rule) : String :=
  "Rule(" ++ argumentText rule.params ++ ", " ++ toString rule.conditions.length ++ " conditions)"

end Rule

structure Relation where
  name : String := ""
  facts : List (List Term) := []
  rules : List Rule := []
  arity : Option Nat := none

namespace Relation

/-- Fixes the number of arguments, or holds the addition to the one already fixed. -/
def takes (relation : Relation) (count : Nat) (what : Addition) : Except Fault Relation :=
  match relation.arity with
  | none => .ok { relation with arity := some count }
  | some fixed =>
    if count = fixed then .ok relation else .error (.arity what count relation.name fixed)

def addFact (relation : Relation) (fact : List Term) : Except Fault Relation :=
  (relation.takes fact.length .fact).map fun r => { r with facts := r.facts ++ [fact] }

/-- Takes away every stored fact equal to this one. -/
def removeFact (relation : Relation) (fact : List Term) : Relation :=
  { relation with facts := relation.facts.filter (· != fact) }

/-- Adds a rule whatever it depends on; `Database.addRule` guards against recursion. -/
def appendRule (relation : Relation) (rule : Rule) : Except Fault Relation :=
  (relation.takes rule.params.length .rule).map fun r => { r with rules := r.rules ++ [rule] }

/-- Matches against the stored facts only. -/
def factsGoal (relation : Relation) (args : List Term) : Goal :=
  .any (relation.facts.map (.unifyAll args))

/-- The relations that some rule asks, in the order of the rules. -/
def dependencies (relation : Relation) : List RelationId := relation.rules.flatMap Rule.relations

def text (relation : Relation) : String :=
  "Relation(" ++ Text.quoted relation.name ++ ", facts=" ++ toString relation.facts.length ++
    ", rules=" ++ toString relation.rules.length ++ ")"

end Relation

/-- Relations by place. A place that nothing was declared at holds an empty relation. -/
structure Database where
  relations : List Relation := []

namespace Database

def relation (db : Database) (r : RelationId) : Relation := db.relations[r]?.getD {}

def nameOf (db : Database) (r : RelationId) : String := (db.relation r).name

/-- A new relation without facts and rules. -/
def declare (db : Database) (name : String) : RelationId × Database :=
  (db.relations.length, ⟨db.relations ++ [({ name := name } : Relation)]⟩)

def set (db : Database) (r : RelationId) (relation : Relation) : Database :=
  ⟨db.relations.set r relation⟩

def addFact (db : Database) (r : RelationId) (fact : List Term) : Except Fault Database :=
  ((db.relation r).addFact fact).map (db.set r)

def removeFact (db : Database) (r : RelationId) (fact : List Term) : Database :=
  db.set r ((db.relation r).removeFact fact)

end Database
end Rulebook
