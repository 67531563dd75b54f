import Mathlib.Data.List.Basic
import Rulebook.Proofs.Dependency
import Rulebook.Proofs.Renaming.Unification

/-! Databases under a renaming. Only facts can hold minted names; what rules depend on, and whether
a fact or a rule can be added, is the same. -/
namespace Rulebook
variable (π : Renaming)

/-- The relation with its facts renamed; the variables of its rules have plain names. -/
def Relation.rename (π : Renaming) (relation : Relation) : Relation :=
  { relation with facts := relation.facts.map (List.map (Term.rename π)) }

namespace Relation

/-- The number of arguments that is fixed is the same, and so is what it refuses. -/
theorem takes_rename (relation : Relation) (count : Nat) (what : Addition) :
    (relation.rename π).takes count what =
      ((relation.takes count what).map (rename π)).mapError (Fault.rename π) := by
  obtain ⟨name, facts, rules, arity⟩ := relation
  cases arity with
  | none => rfl
  | some fixed =>
    simp only [takes, rename]
    split <;> rfl

theorem addFact_rename (relation : Relation) (fact : List Term) :
    (relation.rename π).addFact (fact.map (Term.rename π)) =
      ((relation.addFact fact).map (rename π)).mapError (Fault.rename π) := by
  rw [addFact, List.length_map, takes_rename, addFact]
  cases relation.takes fact.length .fact with
  | error fault => rfl
  | ok taken => simp [Except.map, Except.mapError, rename]

theorem appendRule_rename (relation : Relation) (rule : Rule) :
    (relation.rename π).appendRule rule =
      ((relation.appendRule rule).map (rename π)).mapError (Fault.rename π) := by
  rw [appendRule, takes_rename, appendRule]
  cases relation.takes rule.params.length .rule <;> rfl

end Relation

namespace Database
variable (db : Database)

def rename (π : Renaming) (db : Database) : Database := ⟨db.relations.map (Relation.rename π)⟩

theorem relation_rename (r : RelationId) :
    (db.rename π).relation r = (db.relation r).rename π := by
  rw [relation, rename, List.getElem?_map, relation]
  cases db.relations[r]? <;> rfl

theorem length_rename : (db.rename π).relations.length = db.relations.length := List.length_map _

theorem nameOf_rename (r : RelationId) : (db.rename π).nameOf r = db.nameOf r := by
  rw [nameOf, relation_rename]
  rfl

theorem set_rename (r : RelationId) (relation : Relation) :
    (db.set r relation).rename π = (db.rename π).set r (relation.rename π) :=
  congrArg Database.mk List.map_set

theorem declare_rename (name : String) :
    (db.rename π).declare name = ((db.declare name).1, (db.declare name).2.rename π) := by
  rw [declare, length_rename, declare, rename, rename, List.map_append]
  rfl

theorem dependencies_rename (r : RelationId) :
    ((db.rename π).relation r).dependencies = (db.relation r).dependencies := by
  rw [relation_rename]
  rfl

theorem raise_rename (heights : List Nat) : (db.rename π).raise heights = db.raise heights := by
  rw [raise, rename, List.map_map]
  rfl

theorem settle_rename (rounds : Nat) (heights : List Nat) :
    (db.rename π).settle rounds heights = db.settle rounds heights := by
  induction rounds generalizing heights with
  | zero => rfl
  | succ rounds ih => simp only [settle, raise_rename, ih]

/-- What depends on what is the same. -/
theorem isLayered_rename : (db.rename π).isLayered = db.isLayered := by
  have heights : (db.rename π).heights = db.heights := by
    rw [Database.heights, length_rename, settle_rename, rename, List.map_map]
    rfl
  simp only [isLayered, heights, length_rename, dependencies_rename]

/-- Adding a renamed fact. -/
theorem addFact_rename (r : RelationId) (fact : List Term) :
    (db.rename π).addFact r (fact.map (Term.rename π)) =
      ((db.addFact r fact).map (rename π)).mapError (Fault.rename π) := by
  rw [addFact, relation_rename, Relation.addFact_rename, addFact]
  cases (db.relation r).addFact fact with
  | error fault => rfl
  | ok relation => exact congrArg Except.ok (set_rename π db r relation).symm

/-- Taking back a renamed fact. -/
theorem removeFact_rename (r : RelationId) (fact : List Term) :
    (db.rename π).removeFact r (fact.map (Term.rename π)) = (db.removeFact r fact).rename π := by
  have other (stored : List Term) :
      (stored.map (Term.rename π) != fact.map (Term.rename π)) = (stored != fact) := by
    have injective := List.map_injective_iff.mpr fun _ _ => (Term.rename_inj π).mp
    rw [Bool.eq_iff_iff, bne_iff_ne, bne_iff_ne, injective.ne_iff]
  rw [removeFact, relation_rename, removeFact, set_rename]
  congr 1
  simp only [Relation.removeFact, Relation.rename, List.filter_map, Function.comp_def, other]

theorem findCycle_rename (r : RelationId) (rule : Rule) :
    (db.rename π).findCycle r rule = db.findCycle r rule :=
  findCycle_congr (length_rename π db) (dependencies_rename π db) rfl r

/-- Adding a rule; it is not renamed. -/
theorem addRule_rename (r : RelationId) (rule : Rule) :
    (db.rename π).addRule r rule =
      ((db.addRule r rule).map (rename π)).mapError (Fault.rename π) := by
  have names : (db.rename π).nameOf = db.nameOf := funext (nameOf_rename π db)
  rw [addRule, findCycle_rename, relation_rename, Relation.appendRule_rename, addRule, names]
  cases db.findCycle r rule with
  | some path => rfl
  | none =>
    cases (db.relation r).appendRule rule with
    | error fault => rfl
    | ok relation => exact congrArg Except.ok (set_rename π db r relation).symm

end Database

end Rulebook
