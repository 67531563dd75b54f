import Rulebook.Proofs.Dependency
import Rulebook.Proofs.Valuation

/-! What a database says, without any search. A tuple of texts is derivable if it is an instance of
a fact, or of the parameters of a rule whose conditions become derivable under the same instance. -/
namespace Rulebook

/-- The tuple stands in the relation, by a fact or by a rule. -/
inductive Derivable (db : Database) : RelationId → List String → Prop where
  | fact {r : RelationId} {fact : List Term} (σ : Valuation) :
      fact ∈ (db.relation r).facts → Derivable db r (fact.map (Term.under σ))
  | rule {r : RelationId} {rule : Rule} (σ : Valuation) : rule ∈ (db.relation r).rules →
      (∀ condition ∈ rule.conditions,
        Derivable db condition.1 (condition.2.map (Term.under σ))) →
      Derivable db r (rule.params.map (Term.under σ))

/-- What a goal says of a valuation. -/
inductive Goal.Holds (db : Database) (σ : Valuation) : Goal → Prop where
  | unify {left right : Term} : left.under σ = right.under σ → Holds db σ (.unify left right)
  | unifyAll {left right : List Term} : left.map (Term.under σ) = right.map (Term.under σ) →
      Holds db σ (.unifyAll left right)
  | all {goals : List Goal} : (∀ goal ∈ goals, Holds db σ goal) → Holds db σ (.all goals)
  | any {goal : Goal} {goals : List Goal} : goal ∈ goals → Holds db σ goal → Holds db σ (.any goals)
  | query {r : RelationId} {args : List Term} : Derivable db r (args.map (Term.under σ)) →
      Holds db σ (.query r args)
  | traced {label : String} {goal : Goal} : Holds db σ goal → Holds db σ (.traced label goal)

namespace Term

def isLiteral : Term → Bool
  | var _ => false
  | lit _ => true

theorem eq_lit_under {term : Term} (literal : term.isLiteral) (σ : Valuation) :
    term = .lit (term.under σ) := by
  cases term with
  | var name => cases literal
  | lit value => rfl

theorem Named.of_literal {term : Term} (literal : term.isLiteral) (ok : String → Prop) :
    term.Named ok := by
  cases term with
  | var name => cases literal
  | lit value => trivial

end Term

/-- Literals read the same under every valuation. -/
theorem map_under_literal {terms : List Term} (literal : ∀ term ∈ terms, term.isLiteral)
    (σ τ : Valuation) : terms.map (Term.under σ) = terms.map (Term.under τ) :=
  map_under_congr fun term inside => .of_literal (literal term inside) _

theorem map_under_key {terms : List Term} (literal : ∀ term ∈ terms, term.isLiteral)
    (σ : Valuation) : terms.map (Term.under σ) = terms.map Term.key :=
  List.map_congr_left fun term inside => by
    rw [Term.eq_lit_under (literal term inside) σ]
    rfl

theorem map_lit_under {terms : List Term} (literal : ∀ term ∈ terms, term.isLiteral)
    (σ : Valuation) : (terms.map (Term.under σ)).map .lit = terms := by
  rw [List.map_map]
  exact (List.map_congr_left fun term inside =>
    (Term.eq_lit_under (literal term inside) σ).symm).trans (List.map_id terms)

def Database.Literal (db : Database) : Prop :=
  ∀ r, ∀ fact ∈ (db.relation r).facts, ∀ term ∈ fact, term.isLiteral

theorem Database.literal_iff {db : Database} : db.Literal ↔
    ∀ relation ∈ db.relations, ∀ fact ∈ relation.facts, ∀ term ∈ fact, term.isLiteral := by
  constructor
  · intro literal relation inside
    obtain ⟨r, here, rfl⟩ := List.getElem_of_mem inside
    have same : db.relation r = db.relations[r] := by
      rw [Database.relation, List.getElem?_eq_getElem here, Option.getD_some]
    exact same ▸ literal r
  · intro literal r
    by_cases here : r < db.relations.length
    · rw [Database.relation, List.getElem?_eq_getElem here, Option.getD_some]
      exact literal _ (List.getElem_mem here)
    · rw [Database.relation_eq_empty (Nat.le_of_not_lt here)]
      simp

instance (db : Database) : Decidable db.Literal := decidable_of_iff _ Database.literal_iff.symm

theorem getElem?_of_starts {first whole : List α} (starts : first <+: whole) {place : Nat} {item : α}
    (found : first[place]? = some item) : whole[place]? = some item := by
  obtain ⟨rest, rfl⟩ := starts
  rwa [List.getElem?_append_left (List.getElem?_eq_some_iff.mp found).1]

/-- The later database has all that the first has, in the same places. -/
structure Database.Grown (db later : Database) : Prop where
  facts : ∀ r, (db.relation r).facts <+: (later.relation r).facts
  rules : ∀ r, (db.relation r).rules <+: (later.relation r).rules

namespace Database.Grown
variable {db later last : Database}

theorem refl (db : Database) : db.Grown db :=
  ⟨fun _ => List.prefix_refl _, fun _ => List.prefix_refl _⟩

theorem trans (first : db.Grown later) (second : later.Grown last) : db.Grown last :=
  ⟨fun r => (first.facts r).trans (second.facts r), fun r => (first.rules r).trans (second.rules r)⟩

end Database.Grown

namespace Derivable
variable {db : Database}

/-- More facts and more rules derive more. -/
theorem mono {next : Database} {r : RelationId} {values : List String}
    (facts : ∀ r, (db.relation r).facts ⊆ (next.relation r).facts)
    (rules : ∀ r, (db.relation r).rules ⊆ (next.relation r).rules)
    (derivable : Derivable db r values) : Derivable next r values := by
  induction derivable with
  | fact σ stored => exact .fact σ (facts _ stored)
  | rule σ stored _ ih => exact .rule σ (rules _ stored) ih

theorem grown {later : Database} {r : RelationId} {values : List String} (grown : db.Grown later)
    (derivable : Derivable db r values) : Derivable later r values :=
  derivable.mono (fun r => (grown.facts r).subset) fun r => (grown.rules r).subset

theorem depends {r : RelationId} {rule : Rule} (stored : rule ∈ (db.relation r).rules)
    {condition : RelationId × List Term} (inside : condition ∈ rule.conditions) :
    db.Depends r condition.1 :=
  List.mem_flatMap.mpr ⟨rule, stored, List.mem_map_of_mem inside⟩

/-- What is derivable in a relation hangs on the relations it depends on alone. -/
theorem transfer {next : Database} {r : RelationId} {values : List String}
    (same : ∀ c, Relation.ReflTransGen db.Depends r c → next.relation c = db.relation c)
    (derivable : Derivable db r values) : Derivable next r values := by
  induction derivable with
  | fact σ stored => exact .fact σ (by rwa [same _ .refl])
  | @rule r rule σ stored _ ih =>
    refine .rule σ (by rwa [same _ .refl]) fun condition inside => ?_
    exact ih condition inside fun c reached => same c (.head (depends stored inside) reached)

theorem iff_of_same {next : Database} {r : RelationId}
    (same : ∀ c, Relation.ReflTransGen db.Depends r c → next.relation c = db.relation c)
    (values : List String) : Derivable next r values ↔ Derivable db r values := by
  have reaches {c : RelationId} (path : Relation.ReflTransGen next.Depends r c) :
      Relation.ReflTransGen db.Depends r c := by
    induction path with
    | refl => exact .refl
    | tail _ edge ih =>
      rw [Database.Depends, same _ ih] at edge
      exact ih.tail edge
  exact ⟨transfer fun c path => (same c (reaches path)).symm, transfer same⟩

end Derivable

theorem Goal.Holds.grown {db later : Database} {σ : Valuation} (grown : db.Grown later) {goal : Goal}
    (holds : goal.Holds db σ) : goal.Holds later σ := by
  induction holds with
  | unify equal => exact .unify equal
  | unifyAll equal => exact .unifyAll equal
  | all _ ih => exact .all ih
  | any inside _ ih => exact .any inside ih
  | query derivable => exact .query (derivable.grown grown)
  | traced _ ih => exact .traced ih

end Rulebook
