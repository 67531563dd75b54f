import Rulebook.Proofs.Dependency

/-! What the operations on a database change. Each leaves all relations but one as they are, facts
come and go without touching a rule, and a rule comes only past the guard against recursion. -/
namespace Rulebook

namespace Relation

theorem addFact_ok {relation next : Relation} {fact : List Term}
    (added : relation.addFact fact = .ok next) :
    (relation.arity = none ∨ relation.arity = some fact.length) ∧
      next = { relation with arity := some fact.length, facts := relation.facts ++ [fact] } := by
  obtain ⟨name, facts, rules, arity⟩ := relation
  cases arity with
  | none =>
    cases added
    exact ⟨.inl rfl, rfl⟩
  | some fixed =>
    simp only [addFact, takes] at added
    split at added
    · rename_i same
      cases added
      exact ⟨.inr (congrArg some same.symm), by rw [same]⟩
    · cases added

theorem appendRule_ok {relation next : Relation} {rule : Rule}
    (added : relation.appendRule rule = .ok next) :
    (relation.arity = none ∨ relation.arity = some rule.params.length) ∧
      next = { relation with
        arity := some rule.params.length
        rules := relation.rules ++ [rule] } := by
  obtain ⟨name, facts, rules, arity⟩ := relation
  cases arity with
  | none =>
    cases added
    exact ⟨.inl rfl, rfl⟩
  | some fixed =>
    simp only [appendRule, takes] at added
    split at added
    · rename_i same
      cases added
      exact ⟨.inr (congrArg some same.symm), by rw [same]⟩
    · cases added

theorem takes_fits {relation : Relation} {count : Nat} (what : Addition)
    (fits : ∀ fixed, relation.arity = some fixed → count = fixed) :
    ∃ next, relation.takes count what = .ok next := by
  unfold takes
  cases fixed : relation.arity with
  | none => exact ⟨_, rfl⟩
  | some n => exact ⟨relation, if_pos (fits n fixed)⟩

end Relation

namespace Database
variable {db : Database}

theorem length_declare (name : String) :
    (db.declare name).2.relations.length = db.relations.length + 1 :=
  List.length_append

theorem relation_declare (name : String) (r : RelationId) :
    (db.declare name).2.relation r =
      if r = db.relations.length then { name } else db.relation r := by
  rcases Nat.lt_trichotomy r db.relations.length with old | same | out
  · simp only [relation, declare, List.getElem?_append_left old, if_neg (Nat.ne_of_lt old)]
  · simp [relation, declare, same]
  · have beyond : db.relations.length + 1 ≤ r := out
    rw [if_neg (Nat.ne_of_gt out), relation_eq_empty (Nat.le_of_lt out),
      relation_eq_empty (by rwa [length_declare])]

theorem length_set (r : RelationId) (relation : Relation) :
    (db.set r relation).relations.length = db.relations.length :=
  List.length_set

theorem relation_set {r : RelationId} (declared : r < db.relations.length) (relation : Relation)
    (s : RelationId) :
    (db.set r relation).relation s = if s = r then relation else db.relation s := by
  simp only [Database.relation, set, List.getElem?_set]
  by_cases same : r = s
  · simp [same, same ▸ declared]
  · simp [same, Ne.symm same]

theorem relation_set_other {r s : RelationId} (other : s ≠ r) (relation : Relation) :
    (db.set r relation).relation s = db.relation s := by
  simp only [Database.relation, set, List.getElem?_set, if_neg (Ne.symm other)]

theorem addFact_ok {next : Database} {r : RelationId} {fact : List Term}
    (added : db.addFact r fact = .ok next) :
    ((db.relation r).arity = none ∨ (db.relation r).arity = some fact.length) ∧
      next = db.set r { db.relation r with
        arity := some fact.length, facts := (db.relation r).facts ++ [fact] } := by
  unfold addFact at added
  cases outcome : (db.relation r).addFact fact with
  | error fault =>
    rw [outcome] at added
    cases added
  | ok relation =>
    rw [outcome] at added
    cases added
    obtain ⟨arity, same⟩ := Relation.addFact_ok outcome
    exact ⟨arity, by rw [same]⟩

theorem length_of_addFact {next : Database} {r : RelationId} {fact : List Term}
    (added : db.addFact r fact = .ok next) : next.relations.length = db.relations.length := by
  obtain ⟨_, rfl⟩ := addFact_ok added
  exact length_set r _

/-- A fact comes last in its relation, and nothing else changes. -/
theorem relation_of_addFact {next : Database} {r : RelationId} {fact : List Term}
    (declared : r < db.relations.length) (added : db.addFact r fact = .ok next) :
    (next.relation r).facts = (db.relation r).facts ++ [fact] ∧
      (next.relation r).rules = (db.relation r).rules ∧
      ∀ s ≠ r, next.relation s = db.relation s := by
  obtain ⟨_, rfl⟩ := addFact_ok added
  rw [relation_set declared, if_pos rfl]
  exact ⟨rfl, rfl, fun s other => relation_set_other other _⟩

theorem addRule_ok {next : Database} {r : RelationId} {rule : Rule}
    (added : db.addRule r rule = .ok next) :
    db.findCycle r rule = none ∧
      ((db.relation r).arity = none ∨ (db.relation r).arity = some rule.params.length) ∧
      next = db.set r { db.relation r with
        arity := some rule.params.length, rules := (db.relation r).rules ++ [rule] } := by
  unfold addRule at added
  split at added
  · cases added
  · rename_i acyclic
    cases outcome : (db.relation r).appendRule rule with
    | error fault =>
      rw [outcome] at added
      cases added
    | ok relation =>
      rw [outcome] at added
      cases added
      obtain ⟨arity, same⟩ := Relation.appendRule_ok outcome
      exact ⟨acyclic, arity, by rw [same]⟩

theorem addFact_fits {r : RelationId} {fact : List Term}
    (fits : ∀ fixed, (db.relation r).arity = some fixed → fact.length = fixed) :
    ∃ next, db.addFact r fact = .ok next := by
  obtain ⟨next, taken⟩ := Relation.takes_fits .fact fits
  simp [addFact, Relation.addFact, taken, Except.map]

/-- A fact is refused only for its number of arguments. -/
theorem addFact_refused {r : RelationId} {fact : List Term} {fault : Fault}
    (refused : db.addFact r fact = .error fault) :
    ∃ takes, (db.relation r).arity = some takes ∧ fact.length ≠ takes ∧
      fault = .arity .fact fact.length (db.nameOf r) takes := by
  unfold addFact Relation.addFact Relation.takes at refused
  split at refused
  · cases refused
  · rename_i takes fixed
    split at refused
    · cases refused
    · rename_i differ
      cases refused
      exact ⟨takes, fixed, differ, rfl⟩

/-- A rule is refused for a cycle, and where there is none, for its number of parameters. -/
theorem addRule_error {r : RelationId} {rule : Rule} {fault : Fault}
    (refused : db.addRule r rule = .error fault) :
    (∃ path, db.findCycle r rule = some path ∧ fault = .recursiveRule (path.map db.nameOf)) ∨
      db.findCycle r rule = none ∧ ∃ takes, (db.relation r).arity = some takes ∧
        rule.params.length ≠ takes ∧
        fault = .arity .rule rule.params.length (db.nameOf r) takes := by
  unfold addRule Relation.appendRule Relation.takes at refused
  split at refused
  · rename_i path found
    cases refused
    exact .inl ⟨path, found, rfl⟩
  · rename_i none
    split at refused
    · cases refused
    · rename_i takes fixed
      split at refused
      · cases refused
      · rename_i differ
        cases refused
        exact .inr ⟨none, takes, fixed, differ, rfl⟩

/-- A rule with the right number of parameters is refused only for a cycle. -/
theorem addRule_refused {r : RelationId} {rule : Rule} {fault : Fault}
    (fits : ∀ fixed, (db.relation r).arity = some fixed → rule.params.length = fixed)
    (refused : db.addRule r rule = .error fault) :
    ∃ path, db.findCycle r rule = some path ∧ fault = .recursiveRule (path.map db.nameOf) := by
  rcases addRule_error refused with cycle | ⟨_, takes, fixed, differ, _⟩
  · exact cycle
  · exact absurd (fits takes fixed) differ

theorem nameOf_removeFact (r : RelationId) (fact : List Term) (s : RelationId) :
    (db.removeFact r fact).nameOf s = db.nameOf s := by
  by_cases here : s = r
  · subst here
    by_cases declared : s < db.relations.length
    · rw [nameOf, removeFact, relation_set declared, if_pos rfl]
      rfl
    · have out : db.relations.length ≤ s := Nat.le_of_not_lt declared
      rw [nameOf, nameOf, relation_eq_empty (by rwa [removeFact, length_set]),
        relation_eq_empty (Nat.le_of_not_lt declared)]
  · rw [nameOf, removeFact, relation_set_other here, nameOf]

/-- The dependencies are those of an acyclic graph over declared relations. -/
structure Acyclic (db : Database) : Prop where
  closed : db.Closed
  layered : db.isLayered

theorem Acyclic.of_ranks (rank : RelationId → Nat) (closed : db.Closed) (ranks : db.Ranks rank) :
    db.Acyclic :=
  ⟨closed, isLayered_of_ranks closed ranks⟩

theorem Acyclic.not_reaches (acyclic : db.Acyclic) (r : RelationId) :
    ¬Relation.TransGen db.Depends r r := by
  intro path
  exact Nat.lt_irrefl _ ((ranks_height acyclic.layered).lt_of_reaches path)

/-- Nothing that leaves the rules and the declared relations alone makes a difference. -/
theorem Acyclic.congr {next : Database} (acyclic : db.Acyclic)
    (lengths : db.relations.length ≤ next.relations.length)
    (rules : ∀ r, (next.relation r).rules = (db.relation r).rules) : next.Acyclic := by
  have depends (r c : RelationId) (edge : next.Depends r c) : db.Depends r c := by
    rw [Depends, Relation.dependencies, rules r] at edge
    exact edge
  exact .of_ranks db.height
    (fun r c edge => Nat.lt_of_lt_of_le (acyclic.closed r c (depends r c edge)) lengths)
    (fun r c edge => height_lt acyclic.layered (depends r c edge))

theorem Acyclic.declare (acyclic : db.Acyclic) (name : String) : (db.declare name).2.Acyclic := by
  apply acyclic.congr (by rw [length_declare]; omega)
  intro r
  rw [relation_declare]
  split
  · rename_i new
    rw [relation_eq_empty (Nat.le_of_eq new.symm)]
  · rfl

theorem rules_set {r : RelationId} {relation : Relation}
    (same : relation.rules = (db.relation r).rules) (s : RelationId) :
    ((db.set r relation).relation s).rules = (db.relation s).rules := by
  by_cases here : s = r
  · subst here
    by_cases declared : s < db.relations.length
    · rw [relation_set declared, if_pos rfl, same]
    · rw [relation_eq_empty (by rw [length_set]; exact Nat.le_of_not_lt declared),
        relation_eq_empty (Nat.le_of_not_lt declared)]
  · rw [relation_set_other here]

theorem mem_addFact {next : Database} {r s : RelationId} {fact other : List Term}
    (declared : r < db.relations.length) (added : db.addFact r fact = .ok next) :
    other ∈ (next.relation s).facts ↔ other ∈ (db.relation s).facts ∨ s = r ∧ other = fact := by
  obtain ⟨_, rfl⟩ := addFact_ok added
  rw [relation_set declared]
  by_cases here : s = r <;> simp [here]

theorem rules_addFact {next : Database} {r : RelationId} {fact : List Term}
    (added : db.addFact r fact = .ok next) (s : RelationId) :
    (next.relation s).rules = (db.relation s).rules := by
  obtain ⟨_, rfl⟩ := addFact_ok added
  apply rules_set
  rfl

theorem mem_addRule {next : Database} {r s : RelationId} {rule other : Rule}
    (declared : r < db.relations.length) (added : db.addRule r rule = .ok next) :
    other ∈ (next.relation s).rules ↔ other ∈ (db.relation s).rules ∨ s = r ∧ other = rule := by
  obtain ⟨_, _, rfl⟩ := addRule_ok added
  rw [relation_set declared]
  by_cases here : s = r <;> simp [here]

theorem facts_addRule {next : Database} {r : RelationId} {rule : Rule}
    (declared : r < db.relations.length) (added : db.addRule r rule = .ok next) (s : RelationId) :
    (next.relation s).facts = (db.relation s).facts := by
  obtain ⟨_, _, rfl⟩ := addRule_ok added
  rw [relation_set declared]
  split
  · rename_i here
    rw [here]
  · rfl

section Facts
variable {r : RelationId}

def withFacts (db : Database) (r : RelationId) (facts : List (List Term)) : Database :=
  db.set r { db.relation r with facts }

theorem relation_withFacts (declared : r < db.relations.length) (facts : List (List Term))
    (s : RelationId) : (db.withFacts r facts).relation s =
      if s = r then { db.relation r with facts } else db.relation s :=
  relation_set declared _ s

theorem facts_withFacts (declared : r < db.relations.length) (facts : List (List Term)) :
    ((db.withFacts r facts).relation r).facts = facts := by
  rw [relation_withFacts declared, if_pos rfl]

theorem withFacts_withFacts (declared : r < db.relations.length) (facts more : List (List Term)) :
    (db.withFacts r facts).withFacts r more = db.withFacts r more := by
  rw [withFacts, relation_withFacts declared, if_pos rfl, withFacts, withFacts, set, set, set,
    List.set_set]

theorem rules_withFacts (facts : List (List Term)) (s : RelationId) :
    ((db.withFacts r facts).relation s).rules = (db.relation s).rules := by
  apply rules_set
  rfl

theorem withFacts_same (declared : r < db.relations.length) :
    db.withFacts r (db.relation r).facts = db := by
  obtain ⟨relations⟩ := db
  have here : (⟨relations⟩ : Database).relation r = relations[r] := by
    rw [relation, List.getElem?_eq_getElem declared]
    rfl
  rw [withFacts, set]
  change (⟨relations.set r ((⟨relations⟩ : Database).relation r)⟩ : Database) = ⟨relations⟩
  rw [here, List.set_getElem_self]

end Facts

theorem Acyclic.set (acyclic : db.Acyclic) {r : RelationId} {relation : Relation}
    (same : relation.rules = (db.relation r).rules) : (db.set r relation).Acyclic :=
  acyclic.congr (Nat.le_of_eq (length_set r relation).symm) (rules_set same)

theorem Acyclic.addRule (acyclic : db.Acyclic) {next : Database} {r : RelationId} {rule : Rule}
    (asked : ∀ c ∈ rule.relations, c < db.relations.length)
    (added : db.addRule r rule = .ok next) : next.Acyclic := by
  obtain ⟨guarded, _, rfl⟩ := addRule_ok added
  have depends (x c : RelationId) (edge : Depends (db.set r { db.relation r with
      arity := some rule.params.length, rules := (db.relation r).rules ++ [rule] }) x c) :
      db.Depends x c ∨ x = r ∧ c ∈ rule.relations := by
    by_cases here : x = r
    · subst here
      have declared := declared_of_depends edge
      rw [length_set] at declared
      rw [Depends, relation_set declared, if_pos rfl, Relation.dependencies, List.flatMap_append,
        List.mem_append, List.flatMap_singleton] at edge
      exact edge.imp_right fun inside => ⟨rfl, inside⟩
    · rw [Depends, relation_set_other here] at edge
      exact .inl edge
  obtain ⟨rank, ranks⟩ := ranks_of_asked (ranks_height acyclic.layered)
    (fun c inside => not_reaches_of_findCycle guarded inside) depends
  refine .of_ranks rank ?_ ranks
  intro x c edge
  rw [length_set]
  rcases depends x c edge with old | ⟨_, inside⟩
  · exact acyclic.closed x c old
  · exact asked c inside

theorem acyclic_empty : ({} : Database).Acyclic := by
  refine .of_ranks (fun _ => 0) ?_ ?_ <;>
  · intro r c edge
    rw [Depends, relation_eq_empty (Nat.zero_le r)] at edge
    cases edge

end Database
end Rulebook
