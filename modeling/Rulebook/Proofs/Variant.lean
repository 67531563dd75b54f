import Rulebook.Proofs.Program.Contents
import Rulebook.Proofs.Program.Placeholders

/-! Rules that say the same. What a rule says are its instances: texts for its parameters, with the
texts that its conditions ask for then. A rule whose variables get other names, different ones
different names, says the same; and databases with rules that say the same derive the same, depend
on the same and refuse the same. -/
namespace Rulebook

inductive Relates {α β : Type} (R : α → β → Prop) : Except Fault α → Except Fault β → Prop where
  | ok {a : α} {b : β} : R a b → Relates R (.ok a) (.ok b)
  | error (fault : Fault) : Relates R (.error fault) (.error fault)

theorem Relates.map {α β γ δ : Type} {R : α → β → Prop} {S : γ → δ → Prop} {f : α → γ} {g : β → δ}
    {x : Except Fault α} {y : Except Fault β} (relates : Relates R x y)
    (related : ∀ {a b}, R a b → S (f a) (g b)) : Relates S (x.map f) (y.map g) := by
  cases relates with
  | ok same => exact .ok (related same)
  | error fault => exact .error fault

namespace Rule

def under (rule : Rule) (σ : Valuation) : List String × List (RelationId × List String) :=
  (rule.params.map (Term.under σ),
    rule.conditions.map fun condition => (condition.1, condition.2.map (Term.under σ)))

/-- Each instance of one of the rules is an instance of the other. -/
structure Variant (rule other : Rule) : Prop where
  left : ∀ σ, ∃ τ, other.under τ = rule.under σ
  right : ∀ τ, ∃ σ, rule.under σ = other.under τ

def terms (rule : Rule) : List Term := rule.params ++ rule.conditions.flatMap (·.2)

def withNames (f : String → String) (rule : Rule) : Rule :=
  { rule with
    params := rule.params.map (.withNames f)
    conditions := rule.conditions.map fun condition =>
      (condition.1, condition.2.map (.withNames f)) }

theorem under_withNames (f : String → String) (rule : Rule) (σ : Valuation) :
    (rule.withNames f).under σ = rule.under fun name => σ (f name) := by
  simp only [under, withNames, List.map_map, Function.comp_def, Term.under_withNames]

theorem under_congr {rule : Rule} {σ τ : Valuation}
    (same : ∀ term ∈ rule.terms, term.under σ = term.under τ) : rule.under σ = rule.under τ := by
  have params : rule.params.map (Term.under σ) = rule.params.map (Term.under τ) :=
    List.map_congr_left fun term inside => same term (List.mem_append_left _ inside)
  have conditions (condition : RelationId × List Term) (inside : condition ∈ rule.conditions) :
      condition.2.map (Term.under σ) = condition.2.map (Term.under τ) :=
    List.map_congr_left fun term among =>
      same term (List.mem_append_right _ (List.mem_flatMap.mpr ⟨condition, inside, among⟩))
  rw [under, under, params]
  refine congrArg _ (List.map_congr_left fun condition inside => ?_)
  rw [conditions condition inside]

/-- Other names for the variables do not change what a rule says. -/
theorem variant_withNames {f : String → String} {rule : Rule} (apart : ApartOn f rule.terms) :
    rule.Variant (rule.withNames f) := by
  constructor
  · intro σ
    obtain ⟨τ, same⟩ := exists_under_withNames apart σ
    rw [map_under_withNames] at same
    refine ⟨τ, ?_⟩
    rw [under_withNames]
    exact under_congr (List.map_inj_left.mp same)
  · intro τ
    exact ⟨fun name => τ (f name), (under_withNames f rule τ).symm⟩

namespace Variant
variable {rule other : Rule}

theorem refl (rule : Rule) : rule.Variant rule := ⟨fun σ => ⟨σ, rfl⟩, fun τ => ⟨τ, rfl⟩⟩

theorem symm (variant : rule.Variant other) : other.Variant rule := ⟨variant.right, variant.left⟩

theorem length_params (variant : rule.Variant other) :
    other.params.length = rule.params.length := by
  obtain ⟨τ, same⟩ := variant.left fun _ => ""
  have lengths := congrArg (fun said => said.1.length) same
  simpa only [under, List.length_map] using lengths

theorem relations (variant : rule.Variant other) : other.relations = rule.relations := by
  obtain ⟨τ, same⟩ := variant.left fun _ => ""
  have asked := congrArg (fun said => said.2.map (·.1)) same
  simpa only [under, Rule.relations, List.map_map, Function.comp_def] using asked

/-- An instance of the one, as the parameters and the conditions of the other have it. -/
theorem exists_instance (variant : rule.Variant other) (σ : Valuation) :
    ∃ τ, other.params.map (Term.under τ) = rule.params.map (Term.under σ) ∧
      ∀ condition ∈ other.conditions, ∃ asked ∈ rule.conditions,
        asked.1 = condition.1 ∧ asked.2.map (Term.under σ) = condition.2.map (Term.under τ) := by
  obtain ⟨τ, same⟩ := variant.left σ
  obtain ⟨params, conditions⟩ := Prod.mk.inj same
  refine ⟨τ, params, fun condition inside => ?_⟩
  have said : (condition.1, condition.2.map (Term.under τ)) ∈ (rule.under σ).2 := by
    rw [under, ← conditions]
    exact List.mem_map_of_mem inside
  obtain ⟨asked, among, equal⟩ := List.mem_map.mp said
  obtain ⟨place, texts⟩ := Prod.mk.inj equal
  exact ⟨asked, among, place, texts⟩

end Variant
end Rule

structure Relation.Variant (relation other : Relation) : Prop where
  name : other.name = relation.name
  facts : other.facts = relation.facts
  arity : other.arity = relation.arity
  rules : List.Forall₂ Rule.Variant relation.rules other.rules

namespace Relation.Variant
variable {relation other : Relation}

theorem refl (relation : Relation) : relation.Variant relation :=
  ⟨rfl, rfl, rfl, List.forall₂_same.mpr fun rule _ => .refl rule⟩

theorem symm (variant : relation.Variant other) : other.Variant relation where
  name := variant.name.symm
  facts := variant.facts.symm
  arity := variant.arity.symm
  rules := (variant.rules.imp fun _ _ same => same.symm).flip

theorem dependencies (variant : relation.Variant other) :
    other.dependencies = relation.dependencies := by
  have rules := variant.rules
  rw [Relation.dependencies, Relation.dependencies]
  generalize relation.rules = left, other.rules = right at rules
  induction rules with
  | nil => rfl
  | cons first _ ih => rw [List.flatMap_cons, List.flatMap_cons, first.relations, ih]

theorem takes (variant : relation.Variant other) (count : Nat) (what : Addition) :
    Relates Relation.Variant (relation.takes count what) (other.takes count what) := by
  unfold Relation.takes
  rw [variant.arity, variant.name]
  cases relation.arity with
  | none => exact .ok ⟨rfl, variant.facts, rfl, variant.rules⟩
  | some fixed =>
    by_cases fits : count = fixed
    · simp only [if_pos fits]
      exact .ok variant
    · simp only [if_neg fits]
      exact .error _

theorem addFact (variant : relation.Variant other) (fact : List Term) :
    Relates Relation.Variant (relation.addFact fact) (other.addFact fact) :=
  (variant.takes fact.length .fact).map fun same =>
    ⟨same.name, congrArg (· ++ [fact]) same.facts, same.arity, same.rules⟩

theorem appendRule (variant : relation.Variant other) {rule twin : Rule}
    (alike : rule.Variant twin) :
    Relates Relation.Variant (relation.appendRule rule) (other.appendRule twin) := by
  unfold Relation.appendRule
  rw [alike.length_params]
  exact (variant.takes rule.params.length .rule).map fun same =>
    ⟨same.name, same.facts, same.arity, List.rel_append same.rules (.cons alike .nil)⟩

end Relation.Variant

structure Database.Variant (db other : Database) : Prop where
  length : other.relations.length = db.relations.length
  relation : ∀ r, (db.relation r).Variant (other.relation r)

namespace Database.Variant
variable {db other : Database}

theorem refl (db : Database) : db.Variant db := ⟨rfl, fun r => .refl (db.relation r)⟩

theorem symm (variant : db.Variant other) : other.Variant db :=
  ⟨variant.length.symm, fun r => (variant.relation r).symm⟩

theorem nameOf (variant : db.Variant other) (r : RelationId) : other.nameOf r = db.nameOf r :=
  (variant.relation r).name

theorem literal (variant : db.Variant other) (literal : db.Literal) : other.Literal := by
  intro r fact stored
  rw [(variant.relation r).facts] at stored
  exact literal r fact stored

theorem declare (variant : db.Variant other) (name : String) :
    (db.declare name).2.Variant (other.declare name).2 := by
  constructor
  · rw [length_declare, length_declare, variant.length]
  · intro r
    rw [relation_declare, relation_declare, variant.length]
    split
    · exact .refl _
    · exact variant.relation r

theorem set (variant : db.Variant other) {relation twin : Relation}
    (same : relation.Variant twin) (r : RelationId) : (db.set r relation).Variant (other.set r twin) := by
  constructor
  · rw [length_set, length_set, variant.length]
  · intro s
    by_cases here : s = r
    · subst here
      by_cases declared : s < db.relations.length
      · rwa [relation_set declared, relation_set (variant.length.symm ▸ declared), if_pos rfl,
          if_pos rfl]
      · have outside : db.relations.length ≤ s := Nat.le_of_not_lt declared
        rw [relation_eq_empty (by rwa [length_set]),
          relation_eq_empty (by rwa [length_set, variant.length])]
        exact .refl _
    · rw [relation_set_other here, relation_set_other here]
      exact variant.relation s

theorem withFacts (variant : db.Variant other) (r : RelationId) (facts : List (List Term)) :
    (db.withFacts r facts).Variant (other.withFacts r facts) := by
  obtain ⟨name, _, arity, rules⟩ := variant.relation r
  apply variant.set
  exact ⟨name, rfl, arity, rules⟩

theorem addFact (variant : db.Variant other) (r : RelationId) (fact : List Term) :
    Relates Variant (db.addFact r fact) (other.addFact r fact) :=
  ((variant.relation r).addFact fact).map fun same => variant.set same r

/-- The guard against recursion sees the same. -/
theorem addRule (variant : db.Variant other) (r : RelationId) {rule twin : Rule}
    (alike : rule.Variant twin) : Relates Variant (db.addRule r rule) (other.addRule r twin) := by
  have cycle : other.findCycle r twin = db.findCycle r rule :=
    findCycle_congr variant.length (fun s => (variant.relation s).dependencies) alike.relations r
  unfold Database.addRule
  rw [cycle]
  cases db.findCycle r rule with
  | some path =>
    have names : path.map other.nameOf = path.map db.nameOf :=
      List.map_congr_left fun s _ => variant.nameOf s
    dsimp only
    rw [names]
    exact .error _
  | none => exact ((variant.relation r).appendRule alike).map fun same => variant.set same r

end Database.Variant

/-- What is derivable does not depend on how the variables of the rules are called. -/
theorem Derivable.variant {db other : Database} (variant : db.Variant other) {r : RelationId}
    {values : List String} (derivable : Derivable db r values) : Derivable other r values := by
  induction derivable with
  | fact σ stored => exact .fact σ ((variant.relation _).facts ▸ stored)
  | rule σ stored _ ih =>
    obtain ⟨twin, there, alike⟩ := Forall₂.exists_right (variant.relation _).rules.flip stored
    obtain ⟨τ, params, asks⟩ := alike.exists_instance σ
    rw [← params]
    refine .rule τ there fun condition inside => ?_
    obtain ⟨asked, among, place, texts⟩ := asks condition inside
    rw [← place, ← texts]
    exact ih asked among

end Rulebook
