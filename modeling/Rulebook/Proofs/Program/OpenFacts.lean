import Rulebook.Proofs.Program.Standing

/-! A tuple with variables, stored as a fact or as a rule without conditions. The uses of a fact in
a derivation share its variables, while each use of a rule has variables of its own. The rule stands
for any number of ground instances of the tuple, the fact for one at a time: what the fact lets a
query find the rule does too, and they differ only where a derivation has to use the tuple twice, or
where its variables occur elsewhere. -/
namespace Rulebook

namespace DerivableUnder
variable {db next : Database} {σ τ : Valuation} {r : RelationId} {values : List String}

/-- What is derivable stays so where all facts and rules are made up for. -/
theorem carry (facts : ∀ r, ∀ fact ∈ (db.relation r).facts,
      DerivableUnder next τ r (fact.map (Term.under σ)))
    (rules : ∀ r, ∀ rule ∈ (db.relation r).rules, ∀ ρ : Valuation,
      (∀ condition ∈ rule.conditions,
        DerivableUnder next τ condition.1 (condition.2.map (Term.under ρ))) →
      DerivableUnder next τ r (rule.params.map (Term.under ρ)))
    (derivable : DerivableUnder db σ r values) : DerivableUnder next τ r values := by
  induction derivable with
  | fact stored => exact facts _ _ stored
  | rule ρ stored _ ih => exact rules _ _ stored ρ ih

/-- More rules, and facts that are made up for, derive more. -/
theorem carry_facts (facts : ∀ r, ∀ fact ∈ (db.relation r).facts,
      DerivableUnder next τ r (fact.map (Term.under σ)))
    (rules : ∀ r, (db.relation r).rules ⊆ (next.relation r).rules)
    (derivable : DerivableUnder db σ r values) : DerivableUnder next τ r values :=
  derivable.carry facts fun r _ stored ρ conditions => .rule ρ (rules r stored) conditions

end DerivableUnder

def Term.ground (ρ : Valuation) (term : Term) : Term := .lit (term.under ρ)

theorem map_under_ground (σ ρ : Valuation) (terms : List Term) :
    (terms.map (Term.ground ρ)).map (Term.under σ) = terms.map (Term.under ρ) := by
  rw [List.map_map]
  exact List.map_congr_left fun _ _ => rfl

/-- Reads the variables of the terms by another valuation. -/
def Valuation.reread (σ : Valuation) (terms : List Term) (ρ : Valuation) : Valuation :=
  fun name => if .var name ∈ terms then ρ name else σ name

theorem map_under_reread_self (σ : Valuation) (terms : List Term) (ρ : Valuation) :
    terms.map (Term.under (σ.reread terms ρ)) = terms.map (Term.under ρ) := by
  refine List.map_congr_left fun term inside => ?_
  cases term with
  | var name => exact if_pos inside
  | lit value => rfl

theorem map_under_reread {terms others : List Term}
    (apart : ∀ name, .var name ∈ terms → .var name ∉ others) (σ ρ : Valuation) :
    others.map (Term.under (σ.reread terms ρ)) = others.map (Term.under σ) := by
  refine List.map_congr_left fun term inside => ?_
  cases term with
  | var name => exact if_neg fun shared => apart name shared inside
  | lit value => rfl

namespace Database
variable {db withFact withRule : Database} {r c : RelationId} {t : List Term} {σ τ : Valuation}
  {values : List String}

def withInstances (db : Database) (r : RelationId) (t : List Term) (ρs : List Valuation) :
    Database :=
  db.withFacts r ((db.relation r).facts ++ ρs.map fun ρ => t.map (Term.ground ρ))

/-- The tuple as a rule that always holds. -/
def openRule (t : List Term) : Rule := { params := t, source := some Machine.source }

theorem mem_withInstances (declared : r < db.relations.length) {ρs : List Valuation}
    {s : RelationId} {fact : List Term} : fact ∈ ((db.withInstances r t ρs).relation s).facts ↔
      fact ∈ (db.relation s).facts ∨ s = r ∧ ∃ ρ ∈ ρs, t.map (Term.ground ρ) = fact := by
  rw [withInstances, relation_withFacts declared]
  by_cases here : s = r <;> simp [here]

theorem mem_instance (declared : r < db.relations.length) {ρs : List Valuation} {ρ : Valuation}
    (given : ρ ∈ ρs) : t.map (Term.ground ρ) ∈ ((db.withInstances r t ρs).relation r).facts :=
  (mem_withInstances declared).mpr (.inr ⟨rfl, ρ, given, rfl⟩)

theorem rules_withInstances (ρs : List Valuation) (s : RelationId) :
    ((db.withInstances r t ρs).relation s).rules = (db.relation s).rules :=
  rules_withFacts _ s

/-- The tuple's relation is asked at most once wherever the other one is: no rule that may be used
has two conditions that lead to it. -/
def AsksOnce (db : Database) (r c : RelationId) : Prop :=
  ∀ d, Relation.ReflTransGen db.Depends c d → ∀ rule ∈ (db.relation d).rules,
    rule.conditions.Pairwise fun first second =>
      ¬(Relation.ReflTransGen db.Depends first.1 r ∧ Relation.ReflTransGen db.Depends second.1 r)

/-- Where at most one of them is particular about a choice, one choice suits all. -/
theorem exists_common_choice {α β : Type} {asks : α → Prop} {suits : α → β → Prop} [Nonempty β]
    {items : List α} (once : items.Pairwise fun first second => ¬(asks first ∧ asks second))
    (free : ∀ item ∈ items, ¬asks item → ∀ choice, suits item choice)
    (each : ∀ item ∈ items, ∃ choice, suits item choice) :
    ∃ choice, ∀ item ∈ items, suits item choice := by
  induction items with
  | nil => exact ⟨Classical.arbitrary β, fun _ none => nomatch none⟩
  | cons first others ih =>
    obtain ⟨apart, once⟩ := List.pairwise_cons.mp once
    obtain ⟨⟨choice, here⟩, each⟩ := List.forall_mem_cons.mp each
    obtain ⟨freely, free⟩ := List.forall_mem_cons.mp free
    by_cases asked : asks first
    · exact ⟨choice, List.forall_mem_cons.mpr ⟨here, fun item inside =>
        free item inside (fun too => apart item inside ⟨asked, too⟩) choice⟩⟩
    · obtain ⟨choice, there⟩ := ih once free each
      exact ⟨choice, List.forall_mem_cons.mpr ⟨freely asked choice, there⟩⟩

section Deriving
variable (declared : r < db.relations.length)
include declared

theorem derivable_rule_of_instances (ruled : db.addRule r (openRule t) = .ok withRule)
    {ρs : List Valuation} (derivable : DerivableUnder (db.withInstances r t ρs) σ c values) :
    DerivableUnder withRule σ c values := by
  refine derivable.carry_facts (fun s fact stored => ?_) fun s rule stored => ?_
  · rcases (mem_withInstances declared).mp stored with old | ⟨rfl, ρ, _, rfl⟩
    · exact .fact (by rwa [facts_addRule declared ruled])
    · rw [map_under_ground]
      exact .rule ρ ((mem_addRule declared ruled).mpr (.inr ⟨rfl, rfl⟩)) fun _ none => nomatch none
  · exact (mem_addRule declared ruled).mpr (.inl (by rwa [rules_withInstances] at stored))

/-- A valuation reads a fact as one instance of it. -/
theorem derivable_instance_of_fact (added : db.addFact r t = .ok withFact)
    (derivable : DerivableUnder withFact σ c values) :
    DerivableUnder (db.withInstances r t [σ]) σ c values := by
  refine derivable.carry_facts (fun s fact stored => ?_) fun s => ?_
  · rcases (mem_addFact declared added).mp stored with old | ⟨rfl, rfl⟩
    · exact .fact ((mem_withInstances declared).mpr (.inl old))
    · rw [← map_under_ground σ σ]
      exact .fact (mem_instance declared (List.mem_singleton_self σ))
  · rw [rules_addFact added, rules_withInstances]
    exact List.Subset.refl _

/-- One instance is read off the fact where nothing else has its variables. -/
theorem derivable_fact_of_instance (added : db.addFact r t = .ok withFact)
    (apart : ∀ name, .var name ∈ t → ∀ s, ∀ fact ∈ (db.relation s).facts, .var name ∉ fact)
    {ρ : Valuation} (derivable : DerivableUnder (db.withInstances r t [ρ]) σ c values) :
    DerivableUnder withFact (σ.reread t ρ) c values := by
  refine derivable.carry_facts (fun s fact stored => ?_) fun s => ?_
  · rcases (mem_withInstances declared).mp stored with old | ⟨rfl, other, one, rfl⟩
    · rw [← map_under_reread (fun name inside => apart name inside s fact old) σ ρ]
      exact .fact ((mem_addFact declared added).mpr (.inl old))
    · cases List.mem_singleton.mp one
      rw [map_under_ground, ← map_under_reread_self σ]
      exact .fact ((mem_addFact declared added).mpr (.inr ⟨rfl, rfl⟩))
  · rw [rules_addFact added, rules_withInstances]
    exact List.Subset.refl _

/-- Without variables a rule is as good as a fact. -/
theorem derivable_fact_of_rule (literal : ∀ term ∈ t, term.isLiteral)
    (added : db.addFact r t = .ok withFact) (ruled : db.addRule r (openRule t) = .ok withRule)
    (derivable : DerivableUnder withRule σ c values) : DerivableUnder withFact σ c values := by
  refine derivable.carry (fun s fact stored => ?_) fun s rule stored ρ conditions => ?_
  · rw [facts_addRule declared ruled] at stored
    exact .fact ((mem_addFact declared added).mpr (.inl stored))
  · rcases (mem_addRule declared ruled).mp stored with old | ⟨rfl, rfl⟩
    · exact .rule ρ (by rwa [rules_addFact added]) conditions
    · rw [openRule, map_under_literal literal ρ σ]
      exact .fact ((mem_addFact declared added).mpr (.inr ⟨rfl, rfl⟩))

theorem derivable_more_instances {ρs more : List Valuation} (within : ρs ⊆ more)
    (derivable : DerivableUnder (db.withInstances r t ρs) σ c values) :
    DerivableUnder (db.withInstances r t more) σ c values := by
  refine derivable.carry_facts (fun s fact stored => ?_) fun s => ?_
  · refine .fact ((mem_withInstances declared).mpr ?_)
    refine ((mem_withInstances declared).mp stored).imp_right fun ⟨here, ρ, given, same⟩ => ?_
    exact ⟨here, ρ, within given, same⟩
  · rw [rules_withInstances, rules_withInstances]
    exact List.Subset.refl _

/-- Instances for each condition make instances for all. -/
theorem exists_common_instances {conditions : List (RelationId × List String)}
    (each : ∀ condition ∈ conditions, ∃ ρs,
      DerivableUnder (db.withInstances r t ρs) σ condition.1 condition.2) :
    ∃ ρs, ∀ condition ∈ conditions,
      DerivableUnder (db.withInstances r t ρs) σ condition.1 condition.2 := by
  induction conditions with
  | nil => exact ⟨[], fun _ none => nomatch none⟩
  | cons first others ih =>
    obtain ⟨⟨ρs, here⟩, rest⟩ := List.forall_mem_cons.mp each
    obtain ⟨more, there⟩ := ih rest
    refine ⟨ρs ++ more, List.forall_mem_cons.mpr ⟨?_, fun condition inside => ?_⟩⟩
    · exact derivable_more_instances declared (List.subset_append_left ρs more) here
    · exact derivable_more_instances declared (List.subset_append_right ρs more)
        (there condition inside)

/-- A derivation uses the rule finitely often, so that finitely many instances do. -/
theorem exists_instances_of_rule (ruled : db.addRule r (openRule t) = .ok withRule)
    (derivable : DerivableUnder withRule σ c values) :
    ∃ ρs, DerivableUnder (db.withInstances r t ρs) σ c values := by
  induction derivable with
  | fact stored =>
    rw [facts_addRule declared ruled] at stored
    exact ⟨[], .fact ((mem_withInstances declared).mpr (.inl stored))⟩
  | @rule c rule ρ stored _ ih =>
    rcases (mem_addRule declared ruled).mp stored with old | ⟨rfl, rfl⟩
    · have each : ∀ condition ∈ conditionsUnder ρ rule.conditions, ∃ ρs,
          DerivableUnder (db.withInstances r t ρs) σ condition.1 condition.2 := by
        intro condition inside
        obtain ⟨written, member, rfl⟩ := List.mem_map.mp inside
        exact ih written member
      obtain ⟨ρs, all⟩ := exists_common_instances declared each
      exact ⟨ρs, .rule ρ (by rwa [rules_withInstances]) fun condition inside =>
        all _ (List.mem_map_of_mem inside)⟩
    · refine ⟨[ρ], ?_⟩
      rw [openRule, ← map_under_ground σ ρ]
      exact .fact (mem_instance declared (List.mem_singleton_self ρ))

/-- A relation that does not lead to the tuple's is not affected by it. -/
theorem derivable_instances_apart (ruled : db.addRule r (openRule t) = .ok withRule)
    (apart : ¬Relation.ReflTransGen db.Depends c r) (ρs : List Valuation)
    (derivable : DerivableUnder withRule σ c values) :
    DerivableUnder (db.withInstances r t ρs) σ c values := by
  induction derivable with
  | fact stored =>
    rw [facts_addRule declared ruled] at stored
    exact .fact ((mem_withInstances declared).mpr (.inl stored))
  | @rule c rule ρ stored _ ih =>
    rcases (mem_addRule declared ruled).mp stored with old | ⟨rfl, _⟩
    · refine .rule ρ (by rwa [rules_withInstances]) fun condition inside => ?_
      exact ih condition inside fun path => apart (.head (Derivable.depends old inside) path)
    · exact absurd .refl apart

/-- A derivation that asks the tuple's relation at most once needs one instance at most. -/
theorem exists_instance_of_rule (ruled : db.addRule r (openRule t) = .ok withRule)
    (once : db.AsksOnce r c) (derivable : DerivableUnder withRule σ c values) :
    ∃ ρ, DerivableUnder (db.withInstances r t [ρ]) σ c values := by
  induction derivable with
  | fact stored =>
    rw [facts_addRule declared ruled] at stored
    exact ⟨σ, .fact ((mem_withInstances declared).mpr (.inl stored))⟩
  | @rule c rule ρ stored below ih =>
    rcases (mem_addRule declared ruled).mp stored with old | ⟨rfl, rfl⟩
    · -- The instance that suits the one condition that may need any suits the others too.
      have : Nonempty Valuation := ⟨σ⟩
      obtain ⟨υ, all⟩ := exists_common_choice (once c .refl rule old)
        (fun condition inside apart υ =>
          derivable_instances_apart declared ruled apart [υ] (below condition inside))
        (fun condition inside => ih condition inside fun d path =>
          once d (.head (Derivable.depends old inside) path))
      exact ⟨υ, .rule ρ (by rwa [rules_withInstances]) all⟩
    · refine ⟨ρ, ?_⟩
      rw [openRule, ← map_under_ground σ ρ]
      exact .fact (mem_instance declared (List.mem_singleton_self ρ))

end Deriving

/-- A rule that asks nothing makes no cycle. -/
theorem exists_addRule (fits : ∀ fixed, (db.relation r).arity = some fixed → t.length = fixed) :
    ∃ withRule, db.addRule r (openRule t) = .ok withRule := by
  cases outcome : db.addRule r (openRule t) with
  | ok withRule => exact ⟨withRule, rfl⟩
  | error fault =>
    obtain ⟨_, cycle, _⟩ := addRule_refused fits outcome
    cases cycle

section Ready
variable {next : Database}

/-- Facts come without a risk for searches if their variables are named well. -/
theorem Ready.more_facts (ready : db.Ready)
    (lengths : next.relations.length = db.relations.length)
    (rules : ∀ s, (next.relation s).rules = (db.relation s).rules)
    (facts : ∀ s, ∀ fact ∈ (next.relation s).facts, fact ∈ (db.relation s).facts ∨
      ∀ term ∈ fact, term.Named Naming.Plain) : next.Ready where
  acyclic := ready.acyclic.congr (Nat.le_of_eq lengths.symm) rules
  salted s rule stored := ready.salted s rule (rules s ▸ stored)
  plain s fact stored := (facts s fact stored).elim (ready.plain s fact) id

variable (ready : db.Ready) (declared : r < db.relations.length)
include ready declared

theorem Ready.addFact (named : ∀ term ∈ t, term.Named Naming.Plain)
    (added : db.addFact r t = .ok withFact) : withFact.Ready := by
  refine ready.more_facts (length_of_addFact added) (rules_addFact added) fun s fact stored => ?_
  refine ((mem_addFact declared added).mp stored).imp_right ?_
  rintro ⟨_, rfl⟩
  exact named

theorem Ready.withInstances (ρs : List Valuation) : (db.withInstances r t ρs).Ready := by
  refine ready.more_facts (length_set r _) (rules_withInstances ρs) fun s fact stored => ?_
  refine ((mem_withInstances declared).mp stored).imp_right ?_
  rintro ⟨_, ρ, _, rfl⟩ term inside
  obtain ⟨_, _, rfl⟩ := List.mem_map.mp inside
  trivial

theorem Ready.addRule (ruled : db.addRule r (openRule t) = .ok withRule) : withRule.Ready where
  acyclic := ready.acyclic.addRule (fun _ none => (List.not_mem_nil none).elim) ruled
  salted s rule stored := by
    rcases (mem_addRule declared ruled).mp stored with old | ⟨_, rfl⟩
    · exact ready.salted s rule old
    · rfl
  plain s fact stored := ready.plain s fact (facts_addRule declared ruled s ▸ stored)

end Ready

/-- No variable of the tuple occurs in the arguments or in a stored fact. -/
def Unshared (db : Database) (t args : List Term) : Prop :=
  ∀ name, .var name ∈ t → .var name ∉ args ∧
    ∀ s, ∀ fact ∈ (db.relation s).facts, .var name ∉ fact

/-- How the answers to a query compare when a tuple is stored as a fact and as a rule. -/
structure Compares (db withFact withRule : Database) (r : RelationId) (t : List Term)
    (id : Int) (c : RelationId) (args : List Term) (values : List String) : Prop where
  /-- The rule stands for as many instances of the tuple as wanted. -/
  rule : withRule.Answered id c args values ↔
    ∃ ρs, (db.withInstances r t ρs).Answered id c args values
  /-- The fact stands for one instance at a time, -/
  fact : withFact.Answered id c args values →
    ∃ ρ, (db.withInstances r t [ρ]).Answered id c args values
  /-- and for any one if nothing else has its variables. -/
  unshared : db.Unshared t args → (∃ ρ, (db.withInstances r t [ρ]).Answered id c args values) →
    withFact.Answered id c args values
  once : db.Unshared t args → db.AsksOnce r c →
    (withFact.Answered id c args values ↔ withRule.Answered id c args values)
  literal : (∀ term ∈ t, term.isLiteral) →
    (withFact.Answered id c args values ↔ withRule.Answered id c args values)

theorem Ready.compares (ready : db.Ready) (declared : r < db.relations.length)
    (named : ∀ term ∈ t, term.Named Naming.Plain) (added : db.addFact r t = .ok withFact)
    (ruled : db.addRule r (openRule t) = .ok withRule) {args : List Term}
    (plain : ∀ term ∈ args, term.Named Naming.Plain) (id : Int) (c : RelationId)
    (values : List String) : Compares db withFact withRule r t id c args values := by
  have inFact := (ready.addFact declared named added).answered_iff (r := c) plain id values
  have inRule := (ready.addRule declared ruled).answered_iff (r := c) plain id values
  have inInstances (ρs : List Valuation) :=
    (ready.withInstances (t := t) declared ρs).answered_iff (r := c) plain id values
  have rule : withRule.Answered id c args values ↔
      ∃ ρs, (db.withInstances r t ρs).Answered id c args values := by
    simp only [inRule, inInstances]
    constructor
    · rintro ⟨σ, same, derivable⟩
      obtain ⟨ρs, derivable⟩ := exists_instances_of_rule declared ruled derivable
      exact ⟨ρs, σ, same, derivable⟩
    · rintro ⟨ρs, σ, same, derivable⟩
      exact ⟨σ, same, derivable_rule_of_instances declared ruled derivable⟩
  have fact : withFact.Answered id c args values →
      ∃ ρ, (db.withInstances r t [ρ]).Answered id c args values := by
    simp only [inFact, inInstances]
    rintro ⟨σ, same, derivable⟩
    exact ⟨σ, σ, same, derivable_instance_of_fact declared added derivable⟩
  have unshared (apart : db.Unshared t args) :
      (∃ ρ, (db.withInstances r t [ρ]).Answered id c args values) →
        withFact.Answered id c args values := by
    simp only [inFact, inInstances]
    rintro ⟨ρ, σ, rfl, derivable⟩
    exact ⟨σ.reread t ρ, map_under_reread (fun name inside => (apart name inside).1) σ ρ,
      derivable_fact_of_instance declared added (fun name inside => (apart name inside).2)
        derivable⟩
  have onward (answered : withFact.Answered id c args values) :
      withRule.Answered id c args values := by
    obtain ⟨ρ, answered⟩ := fact answered
    exact rule.mpr ⟨[ρ], answered⟩
  refine ⟨rule, fact, unshared, fun apart once => ⟨onward, ?_⟩, fun literal => ⟨onward, ?_⟩⟩
  · intro answered
    obtain ⟨σ, same, derivable⟩ := inRule.mp answered
    obtain ⟨ρ, derivable⟩ := exists_instance_of_rule declared ruled once derivable
    exact unshared apart ⟨ρ, (inInstances [ρ]).mpr ⟨σ, same, derivable⟩⟩
  · rw [inFact, inRule]
    rintro ⟨σ, same, derivable⟩
    exact ⟨σ, same, derivable_fact_of_rule declared literal added ruled derivable⟩

end Database

namespace Machine
variable {m : Machine}

/-- In the machine with another database, questions without variables are answered by whether their
own tuple is one of those that the answers stand for. -/
def AsksBy (m : Machine) (db : Database) : Prop :=
  ∀ question c, m.relations.get? question.key = some c →
    (∀ term ∈ question.args, term.isLiteral) →
      (((isTrue question).run { m with database := db }).1 = .ok true ↔
        db.Answered m.nextId c question.args (question.args.map Term.key))

theorem asksBy_of_layered {db : Database} (layered : db.isLayered) : m.AsksBy db :=
  fun _ _ declared closed =>
    isTrue_iff_answered (m := { m with database := db }) layered closed declared

/-- A tuple can be stored as a fact as well as a rule, and the answers to all queries compare. -/
theorem Reachable.fact_and_rule (reachable : m.Reachable) (plain : m.database.Plain) {key : String}
    {r : RelationId} (declared : m.relations.get? key = some r) {t : List Term}
    (fits : ∀ fixed, (m.database.relation r).arity = some fixed → t.length = fixed)
    (named : ∀ term ∈ t, term.Named Naming.Plain) :
    ∃ withFact withRule, m.database.addFact r t = .ok withFact ∧
      m.database.addRule r { params := t, source := some source } = .ok withRule ∧
      m.AsksBy withFact ∧ m.AsksBy withRule ∧
      ∀ (c : RelationId) (args : List Term), (∀ term ∈ args, term.Named Naming.Plain) →
        ∀ id values, Database.Compares m.database withFact withRule r t id c args values := by
  have formed := reachable.wellFormed
  have ready : m.database.Ready := ⟨formed.acyclic, formed.salted, plain⟩
  have inside := (formed.placed key r declared).1
  obtain ⟨withFact, added⟩ := Database.addFact_fits fits
  obtain ⟨withRule, ruled⟩ := Database.exists_addRule fits
  have first := (ready.addFact inside named added).acyclic.layered
  have second := (ready.addRule inside ruled).acyclic.layered
  exact ⟨withFact, withRule, added, ruled, asksBy_of_layered first, asksBy_of_layered second,
    fun c args plain id values => ready.compares inside named added ruled plain id c values⟩

def pairsText : String := ":: p (a)\n    :: p (b)\n        + q (a) (b)"

def pairs : Machine := ((load pairsText).run {}).2

theorem pairs_reachable : pairs.Reachable := ⟨false, false, 0, .load pairsText {}⟩

theorem fact_and_rule_pairs :
    ∃ withFact withRule, pairs.database.addFact 1 [.var "x"] = .ok withFact ∧
      pairs.database.addRule 1 { params := [.var "x"], source := some source } = .ok withRule ∧
      pairs.AsksBy withFact ∧ pairs.AsksBy withRule ∧
      ∀ (c : RelationId) (args : List Term), (∀ term ∈ args, term.Named Naming.Plain) →
        ∀ id values,
          Database.Compares pairs.database withFact withRule 1 [.var "x"] id c args values := by
  have literal : pairs.database.Literal := by decide +kernel
  have declared : pairs.relations.get? "p %s" = some 1 := by decide +kernel
  have arity : (pairs.database.relation 1).arity = none := by decide +kernel
  have fits : ∀ fixed, (pairs.database.relation 1).arity = some fixed →
      [Term.var "x"].length = fixed := by
    intro fixed same
    cases arity.symm.trans same
  have named : ∀ term ∈ [Term.var "x"], term.Named Naming.Plain := by
    intro term inside
    cases List.mem_singleton.mp inside
    exact Naming.plain_of_slashless (by decide)
  exact pairs_reachable.fact_and_rule literal.plain declared fits named

def holdsAfter (m : Machine) (changed : Except Fault Database) (question : Phrase) :
    Except Fault (Except Fault Bool) :=
  changed.map fun db => ((isTrue question).run { m with database := db }).1

/-- With two different texts the rule is used twice, and the fact cannot be. Neither can a fact be
used whose variable is one of the question. -/
theorem fact_and_rule_differ :
    pairs.Reachable ∧ pairs.exclusions.entries = [] ∧
      (let question : Phrase := ⟨"q %s %s", [.lit "1", .lit "2"]⟩
      let rule : Rule := { params := [.var "x"], source := some source }
      pairs.holdsAfter (pairs.database.addFact 1 rule.params) question = .ok (.ok false) ∧
        pairs.holdsAfter (pairs.database.addRule 1 rule) question = .ok (.ok true)) ∧
      (let question : Phrase := ⟨"q %s %s", [.lit "2", .var "x"]⟩
      let rule : Rule := { params := [.var "x", .lit "1"], source := some source }
      pairs.holdsAfter (pairs.database.addFact 0 rule.params) question = .ok (.ok false) ∧
        pairs.holdsAfter (pairs.database.addRule 0 rule) question = .ok (.ok true)) :=
  ⟨pairs_reachable, by decide +kernel⟩

end Machine
end Rulebook
