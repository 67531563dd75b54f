import Rulebook.Proofs.Exclusion.Retraction

/-! Groups of facts. As long as claims do not touch what the conditions of an exclusion hang on,
the exclusion keeps at most one fact for each choice of terms at its flagged positions. -/
namespace Rulebook

/-- What is ruled out hangs on what the conditions ask. -/
theorem rulesOut_congr {db next : Database} {exclusion : Exclusion}
    (same : ∀ c ∈ exclusion.rule.relations, ∀ values,
      Derivable next c values ↔ Derivable db c values) (new fact : List Term) :
    RulesOut next exclusion new fact ↔ RulesOut db exclusion new fact := by
  refine exists_congr fun σ => and_congr_right fun _ => and_congr_right fun _ => ?_
  exact forall₂_congr fun condition inside => same condition.1 (List.mem_map_of_mem inside) _

namespace Machine
variable {m n : Machine} {r : RelationId}

/-- Exclusions only take facts away. -/
theorem excludes_prune (formed : m.WellFormed) {key : String}
    (declared : m.relations.get? key = some r) (terms : List Term) (group : List Exclusion) :
    ∃ n facts, (group.forM (exclude r terms)).run m = (.ok ⟨⟩, n) ∧ n.WellFormed ∧
      facts.Sublist (m.database.relation r).facts ∧ Prunes r facts m n := by
  have inside := (formed.placed key r declared).1
  induction group generalizing m with
  | nil =>
    exact ⟨m, _, rfl, formed, List.Sublist.refl _, (Database.withFacts_same inside).symm, rfl, rfl⟩
  | cons exclusion group ih =>
    obtain ⟨_, _, middle, _, first, after, prunes⟩ :=
      exclude_prunes formed declared terms exclusion
    have still : middle.relations.get? key = some r := by rwa [prunes.relations]
    obtain ⟨n, facts, others, last, sublist, more⟩ := ih after still (after.placed key r still).1
    rw [prunes.database, Database.facts_withFacts inside] at sublist
    refine ⟨n, facts, (run_bind_ok first).trans others, last,
      sublist.trans List.filter_sublist, ?_, more.relations.trans prunes.relations,
      more.exclusions.trans prunes.exclusions⟩
    rw [more.database, prunes.database, Database.withFacts_withFacts inside]

/-- What one exclusion of several rules out is gone after all of them. -/
theorem excludes_remove (formed : m.WellFormed) {key : String}
    (declared : m.relations.get? key = some r) (literal : m.database.Literal) {terms : List Term}
    (new : ∀ term ∈ terms, term.isLiteral) {exclusion : Exclusion} (plain : exclusion.Plain)
    (flags : exclusion.bound.length = exclusion.rule.params.length)
    (lengths : exclusion.rule.params.length = terms.length) {base : Database}
    (stable : ∀ facts fact,
      RulesOut (m.database.withFacts r facts) exclusion terms fact ↔
        RulesOut base exclusion terms fact)
    {group : List Exclusion} (member : exclusion ∈ group)
    (run : (group.forM (exclude r terms)).run m = (.ok ⟨⟩, n)) :
    ∀ fact ∈ (n.database.relation r).facts, ¬RulesOut base exclusion terms fact := by
  have inside := (formed.placed key r declared).1
  induction group generalizing m with
  | nil => cases member
  | cons other group ih =>
    obtain ⟨_, _, middle, _, first, after, prunes⟩ := exclude_prunes formed declared terms other
    have still : middle.relations.get? key = some r := by rwa [prunes.relations]
    have rest := (run_bind_ok first).symm.trans run
    by_cases same : exclusion = other
    · subst same
      obtain ⟨left, exact_run, _, exact⟩ :=
        exclude_retracts formed declared literal new plain flags lengths
      obtain rfl : left = middle := (Prod.mk.inj (exact_run.symm.trans first)).2
      obtain ⟨last, facts, others, _, sublist, more⟩ :=
        excludes_prune after still terms group
      obtain rfl : last = n := (Prod.mk.inj (others.symm.trans rest)).2
      intro fact stored
      rw [more.database, Database.facts_withFacts (after.placed key r still).1] at stored
      have kept := sublist.subset stored
      rw [exact.database, Database.facts_withFacts inside, mem_remaining] at kept
      exact fun ruled => kept.2 ((stable _ fact).mpr ruled)
    · have later : exclusion ∈ group := (List.mem_cons.mp member).resolve_left same
      refine ih after still ?_ ?_ later rest (after.placed key r still).1
      · rw [prunes.database]
        exact literal.withFacts inside fun fact stored =>
          literal r fact (List.mem_of_mem_filter stored)
      · intro facts fact
        rw [prunes.database, Database.withFacts_withFacts inside]
        exact stable facts fact

/-- What claims keep while they stay away from the relations that the exclusion hangs on: those
relations, the exclusion, and at most one fact in each group. -/
structure Guards (base : Machine) (key : String) (r : RelationId) (exclusion : Exclusion)
    (m : Machine) : Prop where
  formed : m.WellFormed
  grown : base.database.relations.length ≤ m.database.relations.length
  literal : m.database.Literal
  declared : m.relations.get? key = some r
  registered : exclusion ∈ (m.exclusions.get? key).getD []
  same : ∀ c ∈ exclusion.rule.relations, ∀ d, Relation.ReflTransGen base.database.Depends c d →
    m.database.relation d = base.database.relation d
  single : (m.database.relation r).facts.Pairwise fun first later =>
    ¬RulesOut base.database exclusion later first

namespace Guards
variable {base : Machine} {key other : String} {s : RelationId} {exclusion : Exclusion}

/-- A relation that the conditions hang on was declared from the start. -/
theorem declared_of_reaches (formed : base.WellFormed) (known : base.Knows exclusion.rule)
    {c d : RelationId} (asked : c ∈ exclusion.rule.relations)
    (reaches : Relation.ReflTransGen base.database.Depends c d) :
    d < base.database.relations.length := by
  induction reaches with
  | refl =>
    obtain ⟨key, found⟩ := known c asked
    exact (formed.placed key c found).1
  | tail _ edge _ => exact formed.acyclic.closed _ _ edge

/-- It has kept its key. -/
theorem keyed_of_reaches (guards : Guards base key r exclusion m) (formed : base.WellFormed)
    (known : base.Knows exclusion.rule) {c d : RelationId} (asked : c ∈ exclusion.rule.relations)
    (reaches : Relation.ReflTransGen base.database.Depends c d)
    (found : m.relations.get? other = some d) : base.relations.get? other = some d := by
  have named := (guards.formed.placed other d found).2
  rw [Database.nameOf, guards.same c asked d reaches] at named
  rw [← named]
  exact formed.keyed d (declared_of_reaches formed known asked reaches)

theorem relationFor (guards : Guards base key r exclusion m) (formed : base.WellFormed)
    (known : base.Knows exclusion.rule) {create : Bool}
    (run : (relationFor other create).run m = (.ok s, n)) : Guards base key r exclusion n := by
  obtain ⟨works, _⟩ := relationFor_ok run
  rcases relationFor_cases run with ⟨_, rfl⟩ | ⟨absent, _, rfl⟩
  · exact guards
  have same (d : RelationId) (old : d < m.database.relations.length) :
      (m.declared other).database.relation d = m.database.relation d := by
    rw [Machine.declared, Database.relation_declare, if_neg (Nat.ne_of_lt old)]
  constructor
  case formed => exact guards.formed.declared absent
  case grown =>
    rw [Machine.declared, Database.length_declare]
    have grown := guards.grown
    omega
  case literal =>
    intro d fact stored
    rw [Machine.declared, Database.relation_declare] at stored
    split at stored
    · cases stored
    · exact guards.literal d fact stored
  case declared => exact works.evolves.kept guards.declared
  case registered => exact guards.registered
  case same =>
    intro c asked d reaches
    have old := Nat.lt_of_lt_of_le (declared_of_reaches formed known asked reaches) guards.grown
    rw [same d old, guards.same c asked d reaches]
  case single =>
    rw [same r (guards.formed.placed key r guards.declared).1]
    exact guards.single

theorem stable (guards : Guards base key r exclusion m)
    (apart : ∀ c ∈ exclusion.rule.relations, ∀ d,
      Relation.ReflTransGen base.database.Depends c d → d ≠ r)
    (facts : List (List Term)) (new fact : List Term) :
    RulesOut (m.database.withFacts r facts) exclusion new fact ↔
      RulesOut base.database exclusion new fact := by
  refine rulesOut_congr
    (fun c asked values => Derivable.iff_of_same (fun d reaches => ?_) values) _ _
  rw [Database.relation_withFacts (guards.formed.placed key r guards.declared).1,
    if_neg (apart c asked d reaches)]
  exact guards.same c asked d reaches

/-- A claim keeps them. -/
theorem claim (guards : Guards base key r exclusion m) (formed : base.WellFormed)
    (known : base.Knows exclusion.rule) (plain : exclusion.Plain) {fact : Phrase}
    (new : ∀ term ∈ fact.args, term.isLiteral)
    (lengths : fact.key = key → fact.args.length = exclusion.rule.params.length)
    (apart : ∀ c ∈ exclusion.rule.relations, ∀ d,
      Relation.ReflTransGen base.database.Depends c d →
        d ≠ r ∧ base.relations.get? fact.key ≠ some d)
    (run : (claim fact).run m = (.ok ⟨⟩, n)) : Guards base key r exclusion n := by
  have whole := guards.formed.evolves (by simpa only [run] using (works_claim fact m).evolves)
  obtain ⟨s, middle, after, db, first, second, added, rfl⟩ := assert_ok run
  replace guards := guards.relationFor formed known first
  obtain ⟨_, here⟩ := relationFor_ok first
  have inside := (guards.formed.placed _ s here).1
  obtain ⟨left, facts, group, _, sublist, prunes⟩ :=
    excludes_prune guards.formed here fact.args ((middle.exclusions.get? fact.key).getD [])
  obtain rfl : left = after := (Prod.mk.inj (group.symm.trans second)).2
  have still : s < left.database.relations.length := by
    rwa [prunes.database, Database.withFacts, Database.length_set]
  obtain ⟨added_facts, _, others⟩ := Database.relation_of_addFact still added
  rw [prunes.database, Database.facts_withFacts inside] at added_facts
  have rest (d : RelationId) (other : d ≠ s) : db.relation d = middle.database.relation d := by
    rw [others d other, prunes.database, Database.relation_withFacts inside, if_neg other]
  constructor
  case formed => exact whole
  case grown =>
    change _ ≤ db.relations.length
    rw [Database.length_of_addFact added, prunes.database, Database.withFacts, Database.length_set]
    exact guards.grown
  case literal =>
    intro d stored_fact stored
    change stored_fact ∈ (db.relation d).facts at stored
    by_cases same : d = s
    · subst same
      rw [added_facts, List.mem_append, List.mem_singleton] at stored
      rcases stored with old | rfl
      · exact guards.literal d stored_fact (sublist.subset old)
      · exact new
    · rw [rest d same] at stored
      exact guards.literal d stored_fact stored
  case declared =>
    rw [asserted, logged, prunes.relations]
    exact guards.declared
  case registered =>
    rw [asserted, logged, prunes.exclusions]
    exact guards.registered
  case same =>
    intro c asked d reaches
    have away : d ≠ s := by
      rintro rfl
      exact (apart c asked d reaches).2 (guards.keyed_of_reaches formed known asked reaches here)
    change db.relation d = _
    rw [rest d away]
    exact guards.same c asked d reaches
  case single =>
    change (db.relation r).facts.Pairwise _
    by_cases same : r = s
    · subst same
      have named : fact.key = key :=
        (guards.formed.placed _ r here).2.symm.trans (guards.formed.placed key r guards.declared).2
      have gone := excludes_remove guards.formed here guards.literal new plain
        (guards.formed.admits guards.registered).2.flags (lengths named).symm
        (fun facts => guards.stable (fun c asked d reaches => (apart c asked d reaches).1) facts _)
        (named ▸ guards.registered) second
      rw [prunes.database, Database.facts_withFacts inside] at gone
      rw [added_facts]
      refine List.pairwise_append.mpr
        ⟨guards.single.sublist sublist, List.pairwise_singleton _ _,
          fun first kept later last => ?_⟩
      rw [List.mem_singleton.mp last]
      exact gone first kept
    · rw [rest r same]
      exact guards.single

theorem claims (guards : Guards base key r exclusion m) (formed : base.WellFormed)
    (known : base.Knows exclusion.rule) (plain : exclusion.Plain) {facts : List Phrase}
    (new : ∀ fact ∈ facts, ∀ term ∈ fact.args, term.isLiteral)
    (lengths : ∀ fact ∈ facts, fact.key = key → fact.args.length = exclusion.rule.params.length)
    (apart : ∀ fact ∈ facts, ∀ c ∈ exclusion.rule.relations, ∀ d,
      Relation.ReflTransGen base.database.Depends c d →
        d ≠ r ∧ base.relations.get? fact.key ≠ some d)
    (run : (facts.forM Machine.claim).run m = (.ok ⟨⟩, n)) : Guards base key r exclusion n := by
  induction facts generalizing m with
  | nil =>
    cases run
    exact guards
  | cons fact facts ih =>
    obtain ⟨_, middle, first, others⟩ := bind_ok run
    obtain ⟨new_first, new⟩ := List.forall_mem_cons.mp new
    obtain ⟨lengths_first, lengths⟩ := List.forall_mem_cons.mp lengths
    obtain ⟨apart_first, apart⟩ := List.forall_mem_cons.mp apart
    have next := guards.claim formed known plain new_first lengths_first apart_first first
    exact ih next new lengths apart others

end Guards

/-- However claims succeed that stay away from what the conditions of an exclusion hang on, of
two facts in one group the earlier one does not fit the exclusion. -/
theorem Reachable.one_fact_per_group {m n : Machine} (reachable : m.Reachable)
    (literal : m.database.Literal) {key : String} {r : RelationId} {exclusion : Exclusion}
    (declared : m.relations.get? key = some r)
    (registered : exclusion ∈ (m.exclusions.get? key).getD [])
    (empty : (m.database.relation r).facts = []) (plain : exclusion.Plain) {facts : List Phrase}
    (new : ∀ fact ∈ facts, ∀ term ∈ fact.args, term.isLiteral)
    (lengths : ∀ fact ∈ facts, fact.key = key → fact.args.length = exclusion.rule.params.length)
    (apart : ∀ c ∈ exclusion.rule.relations, ∀ d,
      Relation.ReflTransGen m.database.Depends c d →
        d ≠ r ∧ ∀ fact ∈ facts, m.relations.get? fact.key ≠ some d)
    (run : (facts.forM claim).run m = (.ok ⟨⟩, n)) :
    (n.database.relation r).facts.Pairwise fun first later =>
      ¬RulesOut n.database exclusion later first := by
  have formed := reachable.wellFormed
  have known := (formed.admits registered).2.known
  have start : Guards m key r exclusion m := {
    formed, literal, declared, registered
    grown := Nat.le_refl _
    same := fun _ _ _ _ => rfl
    single := by rw [empty]; exact .nil }
  have last := start.claims formed known plain new lengths
    (fun fact inside c asked d reaches =>
      ⟨(apart c asked d reaches).1, (apart c asked d reaches).2 fact inside⟩) run
  have same (new fact : List Term) :
      RulesOut n.database exclusion new fact ↔ RulesOut m.database exclusion new fact :=
    rulesOut_congr (fun c asked values =>
      Derivable.iff_of_same (fun d reaches => last.same c asked d reaches) values) new fact
  exact last.single.imp fun other => mt (same _ _).mp other

def unseatedText : String := "+may \"a\"\n::may (x)\n ?at (x) (y)"

def unseated : Machine := ((load unseatedText).run {}).2

def seats : List Phrase :=
  [⟨"at %s %s", [.lit "a", .lit "1"]⟩, ⟨"at %s %s", [.lit "b", .lit "1"]⟩,
    ⟨"at %s %s", [.lit "a", .lit "2"]⟩]

def seated : Machine := ((seats.forM claim).run unseated).2

/-- Whoever sat down twice has the later seat only. -/
theorem one_fact_per_group_seated :
    (seated.database.relation 1).facts = [[.lit "b", .lit "1"], [.lit "a", .lit "2"]] ∧
      ∃ exclusion ∈ (unseated.exclusions.get? "at %s %s").getD [],
        (seated.database.relation 1).facts.Pairwise fun first later =>
          ¬RulesOut seated.database exclusion later first := by
  have reachable : unseated.Reachable := ⟨false, false, 0, .load unseatedText {}⟩
  have literal : unseated.database.Literal := by decide +kernel
  have declared : unseated.relations.get? "at %s %s" = some 1 := by decide +kernel
  have empty : (unseated.database.relation 1).facts = [] := by decide +kernel
  have left : (seated.database.relation 1).facts =
      [[.lit "b", .lit "1"], [.lit "a", .lit "2"]] := by decide +kernel
  have some_registered : (unseated.exclusions.get? "at %s %s").getD [] ≠ [] := by decide +kernel
  have plain : ∀ exclusion ∈ (unseated.exclusions.get? "at %s %s").getD [],
      exclusion.Plain ∧ exclusion.rule.params.length = 2 ∧
        ∀ c ∈ exclusion.rule.relations, c = 0 := by decide +kernel
  obtain ⟨exclusion, registered⟩ := List.exists_mem_of_ne_nil _ some_registered
  obtain ⟨plain, size, asks⟩ := plain exclusion registered
  have ends : (unseated.database.relation 0).dependencies = [] := by decide +kernel
  have apart (c : RelationId) (asked : c ∈ exclusion.rule.relations) (d : RelationId)
      (reaches : Relation.ReflTransGen unseated.database.Depends c d) :
      d ≠ 1 ∧ ∀ fact ∈ seats, unseated.relations.get? fact.key ≠ some d := by
    obtain rfl := asks c asked
    rcases reaches.cases_head with rfl | ⟨next, edge, _⟩
    · exact ⟨by decide, by decide +kernel⟩
    · rw [Database.Depends, ends] at edge
      cases edge
  have run : (seats.forM claim).run unseated = (.ok ⟨⟩, seated) := run_of_ok (by decide +kernel)
  have sizes : ∀ fact ∈ seats, fact.args.length = 2 := by decide
  exact ⟨left, exclusion, registered, reachable.one_fact_per_group literal declared registered empty
    plain (by decide) (fun fact inside _ => (sizes fact inside).trans size.symm) apart run⟩

end Machine
end Rulebook
