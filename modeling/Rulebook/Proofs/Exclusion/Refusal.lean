import Rulebook.Proofs.Exclusion.Group

/-! Claims that fail. A strict machine refuses a key that is not declared before anything changes. A
claim with a wrong number of arguments is refused only after the exclusions of its key have been
searched, with as many of its terms as an exclusion has flags; so an exclusion for the number of
arguments that the relation does take may retract facts for a claim that is then not made. -/
namespace Rulebook.Machine
variable {m n k : Machine} {r : RelationId} {key : String}

/-- These facts have gone from one relation, with an entry in the history for each, and neither the
other relations nor the exclusions have changed. -/
structure Withdraws (r : RelationId) (gone : List (List Term)) (m n : Machine) : Prop where
  prunes : Prunes r ((m.database.relation r).facts.filter (· ∉ gone)) m n
  history : n.history =
    m.history ++ gone.map fun fact => .retracted (m.database.nameOf r) (fact.map Term.key)

namespace Withdraws
variable {gone more : List (List Term)}

theorem refl (declared : r < m.database.relations.length) : Withdraws r [] m m := by
  refine ⟨prunes_retracts declared [], ?_⟩
  rw [List.map_nil, List.append_nil]

/-- Of the relation, only the facts have changed. -/
theorem relation (withdraws : Withdraws r gone m n) (declared : r < m.database.relations.length) :
    n.database.relation r =
      { m.database.relation r with facts := (m.database.relation r).facts.filter (· ∉ gone) } := by
  rw [withdraws.prunes.database, Database.relation_withFacts declared, if_pos rfl]

theorem trans (first : Withdraws r gone m n) (second : Withdraws r more n k)
    (declared : r < m.database.relations.length) : Withdraws r (gone ++ more) m k := by
  have middle := first.relation declared
  refine ⟨⟨?_, ?_, ?_⟩, ?_⟩
  · rw [second.prunes.database, middle, first.prunes.database,
      Database.withFacts_withFacts declared, List.filter_filter]
    refine congrArg _ (List.filter_congr fun fact _ => ?_)
    simp [List.mem_append, Bool.and_comm]
  · exact second.prunes.relations.trans first.prunes.relations
  · exact second.prunes.exclusions.trans first.prunes.exclusions
  · have name : n.database.nameOf r = m.database.nameOf r := by
      rw [Database.nameOf, middle]
      rfl
    rw [second.history, first.history, name, List.map_append, List.append_assoc]

end Withdraws

/-- Facts that are taken back one after the other have gone. -/
theorem withdraws_retracts (declared : r < m.database.relations.length) (gone : List (List Term)) :
    Withdraws r gone m (gone.foldl (fun m fact => m.retracted r fact) m) := by
  refine ⟨prunes_retracts declared gone, ?_⟩
  induction gone generalizing m with
  | nil => rw [List.foldl_nil, List.map_nil, List.append_nil]
  | cons fact gone ih =>
    have first : (m.retracted r fact).database = m.database.removeFact r fact := rfl
    have still : r < (m.retracted r fact).database.relations.length := by
      rwa [first, Database.removeFact, Database.length_set]
    have entry : (m.retracted r fact).history =
        m.history ++ [.retracted ((m.database.removeFact r fact).nameOf r) (fact.map Term.key)] :=
      rfl
    rw [List.foldl_cons, ih still, entry, first, Database.nameOf_removeFact, List.map_cons,
      ← List.append_cons]

theorem length_masked (id : Int) (terms : List Term) (flags : List Bool) :
    (masked id terms flags).1.length = min terms.length flags.length := by
  induction terms generalizing id flags with
  | nil => rw [masked_nil_left, List.length_nil, Nat.zero_min]
  | cons term terms ih =>
    cases flags with
    | nil => rw [masked_nil_right, List.length_nil, List.length_nil, Nat.min_zero]
    | cons flag flags =>
      cases flag with
      | true => rw [masked_true, List.length_cons, ih, List.length_cons, List.length_cons,
          Nat.succ_min_succ]
      | false => rw [masked_false, List.length_cons, ih, List.length_cons, List.length_cons,
          Nat.succ_min_succ]

section Retracting
variable {takes : Nat} {terms : List Term}

/-- An exclusion finds something only if it has as many parameters as the relation takes arguments,
and the claim has no fewer. -/
theorem excluded_sized (formed : m.WellFormed) (arity : (m.database.relation r).arity = some takes)
    {exclusion : Exclusion} (admits : m.Admits exclusion) {id : Int} {p last : Progress}
    {found : List Substitution} (answers : Search.Answers m.database
      (m.excluded r (masked id terms exclusion.bound).1 exclusion) p found last)
    {s : Substitution} (given : s ∈ found) :
    exclusion.rule.params.length = takes ∧ takes ≤ terms.length := by
  have settled := answers.settled excluded_isFinite given
  have holds := answers.sound excluded_isFinite given
    (Substitution.holds_reading settled fun _ => "")
  obtain ⟨⟨params, _⟩, fact, stored, equal⟩ := excluded_holds.mp holds
  have lengths := congrArg List.length params
  have sizes := congrArg List.length equal
  have sized := formed.sized r fact stored
  rw [arity, Option.some.injEq] at sized
  rw [List.length_map, List.length_map, length_masked, admits.flags] at lengths sizes
  omega

/-- What an exclusion finds is withdrawn, each fact once. -/
theorem exclude_withdraws_found (formed : m.WellFormed) (declared : m.relations.get? key = some r)
    (terms : List Term) (exclusion : Exclusion) :
    ∃ found last n,
      Search.Answers m.database (m.excluded r (masked m.nextId terms exclusion.bound).1 exclusion)
        ⟨[(masked m.nextId terms exclusion.bound).2], []⟩ found last ∧
      (exclude r terms exclusion).run m = (.ok ⟨⟩, n) ∧ Evolves m n ∧
      Withdraws r (found.map (·.reify (masked m.nextId terms exclusion.bound).1)).eraseDups m n := by
  obtain ⟨found, last, answers, run⟩ := run_exclude formed.acyclic.layered r terms exclusion
  have evolves := (works_exclude terms exclusion m declared).evolves
  rw [run] at evolves
  have withdraws := withdraws_retracts (m := { m with nextId := last.nextId source })
    (formed.placed key r declared).1
    (found.map (·.reify (masked m.nextId terms exclusion.bound).1)).eraseDups
  exact ⟨found, last, _, answers, run, evolves, ⟨withdraws.prunes.database,
    withdraws.prunes.relations, withdraws.prunes.exclusions⟩, withdraws.history⟩

theorem exclude_withdraws (formed : m.WellFormed) (declared : m.relations.get? key = some r)
    (arity : (m.database.relation r).arity = some takes) {exclusion : Exclusion}
    (admits : m.Admits exclusion) (terms : List Term) :
    ∃ n gone, (exclude r terms exclusion).run m = (.ok ⟨⟩, n) ∧ n.WellFormed ∧
      Withdraws r gone m n ∧
      (gone ≠ [] → exclusion.rule.params.length = takes ∧ takes ≤ terms.length) := by
  obtain ⟨found, last, n, answers, run, evolves, withdraws⟩ :=
    exclude_withdraws_found formed declared terms exclusion
  refine ⟨n, _, run, formed.evolves evolves, withdraws, fun some => ?_⟩
  cases found with
  | nil => exact absurd rfl some
  | cons s found => exact excluded_sized formed arity admits answers List.mem_cons_self

/-- The exclusions of a claim withdraw facts in turn. Nothing goes unless one of them has as many
parameters as the relation takes arguments, and the claim has no fewer. -/
theorem excludes_withdraw (formed : m.WellFormed) (declared : m.relations.get? key = some r)
    (arity : (m.database.relation r).arity = some takes) (group : List Exclusion)
    (admits : ∀ exclusion ∈ group, m.Admits exclusion) (terms : List Term) :
    ∃ n gone, (group.forM (exclude r terms)).run m = (.ok ⟨⟩, n) ∧ Withdraws r gone m n ∧
      (gone ≠ [] → takes ≤ terms.length ∧
        ∃ exclusion ∈ group, exclusion.rule.params.length = takes) := by
  have inside := (formed.placed key r declared).1
  induction group generalizing m with
  | nil => exact ⟨m, [], rfl, .refl inside, fun some => absurd rfl some⟩
  | cons exclusion group ih =>
    obtain ⟨here, others⟩ := List.forall_mem_cons.mp admits
    obtain ⟨middle, gone, first, after, withdraws, reason⟩ :=
      exclude_withdraws formed declared arity here terms
    have still : middle.relations.get? key = some r := by rwa [withdraws.prunes.relations]
    obtain ⟨n, more, rest, withdrawn, later⟩ := ih after still
      (by rwa [withdraws.relation inside])
      (fun other registered => (others other registered).mono fun _ _ found => by
        rwa [withdraws.prunes.relations])
      (after.placed key r still).1
    refine ⟨n, gone ++ more, (run_bind_ok first).trans rest, withdraws.trans withdrawn inside,
      fun some => ?_⟩
    by_cases none : gone = []
    · rw [none, List.nil_append] at some
      obtain ⟨le, other, registered, fits⟩ := later some
      exact ⟨le, other, List.mem_cons_of_mem _ registered, fits⟩
    · obtain ⟨fits, le⟩ := reason none
      exact ⟨le, exclusion, List.mem_cons_self, fits⟩

end Retracting

inductive Refuses (m : Machine) (fact : Phrase) : Fault → Machine → Prop where
  /-- The machine is strict and the key is not declared. Nothing has changed. -/
  | undeclared : m.strict = true → m.relations.get? fact.key = none →
      Refuses m fact (.undeclaredRelation fact.key) m
  /-- The relation takes another number of arguments. No relation but this one has changed, and of
  it only the facts, by what has been retracted. Nothing at all has gone unless the claim has more
  arguments than the relation takes, and an exclusion of its key has exactly as many. -/
  | misfit {r : RelationId} {takes : Nat} {gone : List (List Term)} {n : Machine} :
      m.relations.get? fact.key = some r → (m.database.relation r).arity = some takes →
      fact.args.length ≠ takes → Withdraws r gone m n →
      (gone ≠ [] → takes < fact.args.length ∧
        ∃ exclusion ∈ (m.exclusions.get? fact.key).getD [],
          exclusion.rule.params.length = takes) →
      Refuses m fact (.arity .fact fact.args.length fact.key takes) n

/-- A claim fails on an undeclared key or on the number of arguments. The number is looked at only
when the exclusions of the key have been searched, so facts may have gone. -/
theorem claim_refused (reachable : m.Reachable) {fact : Phrase} {fault : Fault}
    (run : (claim fact).run m = (.error fault, n)) : Refuses m fact fault n := by
  have formed := reachable.wellFormed
  have asserted : (assert fact.key fact.args (!m.strict)).run m = (.error fault, n) := run
  rw [run_assert] at asserted
  split at asserted
  · rename_i other k first
    cases asserted
    rw [run_relationFor] at first
    split at first
    · cases first
    · rename_i absent
      split at first
      · cases first
      · rename_i strict
        cases first
        exact .undeclared (by simpa using strict) absent
  rename_i r ready first
  rcases relationFor_cases first with ⟨declared, rfl⟩ | ⟨absent, rfl, rfl⟩
  · obtain ⟨inside, named⟩ := formed.placed fact.key r declared
    obtain ⟨after, facts, group, _, _, prunes⟩ := excludes_prune formed declared fact.args
      ((ready.exclusions.get? fact.key).getD [])
    have still : after.database.relation r = { ready.database.relation r with facts } := by
      rw [prunes.database, Database.relation_withFacts inside, if_pos rfl]
    rw [group] at asserted
    dsimp only at asserted
    split at asserted
    · rename_i other refused
      cases asserted
      obtain ⟨takes, arity, differ, rfl⟩ := Database.addFact_refused refused
      rw [still] at arity
      obtain ⟨last, gone, again, withdraws, reason⟩ := excludes_withdraw formed declared arity
        ((ready.exclusions.get? fact.key).getD [])
        (fun _ registered => (formed.admits registered).2) fact.args
      obtain rfl : last = n := (Prod.mk.inj (again.symm.trans group)).2
      have name : last.database.nameOf r = fact.key := by
        rw [Database.nameOf, still]
        exact named
      rw [name]
      refine .misfit declared arity differ withdraws fun some => ?_
      obtain ⟨le, fits⟩ := reason some
      exact ⟨by omega, fits⟩
    · cases asserted
  · -- A relation that is new has no exclusions, and takes any number of arguments.
    have none : ((m.declared fact.key).exclusions.get? fact.key).getD [] = [] :=
      formed.no_exclusions absent
    have group : (([] : List Exclusion).forM
        (exclude m.database.relations.length fact.args)).run (m.declared fact.key) =
          (.ok ⟨⟩, m.declared fact.key) := rfl
    rw [none, group] at asserted
    dsimp only at asserted
    split at asserted
    · rename_i other refused
      obtain ⟨takes, arity, _⟩ := Database.addFact_refused refused
      rw [Machine.declared, Database.relation_declare, if_pos rfl] at arity
      cases arity
    · cases asserted

/-- The exclusion is for one argument, which is what the relation takes; and a key does not tell how
many tokens a text with it has. -/
def looseText : String := "? a %s (x)\n+ a %s \"1\""

def loose : Machine := ((load looseText).run {}).2

theorem claim_refused_loose :
    Refuses loose ⟨"a %s %s", [.lit "2", .lit "3"]⟩ (.arity .fact 2 "a %s %s" 1)
      ((claim ⟨"a %s %s", [.lit "2", .lit "3"]⟩).run loose).2 := by
  have refused : ((claim ⟨"a %s %s", [.lit "2", .lit "3"]⟩).run loose).1 =
      .error (.arity .fact 2 "a %s %s" 1) := by decide +kernel
  exact claim_refused ⟨false, false, 0, .load looseText {}⟩ (run_of_error refused)

/-- The text is read as such a phrase. The claim is refused, and the stored fact has gone. -/
theorem refused_claim_retracts :
    loose.Reachable ∧ Phrase.ofText "a \"2\" \"3\"" = ⟨"a %s %s", [.lit "2", .lit "3"]⟩ ∧
      loose.relations.get? "a %s %s" = some 0 ∧
      (loose.database.relation 0).facts = [[.lit "1"]] ∧
      ((claim (.ofText "a \"2\" \"3\"")).run loose).1 = .error (.arity .fact 2 "a %s %s" 1) ∧
      (((claim (.ofText "a \"2\" \"3\"")).run loose).2.database.relation 0).facts = [] ∧
      ((claim (.ofText "a \"2\" \"3\"")).run loose).2.history =
        loose.history ++ [.retracted "a %s %s" ["1"]] :=
  ⟨⟨false, false, 0, .load looseText {}⟩, by decide +kernel⟩

end Rulebook.Machine
