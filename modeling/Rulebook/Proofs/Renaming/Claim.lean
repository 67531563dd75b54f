import Rulebook.Proofs.Renaming.Operation

/-! Claims to machines whose counters are at a distance. What an exclusion searches for is renamed,
so what it retracts is too. -/
namespace Rulebook
variable {π : Renaming}

namespace Machine
variable {past : Int} {m n : Machine}

theorem masked_rename (id : Int) (terms : List Term) (flags : List Bool) :
    masked (id + π.distance) (terms.map (Term.rename π)) flags =
      ((masked id terms flags).1.map (Term.rename π), (masked id terms flags).2 + π.distance) := by
  fun_induction masked id terms flags with
  | case1 id term terms flags args next below ih =>
    rw [below] at ih
    rw [List.map_cons, masked, ih]
    rfl
  | case2 id term terms flags args next below ih =>
    have unhinted : π.names "" = "" := π.plain (by decide) (by decide)
    have fresh := Term.fresh_rename π id ""
    rw [below] at ih
    rw [unhinted] at fresh
    rw [List.map_cons, masked, show id + π.distance + 1 = id + 1 + π.distance by omega, ih,
      ← fresh]
    rfl
  | case3 terms id flags flagged unflagged =>
    cases terms with
    | nil => rfl
    | cons term terms =>
      cases flags with
      | nil => rfl
      | cons flag flags =>
        cases flag with
        | true => exact (flagged term terms flags rfl rfl).elim
        | false => exact (unflagged term terms flags rfl rfl).elim

section Claiming
variable (twins : Twins π past m n)
include twins

theorem corresponds_retract (r : RelationId) (fact : List Term) :
    Corresponds π Eq (Twins π past) ((retract r fact).run m)
      ((retract r (fact.map (Term.rename π))).run n) := by
  have same : n.database.set r (((m.database.relation r).removeFact fact).rename π) =
      n.database.removeFact r (fact.map (Term.rename π)) := by
    rw [twins.database, Database.removeFact_rename, Database.removeFact, Database.set_rename]
  have without : Twins π past { m with database := m.database.removeFact r fact }
      { n with database := n.database.removeFact r (fact.map (Term.rename π)) } := by
    rw [← same]
    exact twins.replaced (twins.tame.rules r)
      fun other stored => twins.tame.facts r other (List.mem_of_mem_filter stored)
  have name : (n.database.removeFact r (fact.map (Term.rename π))).nameOf r =
      (m.database.removeFact r fact).nameOf r := by
    rw [twins.database, Database.removeFact_rename, Database.nameOf_rename]
  rw [run_retract, run_retract, retracted, retracted, name]
  exact .ok rfl ((without.logged _ _).recorded (.retracted _ fact))

theorem corresponds_exclude {exclusion : Exclusion} (plain : exclusion.rule.Plain) (r : RelationId)
    (terms : List Term) :
    Corresponds π Eq (Twins π past) ((exclude r terms exclusion).run m)
      ((exclude r (terms.map (Term.rename π)) exclusion).run n) := by
  have masks : Corresponds π (fun args other => other = args.map (Term.rename π)) (Twins π past)
      ((exclusionArgs terms exclusion.bound).run m)
      ((exclusionArgs (terms.map (Term.rename π)) exclusion.bound).run n) := by
    rw [run_exclusionArgs, run_exclusionArgs, twins.nextId, masked_rename]
    exact .ok rfl (twins.spend (le_masked m.nextId terms exclusion.bound))
  refine masks.bind fun args other m n same twins => ?_
  subst same
  rw [run_bind, run_get, run_bind, run_get]
  dsimp only
  have renamed : Goal.all [exclusion.rule.goal (args.map (Term.rename π)) "",
        (n.database.relation r).factsGoal (args.map (Term.rename π))] =
      (Goal.all [exclusion.rule.goal args "", (m.database.relation r).factsGoal args]).rename π := by
    rw [twins.database, Database.relation_rename, Relation.factsGoal_rename,
      plain.goal_rename_unsalted π]
    rfl
  have finite : (m.excluded r args exclusion).isFinite := (m.excluded_named r args exclusion).isFinite
  rw [renamed]
  refine (corresponds_answers twins finite).bind fun found other m n same twins => ?_
  subst same
  have injective : Function.Injective (List.map (Term.rename π)) :=
    List.map_injective_iff.mpr fun _ _ => (Term.rename_inj π).mp
  have reified : ((found.map (Substitution.rename π)).map (·.reify (args.map (Term.rename π)))) =
      (found.map (·.reify args)).map (List.map (Term.rename π)) := by
    rw [List.map_map, List.map_map]
    exact List.map_congr_left fun s _ => s.reify_rename π args
  rw [reified, eraseDups_map injective]
  refine Corresponds.forM (R := fun fact other => other = fact.map (Term.rename π))
    (fun fact other m n same twins => same ▸ corresponds_retract twins r fact) ?_ twins
  rw [List.forall₂_map_right_iff, List.forall₂_same]
  exact fun _ _ => rfl

/-- Asserting a fact without variables that are still to be minted. -/
theorem corresponds_assert (key : String) {terms : List Term}
    (known : ∀ term ∈ terms, term.Named (Naming.Known past)) (create : Bool) :
    Corresponds π Eq (Twins π past) ((assert key terms create).run m)
      ((assert key (terms.map (Term.rename π)) create).run n) := by
  refine (corresponds_relationFor twins key create).bind fun r other m n same twins => ?_
  subst same
  rw [run_bind, run_get, run_bind, run_get]
  dsimp only
  have group : Corresponds π Eq (Twins π past)
      ((((m.exclusions.get? key).getD []).forM (exclude r terms)).run m)
      ((((n.exclusions.get? key).getD []).forM (exclude r (terms.map (Term.rename π)))).run n) := by
    rw [twins.exclusions]
    exact Corresponds.forM_same (fun exclusion inside m n still =>
      corresponds_exclude still (twins.tame.exclusions key exclusion inside) r terms) twins
  refine group.bind fun _ _ m n _ twins => ?_
  rw [run_bind, run_get, run_bind, run_get]
  dsimp only
  rw [twins.database, Database.addFact_rename]
  cases added : m.database.addFact r terms with
  | error fault => exact .error twins
  | ok db =>
    have stated : Twins π past { m with database := db } { n with database := db.rename π } := by
      obtain ⟨_, rfl⟩ := Database.addFact_ok added
      rw [Database.set_rename, ← twins.database]
      refine twins.replaced (twins.tame.rules r) fun fact stored => ?_
      rcases List.mem_append.mp stored with old | new
      · exact twins.tame.facts r fact old
      · rw [List.mem_singleton.mp new]
        exact fun term inside => (known term inside).imp fun _ => .mono twins.past
    dsimp only [Except.map, Except.mapError]
    rw [run_bind, run_modify, run_bind, run_modify]
    exact (corresponds_log stated _ _).bind fun _ _ m n _ twins =>
      corresponds_record twins (.claimed key terms)

/-- Claiming a fact that a text states. -/
theorem corresponds_claim {fact : Phrase} (plain : ∀ term ∈ fact.args, term.Plain) :
    Corresponds π Eq (Twins π past) ((claim fact).run m) ((claim fact).run n) := by
  unfold claim
  rw [run_bind, run_get, run_bind, run_get]
  dsimp only
  rw [twins.strict]
  have same := corresponds_assert twins fact.key (fun term inside => (plain term inside).known past)
    (!m.strict)
  rwa [map_rename_plain π plain] at same

end Claiming
end Machine
end Rulebook
