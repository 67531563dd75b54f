import Rulebook.Proofs.Extension
import Rulebook.Proofs.Search.Meaning

/-! Searches extend. Whatever the database holds, a search only ever adds bindings of open names to
the substitution it starts from, and every binding that it asks for can be made. -/
namespace Rulebook

/-- Goals put together from unifications, queries, uses of rules and of actions. -/
inductive Goal.Composed : Goal → Prop where
  | unify (left right : Term) : Composed (.unify left right)
  | unifyAll (left right : List Term) : Composed (.unifyAll left right)
  | all {goals : List Goal} : (∀ goal ∈ goals, Composed goal) → Composed (.all goals)
  | any {goals : List Goal} : (∀ goal ∈ goals, Composed goal) → Composed (.any goals)
  | query (r : RelationId) (args : List Term) : Composed (.query r args)
  | rule (rule : Rule) (args : List Term) (p : Progress) : Composed (rule.use args p).1
  | action (action : Action) (args : List Term) (out : Term) (p : Progress) :
      Composed (action.goal args out p).1

theorem Goal.Composed.named {goal : Goal} (composed : goal.Composed) :
    goal.Named fun _ => True := by
  induction composed with
  | unify left right => exact .unify (by cases left <;> trivial) (by cases right <;> trivial)
  | unifyAll left right => exact .unifyAll (named_any left) (named_any right)
  | all _ ih => exact .all ih
  | any _ ih => exact .any ih
  | query r args => exact query_named r args
  | rule rule args p => exact rule.use_named args p
  | action action args out p => exact .any (Action.branches_named args out action.entries p)

namespace Search

/-- The binding that the next step makes by extending, and what it extends. -/
def request : Search → Option (Substitution × Term × Term)
  | .pending (.unify left right) s => (s.request left right).map (s, ·)
  | .each live _ _ => live.request
  | .round (first :: _) => first.request
  | .tracing _ inner => inner.request
  | _ => none

/-- What a search asks for is requested by unifying under one of its substitutions. -/
theorem Every.request {okSub : Substitution → Prop} {okGoal : Goal → Prop} {search : Search}
    (every : Every okSub okGoal search) {s : Substitution} {target value : Term}
    (asked : search.request = some (s, target, value)) :
    okSub s ∧ ∃ left right, s.request left right = some (target, value) := by
  fun_induction Search.request search with
  | case1 left right base =>
    obtain ⟨⟨a, b⟩, wanted, same⟩ := Option.map_eq_some_iff.mp asked
    cases same
    cases every with
    | pending _ sub => exact ⟨sub, left, right, wanted⟩
  | case2 live rest below ih =>
    cases every with
    | each first _ _ => exact ih first asked
  | case3 first others ih =>
    cases every with
    | round queue => exact ih (queue first (by simp)) asked
  | case4 label inner ih =>
    cases every with
    | tracing every => exact ih every asked
  | case5 => cases asked

/-- What a search keeps of the substitution that it starts from. -/
def Grown (s t : Substitution) : Prop :=
  t.Built ∧ ∀ name term, s.lookup name = some term → t.lookup name = some term

theorem Grown.adds {s t u : Substitution} (grown : Grown s t) (built : u.Built) (adds : t.Adds u) :
    Grown s u :=
  ⟨built, fun name term bound => adds.kept (grown.2 name term bound)⟩

theorem Grown.unifyAll {s t u : Substitution} (grown : Grown s t) {left right : List Term}
    (unified : t.unifyAll left right = some u) : Grown s u :=
  grown.adds (grown.1.unifyAll unified) (Substitution.adds_unifyAll grown.1.settled unified)

theorem kept_grown (db : Database) (s : Substitution) :
    Kept db (fun _ t => Grown s t) (fun _ goal => goal.Named fun _ => True) where
  laterSub _ grown := grown
  laterGoal _ named := named
  unify _ grown unified :=
    grown.adds (grown.1.unify unified) (Substitution.adds_unify grown.1.settled unified)
  unifyAll _ grown unified := grown.unifyAll unified
  fact _ grown _ _ unified := grown.unifyAll unified
  all := (kept_known db).all (p := {})
  any := (kept_known db).any (p := {})
  traced := (kept_known db).traced (p := {})
  stream := (kept_known db).stream (p := {})
  use named := (kept_known db).use named

/-- Over any database, also a recursive one, each answer to a goal extends what the search starts
from, and at no point of the search is a binding refused. -/
theorem Runs.answers_extend {goal : Goal} (composed : goal.Composed) {s : Substitution}
    (built : s.Built) {db : Database} {p q : Progress} {answers : List Substitution} {last : Search}
    (run : Runs db (.pending goal s) p answers last q) :
    (∀ t ∈ answers, t.Extends s) ∧ (∀ fault, (last.step db q).1 ≠ .failed fault) ∧
      ∀ base target value, last.request = some (base, target, value) →
        ∃ t, base.extend target value = .ok (some t) := by
  have start : (Search.pending goal s).Every (Grown s) fun goal => goal.Named fun _ => True :=
    .pending composed.named ⟨built, fun _ _ bound => bound⟩
  obtain ⟨_, grown, every⟩ := run.kept (kept_grown db s) start
  have known : last.IsKnown := every.imp (fun _ sub => sub.1.settled) fun _ named => named
  refine ⟨fun t given => ?_, step_succeeds known, fun base target value asked => ?_⟩
  · obtain ⟨built, kept⟩ := grown t given
    exact built.extends kept
  · obtain ⟨sub, left, right, wanted⟩ := every.request asked
    exact Substitution.request_extends sub.1.settled wanted

/-- A relation with a fact for every second argument, whose one rule asks it twice. -/
def looping : Database :=
  ⟨[{ name := "path", facts := [[.lit "a", .var "x"]], arity := some 2
      rules := [{
        params := [.var "x", .var "z"]
        conditions := [(0, [.var "x", .var "y"]), (0, [.var "y", .var "z"])]
        source := some 0 }] }]⟩

theorem answers_extend_looping : ∃ t last q,
    Runs looping (.pending (.query 0 [.var "c", .var "z"]) .renamed) ⟨[0], []⟩ [t] last q ∧
      t.Extends .renamed := by
  have run : Runs looping (.pending (.query 0 [.var "c", .var "z"]) .renamed) ⟨[0], []⟩ [_] _ _ :=
    .working rfl (.answer rfl (.refl _ _))
  have built : Substitution.renamed.Built := .extend .empty Substitution.extend_renamed
  exact ⟨_, _, _, run, (Runs.answers_extend (.query _ _) built run).1 _ (by simp)⟩

end Search
end Rulebook
