import Rulebook.Proofs.Renaming.Database
import Rulebook.Proofs.Search.Invariant

/-! Searches under a renaming. A search over renamed facts for a renamed goal takes the same steps:
it mints its salts from a counter at the distance, and what it answers is renamed. -/
namespace Rulebook
variable (π : Renaming)

namespace Goal

mutual

/-- The goal with its variables renamed; a stream has none that could be told. -/
def rename (π : Renaming) : Goal → Goal
  | unify left right => unify (left.rename π) (right.rename π)
  | unifyAll left right => unifyAll (left.map (Term.rename π)) (right.map (Term.rename π))
  | all goals => all (renameAll π goals)
  | any goals => any (renameAll π goals)
  | query r args => query r (args.map (Term.rename π))
  | traced label goal => traced label (goal.rename π)
  | stream answers => stream answers
  | unsearchable => unsearchable

def renameAll (π : Renaming) : List Goal → List Goal
  | [] => []
  | goal :: goals => goal.rename π :: renameAll π goals

end

theorem renameAll_eq (goals : List Goal) : renameAll π goals = goals.map (rename π) := by
  induction goals with
  | nil => rfl
  | cons goal goals ih => rw [renameAll, ih, List.map_cons]

theorem isSearchable_rename (goal : Goal) : (goal.rename π).isSearchable = goal.isSearchable := by
  cases goal <;> rfl

theorem all_isSearchable_rename (goals : List Goal) :
    (goals.map (rename π)).all isSearchable = goals.all isSearchable := by
  rw [List.all_map]
  exact congrArg (goals.all ·) (funext (isSearchable_rename π))

mutual

theorem isFinite_rename : (goal : Goal) → (goal.rename π).isFinite = goal.isFinite
  | unify _ _ | unifyAll _ _ | query _ _ | stream _ | unsearchable => rfl
  | all goals | any goals => areFinite_rename goals
  | traced _ goal => isFinite_rename goal

theorem areFinite_rename : (goals : List Goal) → areFinite (renameAll π goals) = areFinite goals
  | [] => rfl
  | goal :: goals => by
    rw [renameAll, areFinite, isFinite_rename goal, areFinite_rename goals, areFinite]

end

end Goal

def Progress.rename (π : Renaming) (p : Progress) : Progress :=
  { p with nextIds := p.nextIds.map (· + π.distance) }

section Progressing
variable {p : Progress} {source : SourceId}

theorem Progress.nextId_rename (inside : source < p.nextIds.length) :
    (p.rename π).nextId source = p.nextId source + π.distance := by
  simp [rename, nextId, List.getD_eq_getElem?_getD, inside]

theorem Progress.advance_rename : (p.rename π).advance source = (p.advance source).rename π := by
  simp only [rename, advance, Progress.mk.injEq, and_true]
  apply List.ext_getElem?
  intro i
  rw [List.getElem?_modify, List.getElem?_map, List.getElem?_map, List.getElem?_modify]
  cases p.nextIds[i]? with
  | none => rfl
  | some id =>
    by_cases here : source = i
    · simp [here]
      omega
    · simp [here]

end Progressing

structure Rule.Regular (rule : Rule) (sources : Nat) : Prop where
  plain : rule.Plain
  minted : ∀ source, rule.source = some source → source < sources

section Using
variable {rule : Rule}

theorem Rule.Plain.goal_rename (plain : rule.Plain) {salt other : String}
    (salted : ∀ term : Term, term.Plain → (term.salted salt).rename π = term.salted other)
    (args : List Term) :
    rule.goal (args.map (Term.rename π)) other = (rule.goal args salt).rename π := by
  have terms {terms : List Term} (plain : ∀ term ∈ terms, term.Plain) :
      terms.map (·.salted other) = (terms.map (·.salted salt)).map (Term.rename π) := by
    rw [List.map_map]
    exact List.map_congr_left fun term inside => (salted term (plain term inside)).symm
  rw [goal, goal, Goal.rename, Goal.renameAll, Goal.renameAll_eq, List.map_map, terms plain.1]
  congr 2
  apply List.map_congr_left
  intro condition inside
  exact congrArg (Goal.query condition.1) (terms (plain.2 condition inside))

theorem Rule.Plain.goal_rename_unsalted (plain : rule.Plain) (args : List Term) :
    rule.goal (args.map (Term.rename π)) "" = (rule.goal args "").rename π := by
  apply plain.goal_rename π
  intro term plain
  rw [term.salted_empty, plain.rename]

/-- A rule is used under the salt that the other counter mints. -/
theorem Rule.Regular.use_rename {p : Progress} (regular : rule.Regular p.nextIds.length)
    (args : List Term) : rule.use (args.map (Term.rename π)) (p.rename π) =
      ((rule.use args p).1.rename π, (rule.use args p).2.rename π) := by
  unfold use
  cases kept : rule.source with
  | none => rw [regular.plain.goal_rename_unsalted π]
  | some source =>
    dsimp only
    rw [p.nextId_rename π (regular.minted source kept), p.advance_rename π,
      regular.plain.goal_rename π fun term plain => plain.rename_salted π (p.nextId source)]

end Using

theorem Relation.factsGoal_rename (relation : Relation) (args : List Term) :
    (relation.rename π).factsGoal (args.map (Term.rename π)) =
      (relation.factsGoal args).rename π := by
  rw [factsGoal, factsGoal, Goal.rename, Goal.renameAll_eq, rename, List.map_map, List.map_map]
  rfl

namespace Search

mutual

def rename (π : Renaming) : Search → Search
  | ended => ended
  | pending goal base => pending (goal.rename π) (base.rename π)
  | facts r args base next => facts r (args.map (Term.rename π)) (base.rename π) next
  | rules r args base next => rules r (args.map (Term.rename π)) (base.rename π) next
  | each live rest below => each (live.rename π) (Goal.renameAll π rest) (below.rename π)
  | round queue => round (renameAll π queue)
  | tracing label inner => tracing label (inner.rename π)
  | streaming answers base next => streaming answers (base.rename π) next

def renameAll (π : Renaming) : List Search → List Search
  | [] => []
  | search :: others => search.rename π :: renameAll π others

end

theorem renameAll_eq (queue : List Search) : renameAll π queue = queue.map (rename π) := by
  induction queue with
  | nil => rfl
  | cons search others ih => rw [renameAll, ih, List.map_cons]

mutual

theorem isFinite_rename : (search : Search) → (search.rename π).isFinite = search.isFinite
  | ended | facts _ _ _ _ | rules _ _ _ _ | streaming _ _ _ => rfl
  | pending goal _ => goal.isFinite_rename π
  | each live rest below => by
    rw [rename, isFinite, isFinite_rename live, Goal.areFinite_rename, isFinite_rename below,
      isFinite]
  | round queue => areFinite_rename queue
  | tracing _ inner => isFinite_rename inner

theorem areFinite_rename :
    (queue : List Search) → areFinite (renameAll π queue) = areFinite queue
  | [] => rfl
  | search :: others => by
    rw [renameAll, areFinite, isFinite_rename search, areFinite_rename others, areFinite]

end

end Search

def Outcome.rename (π : Renaming) : Outcome → Outcome
  | answer s rest => answer (s.rename π) (rest.rename π)
  | working rest => working (rest.rename π)
  | ended => ended
  | failed fault => failed (fault.rename π)

theorem Outcome.rename_ofUnifier (unifier : Option Substitution) (rest : Search) :
    ofUnifier (unifier.map (Substitution.rename π)) (rest.rename π) =
      (ofUnifier unifier rest).rename π := by
  cases unifier <;> rfl

namespace Search

theorem start_rename (goal : Goal) (s : Substitution) :
    start (goal.rename π) (s.rename π) =
      ((start goal s).map (rename π)).mapError (Fault.rename π) := by
  rw [start, goal.isSearchable_rename, start]
  split <;> rfl

/-- The first work on a renamed goal. -/
theorem enter_rename {goal : Goal} (finite : goal.isFinite) (s : Substitution) (p : Progress) :
    enter (s.rename π) (p.rename π) (goal.rename π) =
      ((enter s p goal).1.rename π, (enter s p goal).2.rename π) := by
  fun_cases enter s p goal with
  | case1 left right fault failed =>
    rw [Goal.rename, enter, s.unify_rename, failed]
    rfl
  | case2 left right unifier unified =>
    rw [Goal.rename, enter, s.unify_rename, unified, ← Outcome.rename_ofUnifier]
    rfl
  | case3 left right =>
    rw [Goal.rename, enter, s.unifyAll_rename, ← Outcome.rename_ofUnifier]
    rfl
  | case4 => rfl
  | case5 goal goals fault started =>
    rw [Goal.rename, Goal.renameAll, enter, start_rename, started]
    rfl
  | case6 goal goals live started =>
    rw [Goal.rename, Goal.renameAll, enter, start_rename, started]
    rfl
  | case7 goals searchable =>
    rw [Goal.rename, Goal.renameAll_eq, enter, Goal.all_isSearchable_rename, if_pos searchable,
      Outcome.rename, rename, renameAll_eq, List.map_map, List.map_map]
    rfl
  | case8 goals stuck =>
    rw [Goal.rename, Goal.renameAll_eq, enter, Goal.all_isSearchable_rename, if_neg stuck]
    rfl
  | case9 relation args => rfl
  | case10 label goal q fault started =>
    rw [Goal.rename, enter, start_rename, started]
    rfl
  | case11 label goal q live started =>
    rw [Goal.rename, enter, start_rename, started]
    rfl
  | case12 answers => cases finite
  | case13 => rfl

/-- A step of a renamed search. -/
theorem step_rename {db : Database} {search : Search} (finite : search.isFinite) {p : Progress}
    (regular : ∀ r, ∀ rule ∈ (db.relation r).rules, rule.Regular p.nextIds.length) :
    (search.rename π).step (db.rename π) (p.rename π) =
      ((search.step db p).1.rename π, (search.step db p).2.rename π) := by
  fun_induction step db search p with
  | case1 => rfl
  | case2 goal s p => exact enter_rename π finite s p
  | case3 r args s next p none =>
    rw [rename, step, db.relation_rename, Relation.rename, List.getElem?_map, none]
    rfl
  | case4 r args s next p fact found =>
    rw [rename, step, db.relation_rename, Relation.rename, List.getElem?_map, found]
    dsimp only [Option.map_some]
    rw [s.unifyAll_rename, ← Outcome.rename_ofUnifier]
    rfl
  | case5 r args s next p none =>
    rw [rename, step, db.relation_rename, Relation.rename, none]
    rfl
  | case6 r args s next p rule found goal q used =>
    have same := (regular r rule (List.mem_of_getElem? found)).use_rename π args
    rw [used] at same
    rw [rename, step, db.relation_rename, Relation.rename, found]
    dsimp only
    rw [same]
    rfl
  | case7 _ _ _ _ _ _ stepped ih | case8 _ _ _ _ _ stepped ih | case9 _ _ _ _ _ _ stepped ih
  | case10 _ _ _ _ _ _ stepped ih =>
    simp only [isFinite, Bool.and_eq_true] at finite
    rw [rename, step, ih finite.1.1 regular, stepped]
    rfl
  | case11 _ _ _ _ _ _ stepped _ _ _ started ih | case12 _ _ _ _ _ _ stepped _ _ _ started ih =>
    simp only [isFinite, Bool.and_eq_true] at finite
    rw [rename, step, ih finite.1.1 regular, stepped]
    dsimp only [Outcome.rename, Goal.renameAll]
    rw [start_rename, started]
    rfl
  | case13 => rfl
  | case14 _ _ _ _ _ stepped ih | case15 _ _ _ _ stepped ih | case16 _ _ _ _ _ stepped ih =>
    simp only [isFinite, areFinite, Bool.and_eq_true] at finite
    rw [rename, renameAll, step, ih finite.1 regular, stepped]
    rfl
  | case17 first others p s next q stepped ih =>
    simp only [isFinite, areFinite, Bool.and_eq_true] at finite
    rw [rename, renameAll, step, ih finite.1 regular, stepped]
    dsimp only [Outcome.rename, rename]
    rw [renameAll_eq, renameAll_eq, List.map_append]
    rfl
  | case18 _ _ _ _ _ stepped ih | case19 _ _ _ _ stepped ih | case20 _ _ _ _ _ stepped ih
  | case21 _ _ _ _ _ _ stepped ih =>
    rw [rename, step, ih finite regular, stepped]
    rfl
  | case22 | case23 => cases finite

end Search
end Rulebook
