import Mathlib.Algebra.GroupWithZero.Nat
import Rulebook.Proofs.Search.Run

/-! How many answers a search gives. A query gives at most one answer for each fact, and for each
rule at most as many as its conditions have combinations of answers. Every step keeps what has been
given and what can still come within the bound. -/
namespace Rulebook

/-- A bound on the answers of one use of a rule, given bounds for the relations it asks. -/
def Rule.most (bound : RelationId → Nat) (rule : Rule) : Nat := (rule.relations.map bound).prod

def Relation.most (bound : RelationId → Nat) (relation : Relation) : Nat :=
  relation.facts.length + (relation.rules.map (Rule.most bound)).sum

/-- Bounds that satisfy their own equation. -/
def Bounds (db : Database) (bound : RelationId → Nat) : Prop :=
  ∀ r, bound r = (db.relation r).most bound

mutual

def Goal.most (bound : RelationId → Nat) : Goal → Nat
  | .unify _ _ | .unifyAll _ _ => 1
  | .all goals => Goal.mostOfAll bound goals
  | .any goals => Goal.mostOfAny bound goals
  | .query relation _ => bound relation
  | .traced _ goal => goal.most bound
  | .stream _ | .unsearchable => 0

def Goal.mostOfAll (bound : RelationId → Nat) : List Goal → Nat
  | [] => 1
  | goal :: goals => goal.most bound * Goal.mostOfAll bound goals

def Goal.mostOfAny (bound : RelationId → Nat) : List Goal → Nat
  | [] => 0
  | goal :: goals => goal.most bound + Goal.mostOfAny bound goals

end

namespace Search

mutual

def most (db : Database) (bound : RelationId → Nat) : Search → Nat
  | .ended | .streaming _ _ _ => 0
  | .pending goal _ => goal.most bound
  | .facts relation _ _ next =>
    (db.relation relation).facts.length - next +
      ((db.relation relation).rules.map (Rule.most bound)).sum
  | .rules relation _ _ next => (((db.relation relation).rules.drop next).map (Rule.most bound)).sum
  | .each live rest below => live.most db bound * Goal.mostOfAll bound rest + below.most db bound
  | .round queue => mostOfQueue db bound queue
  | .tracing _ inner => inner.most db bound

def mostOfQueue (db : Database) (bound : RelationId → Nat) : List Search → Nat
  | [] => 0
  | search :: others => search.most db bound + mostOfQueue db bound others

end

end Search

namespace Goal
variable {bound : RelationId → Nat}

theorem mostOfAll_queries (conditions : List (RelationId × List Term))
    (rename : List Term → List Term) :
    mostOfAll bound (conditions.map fun (r, terms) => .query r (rename terms)) =
      ((conditions.map (·.1)).map bound).prod := by
  induction conditions with
  | nil => rfl
  | cons condition rest ih => simp only [List.map_cons, mostOfAll, most, List.prod_cons, ih]

end Goal

theorem Rule.goal_most {bound : RelationId → Nat} (rule : Rule) (args : List Term) (salt : String) :
    (rule.goal args salt).most bound = rule.most bound := by
  rw [Rule.goal, Goal.most, Goal.mostOfAll, Goal.mostOfAll_queries, Goal.most, Nat.one_mul]
  rfl

def Outcome.most (db : Database) (bound : RelationId → Nat) : Outcome → Nat
  | .answer _ rest => rest.most db bound + 1
  | .working rest => rest.most db bound
  | .ended | .failed _ => 0

namespace Search
variable {db : Database} {bound : RelationId → Nat}

theorem mostOfQueue_pending (goals : List Goal) (s : Substitution) :
    mostOfQueue db bound (goals.map (.pending · s)) = Goal.mostOfAny bound goals := by
  induction goals with
  | nil => rfl
  | cons goal goals ih => simp only [List.map_cons, mostOfQueue, Goal.mostOfAny, most, ih]

theorem mostOfQueue_append (left right : List Search) :
    mostOfQueue db bound (left ++ right) =
      mostOfQueue db bound left + mostOfQueue db bound right := by
  induction left with
  | nil => simp only [List.nil_append, mostOfQueue, Nat.zero_add]
  | cons first left ih => simp only [List.cons_append, mostOfQueue, ih, Nat.add_assoc]

theorem most_ofUnifier (unifier : Option Substitution) (rest : Search) :
    (Outcome.ofUnifier unifier rest).most db bound ≤ rest.most db bound + 1 := by
  cases unifier with
  | none => exact Nat.le_succ _
  | some s => exact Nat.le_refl _

theorem enter_most (bounds : Bounds db bound) {goal : Goal} (finite : goal.isFinite)
    (s : Substitution) (p : Progress) :
    (enter s p goal).1.most db bound ≤ goal.most bound := by
  fun_cases enter s p goal with
  | case1 left right fault failed => exact Nat.zero_le _
  | case2 left right unifier unified => exact most_ofUnifier unifier .ended
  | case3 left right => exact most_ofUnifier (s.unifyAll left right) .ended
  | case4 => exact Nat.le_refl _
  | case5 => exact Nat.zero_le _
  | case6 goal goals live started =>
    rw [start_eq started]
    exact Nat.le_refl _
  | case7 goals searchable => exact Nat.le_of_eq (mostOfQueue_pending goals s)
  | case8 => exact Nat.zero_le _
  | case9 relation args => exact Nat.le_of_eq (bounds relation).symm
  | case10 => exact Nat.zero_le _
  | case11 label goal _ live started =>
    rw [start_eq started]
    exact Nat.le_refl _
  | case12 => cases finite
  | case13 => exact Nat.zero_le _

/-- A step gives at most what it takes off the bound. -/
theorem step_most (bounds : Bounds db bound) {search : Search} (finite : search.isFinite)
    (p : Progress) : (search.step db p).1.most db bound ≤ search.most db bound := by
  fun_induction step db search p with
  | case2 goal s p => exact enter_most bounds finite s p
  | case3 r args s next p none =>
    simp only [Outcome.most, most, List.drop_zero]
    exact Nat.le_add_left _ _
  | case4 r args s next p fact found =>
    obtain ⟨inside, _⟩ := List.getElem?_eq_some_iff.mp found
    refine Nat.le_trans (most_ofUnifier _ _) ?_
    simp only [most]
    omega
  | case6 r args s next p rule found goal q used =>
    obtain ⟨inside, here⟩ := List.getElem?_eq_some_iff.mp found
    obtain ⟨salt, same⟩ := rule.use_goal args p
    rw [used] at same
    replace same : goal = rule.goal args salt := same
    simp only [Outcome.most, most, Goal.mostOfAll, Nat.mul_one, same, Rule.goal_most]
    apply Nat.le_of_eq
    rw [List.drop_eq_getElem_cons inside, here, List.map_cons, List.sum_cons]
  | case7 live goals below p next q stepped ih =>
    simp only [isFinite, Bool.and_eq_true] at finite
    have first := ih finite.1.1
    rw [stepped] at first
    exact Nat.add_le_add_right (Nat.mul_le_mul_right _ first) _
  | case8 live goals below p q stepped ih => exact Nat.le_add_left _ _
  | case10 live below p s next q stepped ih =>
    simp only [isFinite, Bool.and_eq_true] at finite
    have first := ih finite.1.1
    rw [stepped] at first
    simp only [Outcome.most, most, Goal.mostOfAll, Nat.mul_one] at first ⊢
    omega
  | case12 live below p s next q stepped goal goals opened started ih =>
    simp only [isFinite, Bool.and_eq_true] at finite
    have first := ih finite.1.1
    rw [stepped] at first
    rw [start_eq started]
    have more := Nat.mul_le_mul_right (Goal.mostOfAll bound (goal :: goals)) first
    simp only [Outcome.most, most, Goal.mostOfAll, Nat.succ_mul] at more ⊢
    omega
  | case14 first others p next q stepped ih =>
    simp only [isFinite, areFinite, Bool.and_eq_true] at finite
    have one := ih finite.1
    rw [stepped] at one
    simp only [Outcome.most, most, mostOfQueue] at one ⊢
    omega
  | case15 first others p q stepped ih => exact Nat.le_add_left _ _
  | case17 first others p s next q stepped ih =>
    simp only [isFinite, areFinite, Bool.and_eq_true] at finite
    have one := ih finite.1
    rw [stepped] at one
    simp only [Outcome.most, most, mostOfQueue, mostOfQueue_append] at one ⊢
    omega
  | case18 label inner p next q stepped ih | case21 label inner p s next q stepped ih =>
    have one := ih finite
    rw [stepped] at one
    exact one
  | case23 => cases finite
  -- The other steps end the search or fail.
  | _ => exact Nat.zero_le _

theorem most_of_step (bounds : Bounds db bound) {search : Search} (finite : search.isFinite)
    {p q : Progress} {outcome : Outcome} (stepped : search.step db p = (outcome, q)) :
    outcome.most db bound ≤ search.most db bound := by
  have one := step_most bounds finite p
  rwa [stepped] at one

/-- A run gives at most as many answers as the bound of where it starts. -/
theorem Runs.length_le (bounds : Bounds db bound) {search last : Search} {p q : Progress}
    {answers : List Substitution} (weighs : Weighs db w) (finite : search.isFinite)
    (run : Runs db search p answers last q) : answers.length ≤ search.most db bound := by
  induction run with
  | refl => exact Nat.zero_le _
  | working stepped _ ih =>
    exact Nat.le_trans (ih (working_lowers weighs finite stepped).1)
      (most_of_step bounds finite stepped)
  | answer stepped _ ih =>
    have more := ih (answer_lowers weighs finite stepped).1
    exact Nat.le_trans (Nat.succ_le_succ more) (most_of_step bounds finite stepped)

end Search

namespace Database

def mostWithin (db : Database) : Nat → RelationId → Nat
  | 0, _ => 0
  | layers + 1, r => (db.relation r).most (db.mostWithin layers)

/-- The number of answers that a query of the relation has at most: one for each fact, and for each
rule the product of what its conditions have at most. -/
def mostAnswers (db : Database) (r : RelationId) : Nat := db.mostWithin (db.height r + 1) r

end Database

/-- A relation's bound hangs on the bounds of what its rules ask. -/
theorem Relation.most_congr {f g : RelationId → Nat} {relation : Relation}
    (same : ∀ r ∈ relation.dependencies, f r = g r) : relation.most f = relation.most g := by
  have rules : relation.rules.map (Rule.most f) = relation.rules.map (Rule.most g) := by
    refine List.map_congr_left fun rule stored => congrArg List.prod ?_
    exact List.map_congr_left fun r asked => same r (List.mem_flatMap.mpr ⟨rule, stored, asked⟩)
  rw [most, most, rules]

namespace Database
variable {db : Database}

theorem mostWithin_eq (layered : db.isLayered) {m n : Nat} {r : RelationId}
    (hm : db.height r < m) (hn : db.height r < n) : db.mostWithin m r = db.mostWithin n r := by
  induction m generalizing n r with
  | zero => cases hm
  | succ m ih =>
    cases n with
    | zero => cases hn
    | succ n =>
      apply Relation.most_congr
      intro c depends
      have lower := height_lt layered depends
      exact ih (by omega) (by omega)

theorem bounds_mostAnswers (layered : db.isLayered) : Bounds db db.mostAnswers := by
  intro r
  apply Relation.most_congr
  intro c depends
  exact mostWithin_eq layered (height_lt layered depends) (by omega)

end Database
end Rulebook
