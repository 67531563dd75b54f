import Rulebook.Search.Weight

/-! Every step of a search without streams over layered relations lowers its weight, and leaves a
search without streams. -/
namespace Rulebook
variable {db : Database} {w : RelationId → Nat}

theorem Goal.chainWeight_pos (goals : List Goal) : 0 < Goal.chainWeight w goals := by
  cases goals <;> simp only [Goal.chainWeight] <;> omega

theorem Goal.chainWeight_queries (conditions : List (RelationId × List Term))
    (rename : List Term → List Term) :
    Goal.chainWeight w (conditions.map fun (r, terms) => .query r (rename terms)) =
      queriesWeight w (conditions.map (·.1)) := by
  induction conditions with
  | nil => rfl
  | cons c cs ih => simp [Goal.chainWeight, queriesWeight, Goal.weight, ih]

theorem Goal.areFinite_queries (conditions : List (RelationId × List Term))
    (rename : List Term → List Term) :
    Goal.areFinite (conditions.map fun (r, terms) => .query r (rename terms)) := by
  induction conditions with
  | nil => rfl
  | cons c cs ih => simp [Goal.areFinite, Goal.isFinite, ih]

theorem Rule.goal_weight (rule : Rule) (args : List Term) (salt : String) :
    (rule.goal args salt).weight w = rule.weight w := by
  simp [Rule.goal, Goal.weight, Goal.chainWeight, Rule.weight, Goal.chainWeight_queries,
    Rule.relations]
  omega

theorem Rule.goal_isFinite (rule : Rule) (args : List Term) (salt : String) :
    (rule.goal args salt).isFinite := by
  simp [Rule.goal, Goal.isFinite, Goal.areFinite, Goal.areFinite_queries]

theorem Rule.use_goal (rule : Rule) (args : List Term) (p : Progress) :
    ∃ salt, (rule.use args p).1 = rule.goal args salt := by
  unfold Rule.use
  split
  · exact ⟨"", rfl⟩
  · exact ⟨_, rfl⟩

theorem Relation.rulesWeight_pos (rules : List Rule) : 0 < Relation.rulesWeight w rules := by
  cases rules <;> simp only [Relation.rulesWeight] <;> omega

theorem Goal.weight_pos (weighs : Weighs db w) (goal : Goal) : 0 < goal.weight w := by
  cases goal with
  | query r args =>
    rw [Goal.weight, weighs r, Relation.weight]
    omega
  | _ =>
    simp only [Goal.weight]
    omega

namespace Search

theorem weight_pos (weighs : Weighs db w) : (search : Search) → 0 < search.weight db w
  | .pending goal _ => goal.weight_pos weighs
  | .rules _ _ _ _ => Relation.rulesWeight_pos _
  | .each _ _ below => Nat.lt_of_lt_of_le (weight_pos weighs below) (Nat.le_add_left _ _)
  | .facts _ _ _ _ => by
    simp only [weight, Relation.walkWeight]
    omega
  | .ended | .streaming _ _ _ => by
    simp only [weight]
    omega
  | .round _ | .tracing _ _ => by
    simp only [weight]
    omega

theorem start_eq {goal : Goal} {s : Substitution} {live : Search}
    (started : start goal s = .ok live) : live = .pending goal s := by
  unfold start at started
  split at started
  · exact (Except.ok.inj started).symm
  · cases started

theorem areFinite_pending {goals : List Goal} (s : Substitution)
    (finite : Goal.areFinite goals) : areFinite (goals.map (.pending · s)) := by
  induction goals with
  | nil => rfl
  | cons goal goals ih =>
    simp only [Goal.areFinite, Bool.and_eq_true] at finite
    simp [areFinite, isFinite, finite.1, ih finite.2]

theorem queueWeight_pending (goals : List Goal) (s : Substitution) :
    queueWeight db w (goals.map (.pending · s)) = Goal.branchWeight w goals := by
  induction goals with
  | nil => rfl
  | cons goal goals ih => simp [queueWeight, Goal.branchWeight, weight, ih]

theorem areFinite_append (left right : List Search) :
    areFinite (left ++ right) = (areFinite left && areFinite right) := by
  induction left with
  | nil => simp [areFinite]
  | cons first left ih => simp [areFinite, ih, Bool.and_assoc]

theorem queueWeight_append (left right : List Search) :
    queueWeight db w (left ++ right) = queueWeight db w left + queueWeight db w right := by
  induction left with
  | nil => simp [queueWeight]
  | cons first left ih => simp [queueWeight, ih, Nat.add_assoc]

/-- The first work on a goal leaves less than the goal. -/
theorem enter_lowers (weighs : Weighs db w) {goal : Goal} {s : Substitution} {p : Progress}
    {rest : Search} (finite : goal.isFinite) (left : (enter s p goal).1.rest? = some rest) :
    rest.isFinite ∧ rest.weight db w < goal.weight w := by
  revert left
  fun_cases enter s p goal <;> intro left <;>
    simp only [Outcome.rest?_ofUnifier, Outcome.rest?_answer, Outcome.rest?_working,
      Outcome.rest?_failed, Option.some.injEq, reduceCtorEq] at left <;>
    subst left
  case case2 => simp [isFinite, weight, Goal.weight]
  case case3 => simp [isFinite, weight, Goal.weight]
  case case4 => simp [isFinite, weight, Goal.weight, Goal.chainWeight]
  case case6 goal goals live started =>
    rw [start_eq started]
    simp only [Goal.isFinite, Goal.areFinite, Bool.and_eq_true] at finite
    simp only [isFinite, finite, Bool.and_self, weight, Goal.weight, Goal.chainWeight, true_and]
    omega
  case case7 goals searchable =>
    refine ⟨areFinite_pending s finite, ?_⟩
    simp only [weight, queueWeight_pending, Goal.weight]
    omega
  case case9 relation args =>
    simp [isFinite, weight, Goal.weight, weighs relation, Relation.weight]
  case case11 label goal _ live started =>
    rw [start_eq started]
    simp only [Goal.isFinite] at finite
    simp [isFinite, finite, weight, Goal.weight]
  case case12 => cases finite

theorem each_lowers {live below : Search} {goals : List Goal} {rest : Search}
    (lower : rest.weight db w < live.weight db w) :
    (each rest goals below).weight db w < (each live goals below).weight db w := by
  simp only [weight]
  have := Nat.mul_lt_mul_of_pos_right lower (Goal.chainWeight_pos (w := w) goals)
  omega

/-- Every step leaves less than there was. -/
theorem step_lowers (weighs : Weighs db w) {search : Search} {p : Progress} {rest : Search}
    (finite : search.isFinite) (left : (search.step db p).1.rest? = some rest) :
    rest.isFinite ∧ rest.weight db w < search.weight db w := by
  fun_induction step db search p generalizing rest
  case case2 => exact enter_lowers weighs finite left
  all_goals
    simp only [Outcome.rest?_ofUnifier, Outcome.rest?_answer, Outcome.rest?_working,
      Outcome.rest?_ended, Outcome.rest?_failed, Option.some.injEq, reduceCtorEq] at left
  all_goals subst left
  all_goals
    simp only [isFinite, areFinite, Goal.areFinite, Bool.and_eq_true, Bool.false_eq_true] at finite
  case case3 =>
    simp only [isFinite, weight, Relation.walkWeight, List.drop_zero, true_and]
    omega
  case case4 found =>
    obtain ⟨inside, _⟩ := List.getElem?_eq_some_iff.mp found
    simp only [isFinite, weight, Relation.walkWeight, true_and]
    omega
  case case6 args _ _ p rule found _ _ used =>
    obtain ⟨inside, here⟩ := List.getElem?_eq_some_iff.mp found
    obtain ⟨salt, same⟩ := rule.use_goal args p
    rw [used] at same
    subst same
    simp only [isFinite, rule.goal_isFinite, Goal.areFinite, Bool.and_self, weight,
      rule.goal_weight, Goal.chainWeight, Nat.mul_one, true_and]
    rw [List.drop_eq_getElem_cons inside, here]
    simp only [Relation.rulesWeight]
    omega
  case case7 worked ih =>
    have lower := ih finite.1.1 (by rw [worked]; rfl)
    exact ⟨by simp [isFinite, lower.1, finite.1.2, finite.2], each_lowers lower.2⟩
  case case8 live goals _ _ _ _ _ =>
    have first := live.weight_pos weighs
    have after := Goal.chainWeight_pos (w := w) goals
    have := Nat.mul_pos first after
    exact ⟨finite.2, by simp only [weight]; omega⟩
  case case10 answered ih =>
    have lower := ih finite.1.1 (by rw [answered]; rfl)
    exact ⟨by simp [isFinite, Goal.areFinite, lower.1, finite.2], each_lowers lower.2⟩
  case case12 answered goal goals next started ih =>
    have lower := ih finite.1.1 (by rw [answered]; rfl)
    rw [start_eq started]
    refine ⟨by simp [isFinite, Goal.areFinite, lower.1, finite.1.2, finite.2], ?_⟩
    simp only [weight, Goal.chainWeight]
    have more := Nat.mul_le_mul_right (1 + goal.weight w * Goal.chainWeight w goals) lower.2
    rw [Nat.succ_mul] at more
    omega
  case case14 worked ih =>
    have lower := ih finite.1 (by rw [worked]; rfl)
    exact ⟨by simp [isFinite, areFinite, lower.1, finite.2],
      by simp only [weight, queueWeight]; omega⟩
  case case15 first _ _ _ _ _ =>
    have := first.weight_pos weighs
    exact ⟨finite.2, by simp only [weight, queueWeight]; omega⟩
  case case17 answered ih =>
    have lower := ih finite.1 (by rw [answered]; rfl)
    refine ⟨by simp [isFinite, areFinite, areFinite_append, lower.1, finite.2], ?_⟩
    simp only [weight, queueWeight, queueWeight_append]
    omega
  case case18 worked ih =>
    have lower := ih finite (by rw [worked]; rfl)
    exact ⟨lower.1, by simp only [weight]; omega⟩
  case case21 answered ih =>
    have lower := ih finite (by rw [answered]; rfl)
    exact ⟨lower.1, by simp only [weight]; omega⟩

theorem working_lowers (weighs : Weighs db w) {search : Search} {p q : Progress} {rest : Search}
    (finite : search.isFinite) (stepped : search.step db p = (.working rest, q)) :
    rest.isFinite ∧ rest.weight db w < search.weight db w :=
  step_lowers weighs finite (by rw [stepped]; rfl)

theorem answer_lowers (weighs : Weighs db w) {search : Search} {p q : Progress} {rest : Search}
    {s : Substitution} (finite : search.isFinite)
    (stepped : search.step db p = (.answer s rest, q)) :
    rest.isFinite ∧ rest.weight db w < search.weight db w :=
  step_lowers weighs finite (by rw [stepped]; rfl)

end Search
end Rulebook
