import Rulebook.Proofs.Search.Pairing
import Rulebook.Proofs.Search.Invariant

/-! Searches that reflect each other. Of two searches, the one may have other names for its
variables: as long as names stand for one another one by one, both take the same steps, and what the
one answers is what the other answers but for the names. Each use of a rule may pair new names. -/
namespace Rulebook

def Search.rule? (db : Database) : Search → Option Rule
  | .rules r _ _ next => (db.relation r).rules[next]?
  | .each live _ _ => live.rule? db
  | .round (first :: _) => first.rule? db
  | .tracing _ inner => inner.rule? db
  | _ => none

/-- The step uses up what the rule uses up. -/
theorem Search.nextIds_of_rule {db : Database} {search : Search} {rule : Rule}
    (found : search.rule? db = some rule) (p : Progress) :
    ∃ args, (search.step db p).2.nextIds = (rule.use args p).2.nextIds := by
  fun_induction rule? db search with
  | case1 r args s next =>
    refine ⟨args, ?_⟩
    rw [step, found]
  | case2 live rest below ih =>
    obtain ⟨args, same⟩ := ih found
    refine ⟨args, same ▸ ?_⟩
    rw [step]
    split <;> rename_i stepped <;> rw [stepped]
    split
    · rfl
    · split <;> rfl
  | case3 first others ih | case4 label inner ih =>
    obtain ⟨args, same⟩ := ih found
    refine ⟨args, same ▸ ?_⟩
    rw [step]
    split <;> rename_i stepped <;> rw [stepped] <;> rfl
  | case5 => cases found

namespace Pairing
variable {P Q : Pairing} {s t : Substitution} {goal goal' : Goal}

inductive SameGoal (P : Pairing) : Goal → Goal → Prop where
  | unify {left right left' right' : Term} : P.Same left left' → P.Same right right' →
      SameGoal P (.unify left right) (.unify left' right')
  | unifyAll {left right left' right' : List Term} : List.Forall₂ P.Same left left' →
      List.Forall₂ P.Same right right' → SameGoal P (.unifyAll left right) (.unifyAll left' right')
  | query {r : RelationId} {args args' : List Term} : List.Forall₂ P.Same args args' →
      SameGoal P (.query r args) (.query r args')
  | nil : SameGoal P (.all []) (.all [])
  | cons {first first' : Goal} {rest rest' : List Goal} : SameGoal P first first' →
      SameGoal P (.all rest) (.all rest') →
      SameGoal P (.all (first :: rest)) (.all (first' :: rest'))

/-- Goals that go on alike under these substitutions: what they begin with has unifiers that reflect
each other, and all else is the same but for its names. -/
inductive Opens (P : Pairing) (s t : Substitution) : Goal → Goal → Prop where
  | unify {left right left' right' : Term} : P.Reflects s t → P.Same left left' →
      P.Same right right' → Opens P s t (.unify left right) (.unify left' right')
  | unifyAll {left right left' right' : List Term} :
      Option.Rel P.Reflects (s.unifyAll left right) (t.unifyAll left' right') →
      Opens P s t (.unifyAll left right) (.unifyAll left' right')
  | query {r : RelationId} {args args' : List Term} : P.Reflects s t →
      List.Forall₂ P.Same args args' → Opens P s t (.query r args) (.query r args')
  | nil : P.Reflects s t → Opens P s t (.all []) (.all [])
  | cons {first first' : Goal} {rest rest' : List Goal} : Opens P s t first first' →
      P.SameGoal (.all rest) (.all rest') →
      Opens P s t (.all (first :: rest)) (.all (first' :: rest'))

theorem SameGoal.opens (same : P.SameGoal goal goal') (reflects : P.Reflects s t) :
    P.Opens s t goal goal' := by
  induction same with
  | unify first second => exact .unify reflects first second
  | unifyAll first second => exact .unifyAll (reflects.unifyAll first second)
  | query args => exact .query reflects args
  | nil => exact .nil reflects
  | cons _ rest first _ => exact .cons first rest

theorem SameGoal.grows (same : P.SameGoal goal goal') (grows : P.Grows Q) :
    Q.SameGoal goal goal' := by
  induction same with
  | unify first second => exact .unify (first.grows grows) (second.grows grows)
  | unifyAll first second => exact .unifyAll (same_grows first grows) (same_grows second grows)
  | query args => exact .query (same_grows args grows)
  | nil => exact .nil
  | cons _ _ first rest => exact .cons first rest

section Salting
variable {salt salt' : String}

theorem same_salted {terms : List Term}
    (each : ∀ term ∈ terms, P.Same (term.salted salt) (term.salted salt')) :
    List.Forall₂ P.Same (terms.map (·.salted salt)) (terms.map (·.salted salt')) := by
  rw [List.forall₂_map_left_iff, List.forall₂_map_right_iff, List.forall₂_same]
  exact each

/-- Conditions are the same under either salt, if what they are written with is. -/
theorem sameGoal_conditions {conditions : List (RelationId × List Term)}
    (terms : ∀ condition ∈ conditions, ∀ term ∈ condition.2,
      P.Same (term.salted salt) (term.salted salt')) :
    P.SameGoal
      (.all (conditions.map fun (relation, terms) => .query relation (terms.map (·.salted salt))))
      (.all (conditions.map fun (relation, terms) =>
        .query relation (terms.map (·.salted salt')))) := by
  induction conditions with
  | nil => exact .nil
  | cons condition conditions ih =>
    obtain ⟨here, others⟩ := List.forall_mem_cons.mp terms
    exact .cons (.query (same_salted here)) (ih others)

/-- A rule in use is the same under either salt, if what it is written with is. -/
theorem sameGoal_rule {rule : Rule} {args args' : List Term}
    (same : List.Forall₂ P.Same args args')
    (terms : ∀ term ∈ rule.terms, P.Same (term.salted salt) (term.salted salt')) :
    P.SameGoal (rule.goal args salt) (rule.goal args' salt') := by
  obtain ⟨params, conditions⟩ := List.forall_mem_append.mp terms
  refine .cons (.unifyAll same (same_salted params)) (sameGoal_conditions ?_)
  exact fun condition stored term inside =>
    conditions term (List.mem_flatMap.mpr ⟨condition, stored, inside⟩)

end Salting

theorem unifier_grows {u v : Option Substitution} (related : Option.Rel P.Reflects u v)
    (grows : P.Grows Q) : Option.Rel Q.Reflects u v := by
  cases related with
  | none => exact .none
  | some reflects => exact .some (reflects.grows grows)

theorem Opens.grows (opens : P.Opens s t goal goal') (grows : P.Grows Q) :
    Q.Opens s t goal goal' := by
  induction opens with
  | unify reflects first second =>
    exact .unify (reflects.grows grows) (first.grows grows) (second.grows grows)
  | unifyAll related => exact .unifyAll (unifier_grows related grows)
  | query reflects args => exact .query (reflects.grows grows) (same_grows args grows)
  | nil reflects => exact .nil (reflects.grows grows)
  | cons _ rest first => exact .cons first (rest.grows grows)

theorem Opens.start (opens : P.Opens s t goal goal') :
    Search.start goal s = .ok (.pending goal s) ∧
      Search.start goal' t = .ok (.pending goal' t) := by
  cases opens <;> exact ⟨rfl, rfl⟩

/-- Searches that go on alike. -/
inductive Linked (P : Pairing) : Search → Search → Prop where
  | ended : Linked P .ended .ended
  | pending {goal goal' : Goal} {s t : Substitution} : P.Opens s t goal goal' →
      Linked P (.pending goal s) (.pending goal' t)
  | facts {r : RelationId} {args args' : List Term} {s t : Substitution} {next : Nat} :
      List.Forall₂ P.Same args args' → P.Reflects s t →
      Linked P (.facts r args s next) (.facts r args' t next)
  | rules {r : RelationId} {args args' : List Term} {s t : Substitution} {next : Nat} :
      List.Forall₂ P.Same args args' → P.Reflects s t →
      Linked P (.rules r args s next) (.rules r args' t next)
  | each {live live' below below' : Search} {rest rest' : List Goal} : Linked P live live' →
      P.SameGoal (.all rest) (.all rest') → Linked P below below' →
      Linked P (.each live rest below) (.each live' rest' below')

theorem Linked.grows {search other : Search} (linked : P.Linked search other) (grows : P.Grows Q) :
    Q.Linked search other := by
  induction linked with
  | ended => exact .ended
  | pending opens => exact .pending (opens.grows grows)
  | facts args reflects => exact .facts (same_grows args grows) (reflects.grows grows)
  | rules args reflects => exact .rules (same_grows args grows) (reflects.grows grows)
  | each _ rest _ live below => exact .each live (rest.grows grows) below

theorem SameGoal.isFinite (same : P.SameGoal goal goal') : goal.isFinite ∧ goal'.isFinite := by
  induction same with
  | cons _ _ first rest =>
    simp only [Goal.isFinite] at rest
    simp only [Goal.isFinite, Goal.areFinite, first.1, first.2, rest.1, rest.2, Bool.and_self,
      and_self]
  | _ => exact ⟨rfl, rfl⟩

theorem Opens.isFinite (opens : P.Opens s t goal goal') : goal.isFinite ∧ goal'.isFinite := by
  induction opens with
  | cons _ rest first =>
    have rest := rest.isFinite
    simp only [Goal.isFinite] at rest
    simp only [Goal.isFinite, Goal.areFinite, first.1, first.2, rest.1, rest.2, Bool.and_self,
      and_self]
  | _ => exact ⟨rfl, rfl⟩

theorem Linked.isFinite {search other : Search} (linked : P.Linked search other) :
    search.isFinite ∧ other.isFinite := by
  induction linked with
  | pending opens => exact opens.isFinite
  | each _ rest _ live below =>
    have rest := rest.isFinite
    simp only [Goal.isFinite] at rest
    simp only [Search.isFinite, live.1, live.2, below.1, below.2, rest.1, rest.2, Bool.and_self,
      and_self]
  | _ => exact ⟨rfl, rfl⟩

inductive Outcomes (P : Pairing) : Outcome → Outcome → Prop where
  | answer {s t : Substitution} {rest rest' : Search} : P.Reflects s t → P.Linked rest rest' →
      Outcomes P (.answer s rest) (.answer t rest')
  | working {rest rest' : Search} : P.Linked rest rest' →
      Outcomes P (.working rest) (.working rest')
  | ended : Outcomes P .ended .ended

theorem outcomes_ofUnifier {u v : Option Substitution} {rest rest' : Search}
    (related : Option.Rel P.Reflects u v) (linked : P.Linked rest rest') :
    P.Outcomes (.ofUnifier u rest) (.ofUnifier v rest') := by
  cases related with
  | none => exact .working linked
  | some reflects => exact .answer reflects linked

/-- What the names of a pairing and the ids on either side have to do with each other, kept along a
search of these relations: facts are made of names that stand for themselves, and rules can be used
where there is room for them. -/
structure Keeps (db : Database) (world : Pairing → Progress → Progress → Prop)
    (room : Rule → Progress → Progress → Prop) : Prop where
  stored : ∀ {P p q}, world P p q → ∀ r, ∀ fact ∈ (db.relation r).facts,
    List.Forall₂ P.Same fact fact
  used : ∀ {P p q}, world P p q → ∀ {r args args'}, ∀ rule ∈ (db.relation r).rules,
    List.Forall₂ P.Same args args' → room rule p q →
    ∃ Q, P.Grows Q ∧ world Q (rule.use args p).2 (rule.use args' q).2 ∧
      Q.SameGoal (rule.use args p).1 (rule.use args' q).1

def Steps (P : Pairing) (world : Pairing → Progress → Progress → Prop)
    (one other : Outcome × Progress) : Prop :=
  ∃ Q, P.Grows Q ∧ world Q one.2 other.2 ∧ Q.Outcomes one.1 other.1

section Stepping
variable {db : Database} {world : Pairing → Progress → Progress → Prop}
  {room : Rule → Progress → Progress → Prop} {p q : Progress}

/-- A step that pairs no names. -/
theorem Outcomes.steps {one other : Outcome} (outcomes : P.Outcomes one other)
    (here : world P p q) : P.Steps world (one, p) (other, q) :=
  ⟨P, .refl P, here, outcomes⟩

theorem enter_steps (here : world P p q) (opens : P.Opens s t goal goal') :
    P.Steps world (Search.enter s p goal) (Search.enter t q goal') := by
  cases opens with
  | unify reflects first second =>
    obtain ⟨u, v, one, other, related⟩ := reflects.unify first second
    simp only [Search.enter, one, other]
    exact (outcomes_ofUnifier related .ended).steps here
  | unifyAll related => exact (outcomes_ofUnifier related .ended).steps here
  | query reflects args => exact (Outcomes.working (.facts args reflects)).steps here
  | nil reflects => exact (Outcomes.answer reflects .ended).steps here
  | cons first rest =>
    obtain ⟨one, other⟩ := first.start
    simp only [Search.enter, one, other]
    exact (Outcomes.working (.each (.pending first) rest .ended)).steps here

theorem Linked.rule?_eq {search other : Search} (linked : P.Linked search other) :
    search.rule? db = other.rule? db := by
  induction linked with
  | each _ _ _ live _ => exact live
  | _ => rfl

/-- Searches that go on alike take the same step. -/
theorem Linked.steps (keeps : Keeps db world room) {search other : Search}
    (linked : P.Linked search other) (here : world P p q)
    (fits : ∀ rule, search.rule? db = some rule → room rule p q) :
    P.Steps world (search.step db p) (other.step db q) := by
  induction linked with
  | ended => exact Outcomes.ended.steps here
  | pending opens => exact enter_steps here opens
  | @facts r args args' s t next same reflects =>
    rw [Search.step, Search.step]
    cases found : (db.relation r).facts[next]? with
    | none => exact (Outcomes.working (.rules same reflects)).steps here
    | some fact =>
      have stored := keeps.stored here r fact (List.mem_of_getElem? found)
      have related := reflects.unifyAll same stored
      exact (outcomes_ofUnifier related (.facts same reflects)).steps here
  | @rules r args args' s t next same reflects =>
    rw [Search.step, Search.step]
    cases found : (db.relation r).rules[next]? with
    | none => exact Outcomes.ended.steps here
    | some rule =>
      obtain ⟨Q, grows, there, goal⟩ :=
        keeps.used here rule (List.mem_of_getElem? found) same (fits rule found)
      have reflects := reflects.grows grows
      exact ⟨Q, grows, there, .working (.each (.pending (goal.opens reflects)) .nil
        (.rules (same_grows same grows) reflects))⟩
  | @each live live' below below' rest rest' _ same last ih _ =>
    obtain ⟨Q, grows, there, outcomes⟩ := ih fits
    rw [Search.step, Search.step]
    generalize live.step db p = one, live'.step db q = two at there outcomes
    obtain ⟨one, p⟩ := one
    obtain ⟨two, q⟩ := two
    have last := last.grows grows
    have same := same.grows grows
    cases outcomes with
    | working live => exact ⟨Q, grows, there, .working (.each live same last)⟩
    | ended => exact ⟨Q, grows, there, .working last⟩
    | answer reflects live =>
      cases same with
      | nil => exact ⟨Q, grows, there, .answer reflects (.each live .nil last)⟩
      | cons first behind =>
        have opens := first.opens reflects
        obtain ⟨one, other⟩ := opens.start
        simp only [one, other]
        exact ⟨Q, grows, there,
          .working (.each (.pending opens) behind (.each live (.cons first behind) last))⟩

end Stepping
end Pairing
end Rulebook
