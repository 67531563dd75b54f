import Rulebook.Action
import Rulebook.Proofs.Naming
import Rulebook.Proofs.Search.Run

/-! Invariants of a search. What holds of each substitution and each goal that a suspended search
keeps, as far as ids have been used up, holds of the search; a step keeps it if unifying, opening a
goal and using a rule do. -/
namespace Rulebook

namespace Progress

/-- No id has been given back. -/
def Before (p q : Progress) : Prop :=
  p.nextIds.length = q.nextIds.length ∧ ∀ source, p.nextId source ≤ q.nextId source

theorem Before.refl (p : Progress) : p.Before p := ⟨rfl, fun _ => Int.le_refl _⟩

theorem Before.trans {p q r : Progress} (first : p.Before q) (second : q.Before r) : p.Before r :=
  ⟨first.1.trans second.1, fun source => Int.le_trans (first.2 source) (second.2 source)⟩

theorem before_report (p : Progress) (event : Event) : p.Before (p.report event) :=
  ⟨rfl, fun _ => Int.le_refl _⟩

theorem nextId_advance (p : Progress) {source : SourceId} (inside : source < p.nextIds.length) :
    (p.advance source).nextId source = p.nextId source + 1 := by
  simp [advance, nextId, List.getD_eq_getElem?_getD, inside]

theorem before_advance (p : Progress) (source : SourceId) : p.Before (p.advance source) := by
  refine ⟨(List.length_modify ..).symm, fun other => ?_⟩
  by_cases inside : other < p.nextIds.length
  · simp only [advance, nextId, List.getD_eq_getElem?_getD, List.getElem?_modify,
      List.getElem?_eq_getElem inside]
    split <;> simp only [Option.map_eq_map, Option.map_some, Option.getD_some] <;> omega
  · have out : p.nextIds[other]? = none := List.getElem?_eq_none (Nat.le_of_not_lt inside)
    simp [advance, nextId, List.getD_eq_getElem?_getD, List.getElem?_modify, out]

end Progress

theorem Rule.before_use (rule : Rule) (args : List Term) (p : Progress) :
    p.Before (rule.use args p).2 := by
  unfold use
  split
  · exact .refl p
  · exact p.before_advance _

inductive Goal.Named (ok : String → Prop) : Goal → Prop where
  | unify {left right : Term} : left.Named ok → right.Named ok → Named ok (.unify left right)
  | unifyAll {left right : List Term} : (∀ term ∈ left, term.Named ok) →
      (∀ term ∈ right, term.Named ok) → Named ok (.unifyAll left right)
  | all {goals : List Goal} : (∀ goal ∈ goals, Named ok goal) → Named ok (.all goals)
  | any {goals : List Goal} : (∀ goal ∈ goals, Named ok goal) → Named ok (.any goals)
  | query {r : RelationId} {args : List Term} : (∀ term ∈ args, term.Named ok) →
      Named ok (.query r args)
  | traced {label : String} {goal : Goal} : Named ok goal → Named ok (.traced label goal)

namespace Goal

theorem Named.imp {ok fine : String → Prop} (more : ∀ name, ok name → fine name) {goal : Goal}
    (named : goal.Named ok) : goal.Named fine := by
  induction named with
  | unify left right => exact .unify (left.imp more) (right.imp more)
  | unifyAll left right =>
    exact .unifyAll (fun term inside => (left term inside).imp more)
      fun term inside => (right term inside).imp more
  | all _ ih => exact .all ih
  | any _ ih => exact .any ih
  | query args => exact .query fun term inside => (args term inside).imp more
  | traced _ ih => exact .traced ih

theorem areFinite_of_forall {goals : List Goal} (finite : ∀ goal ∈ goals, goal.isFinite = true) :
    Goal.areFinite goals = true := by
  induction goals with
  | nil => rfl
  | cons goal goals ih =>
    obtain ⟨first, others⟩ := List.forall_mem_cons.mp finite
    simp only [Goal.areFinite, first, ih others, Bool.and_self]

/-- A goal whose terms are all known has no stream in it. -/
theorem Named.isFinite {ok : String → Prop} {goal : Goal} (named : goal.Named ok) :
    goal.isFinite = true := by
  induction named with
  | all _ ih | any _ ih => exact areFinite_of_forall ih
  | traced _ ih => exact ih
  | _ => rfl

end Goal

theorem Rule.goal_named {ok : String → Prop} (rule : Rule) {args : List Term} {salt : String}
    (named : ∀ term ∈ args, term.Named ok) (fine : ∀ name, ok (salt ++ name)) :
    (rule.goal args salt).Named ok := by
  have salted (terms : List Term) : ∀ term ∈ terms.map (·.salted salt), term.Named ok := by
    intro term inside
    obtain ⟨plain, _, rfl⟩ := List.mem_map.mp inside
    exact plain.named_salted fine
  refine .all (List.forall_mem_cons.mpr
    ⟨.unifyAll named (salted rule.params), fun goal inside => ?_⟩)
  obtain ⟨condition, _, rfl⟩ := List.mem_map.mp inside
  exact .query (salted condition.2)

theorem Rule.goal_named_unsalted {ok : String → Prop} (rule : Rule) {args : List Term}
    (named : ∀ term ∈ args, term.Named ok) (params : ∀ term ∈ rule.params, term.Named ok)
    (conditions : ∀ condition ∈ rule.conditions, ∀ term ∈ condition.2, term.Named ok) :
    (rule.goal args "").Named ok := by
  have unsalted (terms : List Term) : terms.map (·.salted "") = terms := by
    simp only [Term.salted_empty, List.map_id']
  rw [goal, unsalted]
  refine .all (List.forall_mem_cons.mpr ⟨.unifyAll named params, fun goal inside => ?_⟩)
  obtain ⟨condition, member, rfl⟩ := List.mem_map.mp inside
  refine .query ?_
  rw [unsalted]
  exact conditions condition member

def Rule.Plain (rule : Rule) : Prop :=
  (∀ term ∈ rule.params, term.Plain) ∧
    ∀ condition ∈ rule.conditions, ∀ term ∈ condition.2, term.Plain

theorem Rule.Plain.goal_named {ok : String → Prop} {rule : Rule} (plain : rule.Plain)
    (fine : ∀ name, '?' ∉ name.toList ∧ '/' ∉ name.toList → ok name) {args : List Term}
    (named : ∀ term ∈ args, term.Named ok) : (rule.goal args "").Named ok :=
  rule.goal_named_unsalted named (fun term inside => (plain.1 term inside).imp fine)
    fun condition member term inside => (plain.2 condition member term inside).imp fine

theorem named_any (terms : List Term) : ∀ term ∈ terms, term.Named fun _ => True := by
  intro term _
  cases term <;> trivial

theorem query_named (r : RelationId) (args : List Term) :
    (Goal.query r args).Named fun _ => True :=
  .query (named_any args)

theorem factsGoal_named {ok : String → Prop} {relation : Relation} {args : List Term}
    (named : ∀ term ∈ args, term.Named ok)
    (stored : ∀ fact ∈ relation.facts, ∀ term ∈ fact, term.Named ok) :
    (relation.factsGoal args).Named ok := by
  refine .any fun goal inside => ?_
  obtain ⟨fact, member, rfl⟩ := List.mem_map.mp inside
  exact .unifyAll named (stored fact member)

theorem Rule.use_named (rule : Rule) (args : List Term) (p : Progress) :
    (rule.use args p).1.Named fun _ => True := by
  obtain ⟨salt, same⟩ := rule.use_goal args p
  rw [same]
  exact rule.goal_named (named_any args) fun _ => trivial

theorem Action.branches_named (args : List Term) (out : Term) (entries : List (Rule × String))
    (p : Progress) : ∀ goal ∈ (Action.branches args out entries p).1, goal.Named fun _ => True := by
  induction entries generalizing p with
  | nil => simp [Action.branches]
  | cons entry entries ih =>
    refine List.forall_mem_cons.mpr ⟨.all (List.forall_mem_cons.mpr ⟨?_, ?_⟩), ih _⟩
    · exact entry.1.use_named args p
    · refine List.forall_mem_singleton.mpr (.unify ?_ trivial)
      cases out <;> trivial

/-- Without salts the alternatives of an action are its rules as they stand. -/
theorem Action.branches_unsalted (args : List Term) (out : Term) {entries : List (Rule × String)}
    (unsalted : ∀ entry ∈ entries, entry.1.source = none) (p : Progress) :
    branches args out entries p =
      (entries.map fun entry => .all [entry.1.goal args "", .unify out (.lit entry.2)], p) := by
  induction entries with
  | nil => rfl
  | cons entry entries ih =>
    obtain ⟨rule, payload⟩ := entry
    obtain ⟨first, others⟩ := List.forall_mem_cons.mp unsalted
    have used : rule.use args p = (rule.goal args "", p) := by
      rw [Rule.use]
      dsimp only at first
      rw [first]
    simp only [branches, used, ih others, List.map_cons]

theorem Action.goal_unsalted {action : Action}
    (unsalted : ∀ entry ∈ action.entries, entry.1.source = none) (args : List Term) (out : Term)
    (p : Progress) : action.goal args out p =
      (.any (action.entries.map fun entry =>
        .all [entry.1.goal args "", .unify out (.lit entry.2)]), p) := by
  rw [goal, branches_unsalted args out unsalted]

namespace Search

/-- What holds of every substitution and every goal that is left to search. -/
inductive Every (okSub : Substitution → Prop) (okGoal : Goal → Prop) : Search → Prop where
  | ended : Every okSub okGoal .ended
  | pending {goal : Goal} {s : Substitution} : okGoal goal → okSub s →
      Every okSub okGoal (.pending goal s)
  | facts {r : RelationId} {args : List Term} {s : Substitution} {next : Nat} :
      okGoal (.query r args) → okSub s → Every okSub okGoal (.facts r args s next)
  | rules {r : RelationId} {args : List Term} {s : Substitution} {next : Nat} :
      okGoal (.query r args) → okSub s → Every okSub okGoal (.rules r args s next)
  | each {live below : Search} {rest : List Goal} : Every okSub okGoal live →
      (∀ goal ∈ rest, okGoal goal) → Every okSub okGoal below →
      Every okSub okGoal (.each live rest below)
  | round {queue : List Search} : (∀ search ∈ queue, Every okSub okGoal search) →
      Every okSub okGoal (.round queue)
  | tracing {label : String} {inner : Search} : Every okSub okGoal inner →
      Every okSub okGoal (.tracing label inner)

theorem Every.imp {okSub fineSub : Substitution → Prop} {okGoal fineGoal : Goal → Prop}
    (moreSub : ∀ s, okSub s → fineSub s) (moreGoal : ∀ goal, okGoal goal → fineGoal goal)
    {search : Search} (every : Every okSub okGoal search) : Every fineSub fineGoal search := by
  induction every with
  | ended => exact .ended
  | pending goal s => exact .pending (moreGoal _ goal) (moreSub _ s)
  | facts goal s => exact .facts (moreGoal _ goal) (moreSub _ s)
  | rules goal s => exact .rules (moreGoal _ goal) (moreSub _ s)
  | each _ rest _ live below =>
    exact .each live (fun goal inside => moreGoal goal (rest goal inside)) below
  | round _ queue => exact .round queue
  | tracing _ inner => exact .tracing inner

/-- What unifying, opening goals and using rules keep, as far as ids have been used up. -/
structure Kept (db : Database) (okSub : Progress → Substitution → Prop)
    (okGoal : Progress → Goal → Prop) : Prop where
  laterSub : ∀ {p q : Progress} {s}, p.Before q → okSub p s → okSub q s
  laterGoal : ∀ {p q : Progress} {goal}, p.Before q → okGoal p goal → okGoal q goal
  unify : ∀ {p s t left right}, okGoal p (.unify left right) → okSub p s →
    s.unify left right = .ok (some t) → okSub p t
  unifyAll : ∀ {p s t left right}, okGoal p (.unifyAll left right) → okSub p s →
    s.unifyAll left right = some t → okSub p t
  fact : ∀ {p s t r args}, okGoal p (.query r args) → okSub p s →
    ∀ fact ∈ (db.relation r).facts, s.unifyAll args fact = some t → okSub p t
  all : ∀ {p goals}, okGoal p (.all goals) → ∀ goal ∈ goals, okGoal p goal
  any : ∀ {p goals}, okGoal p (.any goals) → ∀ goal ∈ goals, okGoal p goal
  traced : ∀ {p label goal}, okGoal p (.traced label goal) → okGoal p goal
  stream : ∀ {p answers}, ¬okGoal p (.stream answers)
  use : ∀ {p r args}, okGoal p (.query r args) → ∀ rule ∈ (db.relation r).rules,
    okGoal (rule.use args p).2 (rule.use args p).1

inductive Yields (okSub : Substitution → Prop) (okGoal : Goal → Prop) : Outcome → Prop where
  | answer {s : Substitution} {rest : Search} : okSub s → Every okSub okGoal rest →
      Yields okSub okGoal (.answer s rest)
  | working {rest : Search} : Every okSub okGoal rest → Yields okSub okGoal (.working rest)
  | ended : Yields okSub okGoal .ended
  | failed {fault : Fault} : Yields okSub okGoal (.failed fault)

theorem Yields.ofUnifier {okSub : Substitution → Prop} {okGoal : Goal → Prop}
    {unifier : Option Substitution} {rest : Search} (found : ∀ t, unifier = some t → okSub t)
    (every : Every okSub okGoal rest) : Yields okSub okGoal (.ofUnifier unifier rest) := by
  cases unifier with
  | none => exact .working every
  | some t => exact .answer (found t rfl) every

section Stepping
variable {db : Database} {okSub : Progress → Substitution → Prop} {okGoal : Progress → Goal → Prop}

theorem enter_before (s : Substitution) (p : Progress) (goal : Goal) :
    p.Before (enter s p goal).2 := by
  fun_cases enter s p goal
  case case10 => exact p.before_report _
  case case11 => exact p.before_report _
  all_goals exact .refl p

/-- Ids are only ever used up. -/
theorem step_before (search : Search) (p : Progress) : p.Before (search.step db p).2 := by
  fun_induction step db search p with
  | case2 goal s p => exact enter_before s p goal
  | case6 r args s next p rule found goal q used =>
    have before := rule.before_use args p
    rwa [used] at before
  | case7 _ _ _ _ _ _ stepped ih | case8 _ _ _ _ _ stepped ih | case9 _ _ _ _ _ _ stepped ih
  | case10 _ _ _ _ _ _ stepped ih | case14 _ _ _ _ _ stepped ih | case15 _ _ _ _ stepped ih
  | case16 _ _ _ _ _ stepped ih | case17 _ _ _ _ _ _ stepped ih | case18 _ _ _ _ _ stepped ih
  | case20 _ _ _ _ _ stepped ih => rwa [stepped] at ih
  | case11 _ _ _ _ _ _ stepped _ _ _ _ ih | case12 _ _ _ _ _ _ stepped _ _ _ _ ih =>
    rwa [stepped] at ih
  | case19 _ _ _ q stepped ih | case21 _ _ _ _ _ q stepped ih =>
    rw [stepped] at ih
    exact ih.trans (q.before_report _)
  | _ => exact .refl _

theorem enter_kept (kept : Kept db okSub okGoal) {goal : Goal} {s : Substitution} {p : Progress}
    (fine : okGoal p goal) (sound : okSub p s) :
    Yields (okSub (enter s p goal).2) (okGoal (enter s p goal).2) (enter s p goal).1 := by
  fun_cases enter s p goal with
  | case1 left right fault failed => exact .failed
  | case2 left right unifier unified =>
    exact .ofUnifier (fun t same => kept.unify fine sound (same ▸ unified)) .ended
  | case3 left right => exact .ofUnifier (fun t same => kept.unifyAll fine sound same) .ended
  | case4 => exact .answer sound .ended
  | case5 goal goals fault started => exact .failed
  | case6 goal goals live started =>
    rw [start_eq started]
    obtain ⟨one, others⟩ := List.forall_mem_cons.mp (kept.all fine)
    exact .working (.each (.pending one sound) others .ended)
  | case7 goals searchable =>
    refine .working (.round fun search inside => ?_)
    obtain ⟨goal, member, rfl⟩ := List.mem_map.mp inside
    exact .pending (kept.any fine goal member) sound
  | case8 => exact .failed
  | case9 relation args => exact .working (.facts fine sound)
  | case10 => exact .failed
  | case11 label goal q live started =>
    rw [start_eq started]
    have before := p.before_report (.started label)
    exact .working (.tracing (.pending (kept.laterGoal before (kept.traced fine))
      (kept.laterSub before sound)))
  | case12 answers => exact absurd fine kept.stream
  | case13 => exact .failed

theorem Kept.later (kept : Kept db okSub okGoal) {p q : Progress} (before : p.Before q)
    {search : Search} (every : Every (okSub p) (okGoal p) search) :
    Every (okSub q) (okGoal q) search :=
  every.imp (fun _ => kept.laterSub before) fun _ => kept.laterGoal before

theorem before_of_step {search : Search} {p q : Progress} {outcome : Outcome}
    (stepped : search.step db p = (outcome, q)) : p.Before q := by
  have before : p.Before (search.step db p).2 := step_before search p
  rwa [stepped] at before

/-- What a step from here comes to is fine, as far as ids have been used up by then. -/
def Sustains (db : Database) (okSub : Progress → Substitution → Prop)
    (okGoal : Progress → Goal → Prop) (p : Progress) (search : Search) : Prop :=
  Yields (okSub (search.step db p).2) (okGoal (search.step db p).2) (search.step db p).1

section Steps
variable {p : Progress} {r : RelationId} {args : List Term} {s : Substitution} {next : Nat}

theorem facts_sustains (kept : Kept db okSub okGoal) (fine : okGoal p (.query r args))
    (sound : okSub p s) : (Search.facts r args s next).Sustains db okSub okGoal p := by
  rw [Sustains, step]
  cases found : (db.relation r).facts[next]? with
  | none => exact .working (.rules fine sound)
  | some fact =>
    have stored := List.mem_of_getElem? found
    exact .ofUnifier (fun t => kept.fact fine sound fact stored) (.facts fine sound)

theorem rules_sustains (kept : Kept db okSub okGoal) (fine : okGoal p (.query r args))
    (sound : okSub p s) : (Search.rules r args s next).Sustains db okSub okGoal p := by
  rw [Sustains, step]
  cases found : (db.relation r).rules[next]? with
  | none => exact .ended
  | some rule =>
    have before := rule.before_use args p
    have opened := kept.use fine rule (List.mem_of_getElem? found)
    exact .working (.each (.pending opened (kept.laterSub before sound)) (by simp)
      (.rules (kept.laterGoal before fine) (kept.laterSub before sound)))

theorem each_sustains (kept : Kept db okSub okGoal) {live below : Search} {rest : List Goal}
    (one : live.Sustains db okSub okGoal p) (others : ∀ goal ∈ rest, okGoal p goal)
    (last : Every (okSub p) (okGoal p) below) :
    (Search.each live rest below).Sustains db okSub okGoal p := by
  have before : p.Before (live.step db p).2 := step_before live p
  rw [Sustains] at one
  rw [Sustains, step]
  generalize live.step db p = stepped at one before ⊢
  obtain ⟨outcome, q⟩ := stepped
  have last : Every (okSub q) (okGoal q) below := kept.later before last
  have others (goal : Goal) (inside : goal ∈ rest) : okGoal q goal :=
    kept.laterGoal before (others goal inside)
  cases one with
  | working live => exact .working (.each live others last)
  | ended => exact .working last
  | failed => exact .failed
  | @answer s _ sound live =>
    cases rest with
    | nil => exact .answer sound (.each live (by simp) last)
    | cons goal goals =>
      dsimp only
      cases started : start goal s with
      | error fault => exact .failed
      | ok opened =>
        rw [start_eq started]
        obtain ⟨here, behind⟩ := List.forall_mem_cons.mp others
        exact .working (.each (.pending here sound) behind (.each live others last))

theorem round_sustains (kept : Kept db okSub okGoal) {queue : List Search}
    (every : ∀ search ∈ queue, Every (okSub p) (okGoal p) search)
    (sustains : ∀ search ∈ queue, search.Sustains db okSub okGoal p) :
    (Search.round queue).Sustains db okSub okGoal p := by
  cases queue with
  | nil =>
    rw [Sustains, step]
    exact .ended
  | cons first others =>
    have before : p.Before (first.step db p).2 := step_before first p
    have one := sustains first List.mem_cons_self
    rw [Sustains] at one
    rw [Sustains, step]
    generalize first.step db p = stepped at one before ⊢
    obtain ⟨outcome, q⟩ := stepped
    have behind (search : Search) (inside : search ∈ others) : Every (okSub q) (okGoal q) search :=
      kept.later before (every search (List.mem_cons_of_mem _ inside))
    cases one with
    | working first => exact .working (.round (List.forall_mem_cons.mpr ⟨first, behind⟩))
    | ended => exact .working (.round behind)
    | failed => exact .failed
    | answer sound first =>
      refine .answer sound (.round fun search inside => ?_)
      rcases List.mem_append.mp inside with inside | last
      · exact behind search inside
      · exact List.mem_singleton.mp last ▸ first

theorem tracing_sustains (kept : Kept db okSub okGoal) {label : String} {inner : Search}
    (one : inner.Sustains db okSub okGoal p) :
    (Search.tracing label inner).Sustains db okSub okGoal p := by
  rw [Sustains] at one
  rw [Sustains, step]
  generalize inner.step db p = stepped at one ⊢
  obtain ⟨outcome, q⟩ := stepped
  cases one with
  | working inner => exact .working (.tracing inner)
  | ended => exact .ended
  | failed => exact .failed
  | answer sound inner =>
    have before := q.before_report (.answered label)
    exact .answer (kept.laterSub before sound) (.tracing (kept.later before inner))

end Steps

/-- A step keeps what unifying, opening goals and using rules keep. -/
theorem step_kept (kept : Kept db okSub okGoal) {search : Search} {p : Progress}
    (every : Every (okSub p) (okGoal p) search) : search.Sustains db okSub okGoal p := by
  induction every with
  | ended => exact .ended
  | pending fine sound => exact enter_kept kept fine sound
  | facts fine sound => exact facts_sustains kept fine sound
  | rules fine sound => exact rules_sustains kept fine sound
  | each _ others last one => exact each_sustains kept one others last
  | round every sustains => exact round_sustains kept every sustains
  | tracing _ one => exact tracing_sustains kept one

theorem Kept.working (kept : Kept db okSub okGoal) {search rest : Search} {p q : Progress}
    (every : Every (okSub p) (okGoal p) search) (stepped : search.step db p = (.working rest, q)) :
    Every (okSub q) (okGoal q) rest := by
  have yields := step_kept kept every
  rw [Sustains, stepped] at yields
  cases yields with
  | working every => exact every

theorem Kept.answer (kept : Kept db okSub okGoal) {search rest : Search} {p q : Progress}
    {s : Substitution} (every : Every (okSub p) (okGoal p) search)
    (stepped : search.step db p = (.answer s rest, q)) :
    okSub q s ∧ Every (okSub q) (okGoal q) rest := by
  have yields := step_kept kept every
  rw [Sustains, stepped] at yields
  cases yields with
  | answer sound every => exact ⟨sound, every⟩

/-- What a search keeps holds of its answers and of what is left. -/
theorem Runs.kept (kept : Kept db okSub okGoal) {search last : Search} {p q : Progress}
    {answers : List Substitution} (run : Runs db search p answers last q)
    (every : Every (okSub p) (okGoal p) search) :
    p.Before q ∧ (∀ s ∈ answers, okSub q s) ∧ Every (okSub q) (okGoal q) last := by
  induction run with
  | refl => exact ⟨.refl _, by simp, every⟩
  | working stepped _ ih =>
    obtain ⟨before, sound, rest⟩ := ih (kept.working every stepped)
    exact ⟨(before_of_step stepped).trans before, sound, rest⟩
  | answer stepped _ ih =>
    obtain ⟨first, every⟩ := kept.answer every stepped
    obtain ⟨before, sound, rest⟩ := ih every
    exact ⟨(before_of_step stepped).trans before,
      List.forall_mem_cons.mpr ⟨kept.laterSub before first, sound⟩, rest⟩

theorem Runs.before {search last : Search} {p q : Progress} {answers : List Substitution}
    (run : Runs db search p answers last q) : p.Before q :=
  run.invariant (P := fun _ r => p.Before r)
    (fun before _ => before.trans (step_before _ _)) (.refl p)

/-- Also a harvest that was given up at once only uses ids up. -/
theorem harvest_before (wanted : Option Nat) (search : Search) (p : Progress) :
    p.Before (search.harvest db wanted p).progress := by
  by_cases layered : db.isLayered
  · by_cases finite : search.isFinite
    · have harvested := harvested_harvest layered wanted finite p
      generalize search.harvest db wanted p = found at harvested ⊢
      cases harvested with
      | enough run _ => exact run.before
      | ended run last | failed run last => exact run.before.trans (before_of_step last)
    · rw [harvest, dif_pos layered, dif_neg finite]
      exact .refl p
  · rw [harvest, dif_neg layered]
    exact .refl p

end Stepping
end Search
end Rulebook
