import Rulebook.Proofs.Derivation
import Rulebook.Proofs.Naming
import Rulebook.Proofs.Search.Invariant
import Rulebook.Proofs.Unification

/-! What a suspended search still stands for: the valuations under which some way through what is
left of it holds. A step adds none, so under every valuation of an answer the goal holds. -/
namespace Rulebook

/-- There is a way through what is left of the search that holds under the valuation. -/
inductive Search.Means (db : Database) (σ : Valuation) : Search → Prop where
  | pending {goal : Goal} {s : Substitution} : s.Holds σ → goal.Holds db σ →
      Means db σ (.pending goal s)
  | fact {r : RelationId} {args fact : List Term} {s : Substitution} {next place : Nat} :
      s.Holds σ → next ≤ place → (db.relation r).facts[place]? = some fact →
      args.map (Term.under σ) = fact.map (Term.under σ) → Means db σ (.facts r args s next)
  | factsDone {r : RelationId} {args : List Term} {s : Substitution} {next : Nat} :
      Means db σ (.rules r args s 0) → Means db σ (.facts r args s next)
  | rule {r : RelationId} {args : List Term} {rule : Rule} {s : Substitution} {next place : Nat}
      {ρ : Valuation} : s.Holds σ → next ≤ place → (db.relation r).rules[place]? = some rule →
      args.map (Term.under σ) = rule.params.map (Term.under ρ) →
      (∀ condition ∈ rule.conditions,
        Derivable db condition.1 (condition.2.map (Term.under ρ))) →
      Means db σ (.rules r args s next)
  | each {live below : Search} {rest : List Goal} : Means db σ live →
      (∀ goal ∈ rest, goal.Holds db σ) → Means db σ (.each live rest below)
  | eachDone {live below : Search} {rest : List Goal} : Means db σ below →
      Means db σ (.each live rest below)
  | round {queue : List Search} {search : Search} : search ∈ queue → Means db σ search →
      Means db σ (.round queue)
  | tracing {label : String} {inner : Search} : Means db σ inner →
      Means db σ (.tracing label inner)

inductive Outcome.Means (db : Database) (σ : Valuation) : Outcome → Prop where
  | answer {s : Substitution} {rest : Search} : s.Holds σ → Means db σ (.answer s rest)
  | later {s : Substitution} {rest : Search} : rest.Means db σ → Means db σ (.answer s rest)
  | working {rest : Search} : rest.Means db σ → Means db σ (.working rest)

theorem Outcome.means_ofUnifier {db : Database} {σ : Valuation} {unifier : Option Substitution}
    {rest : Search} : (ofUnifier unifier rest).Means db σ ↔
      (∃ t, unifier = some t ∧ t.Holds σ) ∨ rest.Means db σ := by
  cases unifier with
  | none =>
    constructor
    · rintro (_ | _ | later)
      exact .inr later
    · rintro (⟨t, found, _⟩ | later)
      · cases found
      · exact .working later
  | some t =>
    constructor
    · rintro (holds | later)
      · exact .inl ⟨t, rfl, holds⟩
      · exact .inr later
    · rintro (⟨u, found, holds⟩ | later)
      · cases found
        exact .answer holds
      · exact .later later

/-- A rule applied to arguments says that the parameters are the arguments under the salt and that
the conditions are derivable. -/
theorem Rule.holds_goal {db : Database} {σ : Valuation} (rule : Rule) (args : List Term)
    (salt : String) : (rule.goal args salt).Holds db σ ↔
      args.map (Term.under σ) = rule.params.map (Term.under fun name => σ (salt ++ name)) ∧
      ∀ condition ∈ rule.conditions, Derivable db condition.1
        (condition.2.map (Term.under fun name => σ (salt ++ name))) := by
  constructor
  · rintro (_ | _ | goals)
    obtain ⟨params, conditions⟩ := List.forall_mem_cons.mp goals
    refine ⟨?_, fun condition inside => ?_⟩
    · cases params with
      | unifyAll equal => rwa [map_under_salted] at equal
    · cases conditions _ (List.mem_map_of_mem inside) with
      | query derivable => rwa [map_under_salted] at derivable
  · rintro ⟨params, conditions⟩
    have equal : (Goal.unifyAll args (rule.params.map (·.salted salt))).Holds db σ :=
      .unifyAll (by rwa [map_under_salted])
    refine .all (List.forall_mem_cons.mpr ⟨equal, fun goal inside => ?_⟩)
    obtain ⟨condition, member, rfl⟩ := List.mem_map.mp inside
    exact .query (by rw [map_under_salted]; exact conditions condition member)

theorem Goal.isFinite_of_mem {goals : List Goal} (finite : Goal.areFinite goals) {goal : Goal}
    (inside : goal ∈ goals) : goal.isFinite := by
  induction goals with
  | nil => cases inside
  | cons first goals ih =>
    simp only [Goal.areFinite, Bool.and_eq_true] at finite
    rcases List.mem_cons.mp inside with rfl | later
    · exact finite.1
    · exact ih finite.2 later

namespace Search
variable {db : Database} {σ : Valuation}

/-- Substitutions of a search stay settled. -/
theorem kept_settled (db : Database) :
    Kept db (fun _ s => s.Settled) (fun _ goal => goal.isFinite = true) where
  laterSub _ settled := settled
  laterGoal _ finite := finite
  unify := by
    intro p s t left right _ settled unified
    obtain ⟨found, same, unifies⟩ := Substitution.unifies_unify settled left right
    rw [unified, Except.ok.injEq] at same
    subst same
    exact unifies.1
  unifyAll _ settled unified := Substitution.unifyAll_settled settled unified
  fact _ settled _ _ unified := Substitution.unifyAll_settled settled unified
  all finite _ inside := Goal.isFinite_of_mem finite inside
  any finite _ inside := Goal.isFinite_of_mem finite inside
  traced finite := finite
  stream := Bool.false_ne_true
  use := by
    intro p r args _ rule _
    obtain ⟨salt, same⟩ := rule.use_goal args p
    rw [same]
    exact rule.goal_isFinite args salt

/-- The first work on a goal adds no valuation. -/
theorem enter_sound {goal : Goal} {s : Substitution} {p : Progress} (finite : goal.isFinite)
    (settled : s.Settled) (means : (enter s p goal).1.Means db σ) :
    s.Holds σ ∧ goal.Holds db σ := by
  revert means
  fun_cases enter s p goal with
  | case1 => rintro ⟨⟩
  | case2 left right unifier unified =>
    intro means
    obtain ⟨found, same, unifies⟩ := Substitution.unifies_unify settled left right
    rw [unified, Except.ok.injEq] at same
    rcases Outcome.means_ofUnifier.mp means with ⟨t, rfl, holds⟩ | ended
    · subst same
      obtain ⟨base, equal⟩ := (unifies.2 σ).mp holds
      exact ⟨base, .unify equal⟩
    · cases ended
  | case3 left right =>
    intro means
    rcases Outcome.means_ofUnifier.mp means with ⟨t, unified, holds⟩ | ended
    · obtain ⟨base, equal⟩ := (Substitution.unifyAll_holds settled unified σ).mp holds
      exact ⟨base, .unifyAll equal⟩
    · cases ended
  | case4 =>
    rintro (holds | ended)
    · exact ⟨holds, .all (by simp)⟩
    · cases ended
  | case5 => rintro ⟨⟩
  | case6 goal goals live started =>
    rw [start_eq started]
    rintro (_ | _ | means)
    cases means with
    | each first others =>
      cases first with
      | pending holds here => exact ⟨holds, .all (List.forall_mem_cons.mpr ⟨here, others⟩)⟩
    | eachDone ended => cases ended
  | case7 goals searchable =>
    rintro (_ | _ | means)
    cases means with
    | round inside branch =>
      obtain ⟨goal, member, rfl⟩ := List.mem_map.mp inside
      cases branch with
      | pending holds here => exact ⟨holds, .any member here⟩
  | case8 => rintro ⟨⟩
  | case9 relation args =>
    rintro (_ | _ | means)
    cases means with
    | fact holds _ found equal =>
      exact ⟨holds, .query (equal ▸ .fact σ (List.mem_of_getElem? found))⟩
    | factsDone means =>
      cases means with
      | rule holds _ found equal conditions =>
        exact ⟨holds, .query (equal ▸ .rule _ (List.mem_of_getElem? found) conditions)⟩
  | case10 => rintro ⟨⟩
  | case11 label goal q live started =>
    rw [start_eq started]
    rintro (_ | _ | means)
    cases means with
    | tracing means =>
      cases means with
      | pending holds here => exact ⟨holds, .traced here⟩
  | case12 => cases finite
  | case13 => rintro ⟨⟩

abbrev IsSettled (search : Search) : Prop :=
  search.Every (fun s => s.Settled) fun goal => goal.isFinite = true

theorem areFinite_of_forall {queue : List Search}
    (finite : ∀ search ∈ queue, search.isFinite = true) : areFinite queue = true := by
  induction queue with
  | nil => rfl
  | cons search others ih =>
    obtain ⟨first, others⟩ := List.forall_mem_cons.mp finite
    simp only [areFinite, first, ih others, Bool.and_self]

theorem IsSettled.isFinite {search : Search} (settled : search.IsSettled) :
    search.isFinite = true := by
  induction settled with
  | pending finite _ => exact finite
  | each _ rest _ live below =>
    simp only [Search.isFinite, live, below, Goal.areFinite_of_forall rest, Bool.and_self]
  | round _ queue => exact areFinite_of_forall queue
  | tracing _ inner => exact inner
  | _ => rfl

theorem Means.facts_mono {r : RelationId} {args : List Term} {s : Substitution} {m n : Nat}
    (le : m ≤ n) (means : (facts r args s n).Means db σ) : (facts r args s m).Means db σ := by
  cases means with
  | fact holds later found equal => exact .fact holds (by omega) found equal
  | factsDone means => exact .factsDone means

theorem Means.rules_mono {r : RelationId} {args : List Term} {s : Substitution} {m n : Nat}
    (le : m ≤ n) (means : (rules r args s n).Means db σ) : (rules r args s m).Means db σ := by
  cases means with
  | rule holds later found equal conditions =>
    exact .rule holds (by omega) found equal conditions

theorem start_named {ok : String → Prop} {goal : Goal} (named : goal.Named ok) (s : Substitution) :
    start goal s = .ok (.pending goal s) := by
  cases named <;> rfl

theorem all_isSearchable {ok : String → Prop} {goals : List Goal}
    (named : ∀ goal ∈ goals, goal.Named ok) : goals.all Goal.isSearchable = true := by
  rw [List.all_eq_true]
  intro goal inside
  cases named goal inside <;> rfl

abbrev IsKnown (search : Search) : Prop :=
  search.Every (fun s => s.Settled) fun goal => goal.Named fun _ => True

theorem IsKnown.isFinite {search : Search} (known : search.IsKnown) : search.isFinite = true :=
  IsSettled.isFinite (known.imp (fun _ settled => settled) fun _ named => named.isFinite)

theorem kept_known (db : Database) :
    Kept db (fun _ s => s.Settled) (fun _ goal => goal.Named fun _ => True) where
  laterSub _ settled := settled
  laterGoal _ named := named
  unify := fun named => (kept_settled db).unify (p := {}) named.isFinite
  unifyAll := fun named => (kept_settled db).unifyAll (p := {}) named.isFinite
  fact := fun named => (kept_settled db).fact (p := {}) named.isFinite
  all := by
    intro p goals named
    cases named with
    | all named => exact named
  any := by
    intro p goals named
    cases named with
    | any named => exact named
  traced := by
    intro p label goal named
    cases named with
    | traced named => exact named
  stream := by
    intro p answers named
    cases named
  use := by
    intro p r args named rule _
    obtain ⟨salt, same⟩ := rule.use_goal args p
    rw [same]
    cases named with
    | query named => exact rule.goal_named named fun _ => trivial

theorem enter_succeeds {ok : String → Prop} {goal : Goal} (named : goal.Named ok)
    {s : Substitution} (settled : s.Settled) (p : Progress) (fault : Fault) :
    (enter s p goal).1 ≠ .failed fault := by
  cases named with
  | @unify left right _ _ =>
    obtain ⟨found, unified, _⟩ := Substitution.unifies_unify settled left right
    simp only [enter, unified]
    cases found <;> nofun
  | @unifyAll left right _ _ =>
    simp only [enter]
    cases s.unifyAll left right <;> nofun
  | @all goals named =>
    cases goals with
    | nil => nofun
    | cons goal goals =>
      simp only [enter, start_named (named goal (by simp))]
      nofun
  | any named =>
    simp only [enter, all_isSearchable named, if_true]
    nofun
  | query => nofun
  | traced named =>
    simp only [enter, start_named named]
    nofun

/-- Searching what can be searched does not fail. -/
theorem step_succeeds {search : Search} {p : Progress} (known : search.IsKnown) (fault : Fault) :
    (search.step db p).1 ≠ .failed fault := by
  intro failed
  fun_induction step db search p with
  | case2 goal s p =>
    cases known with
    | pending named settled => exact enter_succeeds named settled p fault failed
  | case4 r args s next p fact found =>
    cases unified : s.unifyAll args fact <;>
    · rw [unified] at failed
      cases failed
  | case9 live rest below p other q stepped ih =>
    rw [stepped] at ih
    cases known with
    | each first _ _ => exact ih first failed
  | case11 live below p s next q stepped goal goals other started ih =>
    cases known with
    | each _ others _ =>
      rw [start_named (others goal (by simp))] at started
      cases started
  | case16 first others p other q stepped ih =>
    rw [stepped] at ih
    cases known with
    | round queue => exact ih (queue first (by simp)) failed
  | case20 label inner p other q stepped ih =>
    rw [stepped] at ih
    cases known with
    | tracing known => exact ih known failed
  | _ => cases failed

/-- A step from here adds no valuation, also of what more the database holds later. -/
def Faithful (db later : Database) (p : Progress) (search : Search) : Prop :=
  ∀ σ, (search.step db p).1.Means later σ → search.Means later σ

section Steps
variable {later : Database} {p : Progress} {r : RelationId} {args : List Term} {s : Substitution}
  {next : Nat}

theorem facts_faithful (grown : db.Grown later) (settled : s.Settled) :
    (Search.facts r args s next).Faithful db later p := by
  intro σ means
  rw [step] at means
  cases found : (db.relation r).facts[next]? with
  | none =>
    rw [found] at means
    cases means with
    | working means => exact .factsDone means
  | some fact =>
    rw [found] at means
    rcases Outcome.means_ofUnifier.mp means with ⟨t, unified, holds⟩ | beyond
    · obtain ⟨base, equal⟩ := (Substitution.unifyAll_holds settled unified σ).mp holds
      exact .fact base (Nat.le_refl next) (getElem?_of_starts (grown.facts r) found) equal
    · exact beyond.facts_mono (by omega)

theorem rules_faithful (grown : db.Grown later) :
    (Search.rules r args s next).Faithful db later p := by
  intro σ means
  rw [step] at means
  cases found : (db.relation r).rules[next]? with
  | none =>
    rw [found] at means
    cases means
  | some rule =>
    rw [found] at means
    obtain ⟨salt, same⟩ := rule.use_goal args p
    dsimp only at means
    generalize rule.use args p = used at same means
    cases means with
    | working means =>
      cases means with
      | each first _ =>
        cases first with
        | pending holds here =>
          rw [same, rule.holds_goal] at here
          exact .rule holds (Nat.le_refl next) (getElem?_of_starts (grown.rules r) found) here.1 here.2
      | eachDone beyond => exact beyond.rules_mono (by omega)

theorem each_faithful {live below : Search} {rest : List Goal}
    (faithful : live.Faithful db later p) : (Search.each live rest below).Faithful db later p := by
  intro σ means
  rw [step] at means
  have back := faithful σ
  generalize live.step db p = stepped at back means
  obtain ⟨outcome, q⟩ := stepped
  cases outcome with
  | working next =>
    cases means with
    | working means =>
      cases means with
      | each one others => exact .each (back (.working one)) others
      | eachDone below => exact .eachDone below
  | ended =>
    cases means with
    | working below => exact .eachDone below
  | failed fault => cases means
  | answer s next =>
    cases rest with
    | nil =>
      have done : ∀ goal ∈ ([] : List Goal), goal.Holds later σ := by simp
      cases means with
      | answer holds => exact .each (back (.answer holds)) done
      | later means =>
        cases means with
        | each one others => exact .each (back (.later one)) others
        | eachDone below => exact .eachDone below
    | cons goal goals =>
      dsimp only at means
      cases started : start goal s with
      | error fault =>
        rw [started] at means
        cases means
      | ok opened =>
        rw [started, start_eq started] at means
        cases means with
        | working means =>
          cases means with
          | each one others =>
            cases one with
            | pending holds here =>
              exact .each (back (.answer holds)) (List.forall_mem_cons.mpr ⟨here, others⟩)
          | eachDone means =>
            cases means with
            | each one others => exact .each (back (.later one)) others
            | eachDone below => exact .eachDone below

theorem round_faithful {queue : List Search}
    (faithful : ∀ search ∈ queue, search.Faithful db later p) :
    (Search.round queue).Faithful db later p := by
  intro σ means
  cases queue with
  | nil =>
    rw [step] at means
    cases means
  | cons first others =>
    rw [step] at means
    have back := faithful first List.mem_cons_self σ
    generalize first.step db p = stepped at back means
    obtain ⟨outcome, q⟩ := stepped
    cases outcome with
    | working next =>
      cases means with
      | working means =>
        cases means with
        | round inside branch =>
          rcases List.mem_cons.mp inside with rfl | behind
          · exact .round List.mem_cons_self (back (.working branch))
          · exact .round (List.mem_cons_of_mem _ behind) branch
    | ended =>
      cases means with
      | working means =>
        cases means with
        | round inside branch => exact .round (List.mem_cons_of_mem _ inside) branch
    | failed fault => cases means
    | answer s next =>
      cases means with
      | answer holds => exact .round List.mem_cons_self (back (.answer holds))
      | later means =>
        cases means with
        | round inside branch =>
          rcases List.mem_append.mp inside with behind | last
          · exact .round (List.mem_cons_of_mem _ behind) branch
          · rw [List.mem_singleton] at last
            subst last
            exact .round List.mem_cons_self (back (.later branch))

theorem tracing_faithful {label : String} {inner : Search}
    (faithful : inner.Faithful db later p) : (Search.tracing label inner).Faithful db later p := by
  intro σ means
  rw [step] at means
  have back := faithful σ
  generalize inner.step db p = stepped at back means
  obtain ⟨outcome, q⟩ := stepped
  cases outcome with
  | working next =>
    cases means with
    | working means =>
      cases means with
      | tracing means => exact .tracing (back (.working means))
  | ended => cases means
  | failed fault => cases means
  | answer s next =>
    cases means with
    | answer holds => exact .tracing (back (.answer holds))
    | later means =>
      cases means with
      | tracing means => exact .tracing (back (.later means))

end Steps

/-- No step adds a valuation. -/
theorem faithful_of_settled {later : Database} (grown : db.Grown later) {search : Search}
    (settled : search.IsSettled) (p : Progress) : search.Faithful db later p := by
  induction settled with
  | ended =>
    intro σ means
    cases means
  | pending finite settled =>
    intro σ means
    obtain ⟨holds, here⟩ := enter_sound finite settled means
    exact .pending holds here
  | facts _ settled => exact facts_faithful grown settled
  | rules => exact rules_faithful grown
  | each _ _ _ ih => exact each_faithful ih
  | round _ ih => exact round_faithful ih
  | tracing _ ih => exact tracing_faithful ih

theorem sound_of_step {later : Database} (grown : db.Grown later) {search : Search}
    {p q : Progress} {outcome : Outcome} (settled : search.IsSettled)
    (stepped : search.step db p = (outcome, q)) (means : outcome.Means later σ) :
    search.Means later σ :=
  faithful_of_settled grown settled p σ (by rwa [stepped])

/-- A run adds no valuation: there was a way through the search under each of its answers, and of
what is left. -/
theorem Runs.sound_later {later : Database} (grown : db.Grown later) {search last : Search}
    {p q : Progress} {answers : List Substitution} (run : Runs db search p answers last q)
    (settled : search.IsSettled) (means : (∃ s ∈ answers, s.Holds σ) ∨ last.Means later σ) :
    search.Means later σ := by
  induction run with
  | refl => exact means.resolve_left (by simp)
  | working stepped _ ih =>
    have rest := (kept_settled db).working settled stepped
    exact sound_of_step grown settled stepped (.working (ih rest means))
  | answer stepped _ ih =>
    have rest := ((kept_settled db).answer settled stepped).2
    rcases means with ⟨s, given, holds⟩ | left
    · rcases List.mem_cons.mp given with rfl | others
      · exact sound_of_step grown settled stepped (.answer holds)
      · exact sound_of_step grown settled stepped (.later (ih rest (.inl ⟨s, others, holds⟩)))
    · exact sound_of_step grown settled stepped (.later (ih rest (.inr left)))

/-- Under every valuation of an answer, there is a way through the search. -/
theorem Runs.sound {search last : Search} {p q : Progress} {answers : List Substitution}
    (run : Runs db search p answers last q) (settled : search.IsSettled) {s : Substitution}
    (given : s ∈ answers) (holds : s.Holds σ) : search.Means db σ :=
  run.sound_later (.refl db) settled (.inl ⟨s, given, holds⟩)

/-- The answers of a search are settled. -/
theorem Runs.settled {search last : Search} {p q : Progress} {answers : List Substitution}
    (run : Runs db search p answers last q) (settled : search.IsSettled) {s : Substitution}
    (given : s ∈ answers) : s.Settled :=
  (run.kept (kept_settled db) settled).2.1 s given

/-- Under every valuation of an answer to a goal, the goal holds. -/
theorem Answers.sound {goal : Goal} {p r : Progress} {found : List Substitution}
    (answers : Answers db goal p found r) (finite : goal.isFinite) {s : Substitution}
    (given : s ∈ found) (holds : s.Holds σ) : goal.Holds db σ := by
  obtain ⟨last, q, run, _⟩ := answers
  cases run.sound (.pending finite Substitution.settled_empty) given holds with
  | pending _ here => exact here

theorem Answers.settled {goal : Goal} {p r : Progress} {found : List Substitution}
    (answers : Answers db goal p found r) (finite : goal.isFinite) {s : Substitution}
    (given : s ∈ found) : s.Settled := by
  obtain ⟨last, q, run, _⟩ := answers
  exact run.settled (.pending finite Substitution.settled_empty) given

/-- A search that can be searched throughout stops where it has given enough, or at its end. -/
theorem harvest_known (layered : db.isLayered) (wanted : Option Nat) {search : Search}
    (known : search.IsKnown) (p : Progress) :
    ∃ answers last q, Runs db search p answers last q ∧
      (wanted = some answers.length ∧
        search.harvest db wanted p = ⟨answers, last, .enough, q⟩ ∨
      ∃ r, last.step db q = (.ended, r) ∧
        search.harvest db wanted p = ⟨answers, .ended, .ended, r⟩) := by
  have harvested := harvested_harvest layered wanted known.isFinite p
  generalize search.harvest db wanted p = found at harvested ⊢
  cases harvested with
  | enough run all => exact ⟨_, _, _, run, .inl ⟨all, rfl⟩⟩
  | ended run last => exact ⟨_, _, _, run, .inr ⟨_, last, rfl⟩⟩
  | failed run failed =>
    obtain ⟨_, _, still⟩ := run.kept (kept_known db) known
    exact absurd (congrArg Prod.fst failed) (step_succeeds still _)

/-- A search that can be searched throughout ends, where relations do not depend on themselves. -/
theorem exists_gives (layered : db.isLayered) {search : Search} (known : search.IsKnown)
    (p : Progress) : ∃ answers r, search.Gives db p answers r := by
  obtain ⟨answers, last, q, run, ⟨all, _⟩ | ⟨r, ended, _⟩⟩ := harvest_known layered none known p
  · cases all
  · exact ⟨answers, r, last, q, run, ended⟩

end Search
end Rulebook
