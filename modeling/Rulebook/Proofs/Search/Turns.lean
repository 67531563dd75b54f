import Rulebook.Proofs.Renaming.Choice
import Rulebook.Proofs.Search.Instances
import Rulebook.Proofs.Search.Salting

/-! Alternatives taking turns, beside the rules asked by themselves. Each alternative of an action
follows the search for its rule step by step and binds one more variable, to its payload, in each
answer. In turn each gives one answer, until it has no more; so all answers come out once, and the
first of all is the first answer of the first rule that has any. -/
namespace Rulebook

/-- The elements of all lists. In turn each list gives its next one, until it is empty. -/
def takeTurns {α : Type} : List (List α) → List α
  | [] => []
  | [] :: others => takeTurns others
  | (a :: rest) :: others => a :: takeTurns (others ++ [rest])
termination_by lists => lists.flatten.length + lists.length
decreasing_by all_goals simp; try omega

section Turns
variable {α : Type}

/-- Nothing is lost and nothing comes twice. -/
theorem perm_takeTurns (lists : List (List α)) : (takeTurns lists).Perm lists.flatten := by
  fun_induction takeTurns lists with
  | case1 => exact .nil
  | case2 others ih => exact ih
  | case3 a rest others ih =>
    have moved : (others ++ [rest]).flatten.Perm (rest ++ others.flatten) := by
      rw [List.flatten_append, List.flatten_singleton]
      exact List.perm_append_comm
    exact .cons a (ih.trans moved)

/-- The first list that has an element has the first one. -/
theorem head?_takeTurns (lists : List (List α)) :
    (takeTurns lists).head? = lists.flatten.head? := by
  fun_induction takeTurns lists with
  | case1 => rfl
  | case2 others ih => exact ih
  | case3 a rest others _ => rfl

end Turns

/-- Two substitutions that say the same, but for names that stand for one another one by one: all
names in either do, and these names for themselves. -/
def Substitution.Alike (known : String → Prop) (s t : Substitution) : Prop :=
  ∃ P : Pairing, (∀ name, known name → P.pair name name) ∧ P.Reflects s t ∧
    (s.Named fun a => ∃ b, P.pair a b) ∧ t.Named fun b => ∃ a, P.pair a b

/-- The answer, but for names, with the variable bound to the payload. -/
def Substitution.Pays (known : String → Prop) (out : String) (answer : Substitution × String)
    (s : Substitution) : Prop :=
  ∃ t, answer.1.Alike known t ∧ s = t.paid out answer.2

namespace Search
variable {db : Database} {source : SourceId} {known made' : String → Prop} {out : String}
  {p q r : Progress} {search : Search} {found : List Substitution}

/-- A step of a search that gives these answers. -/
theorem Gives.step (gives : search.Gives db p found r) :
    match search.step db p with
    | (.working rest, q) => rest.Gives db q found r
    | (.answer s rest, q) => ∃ more, found = s :: more ∧ rest.Gives db q more r
    | (.ended, _) => found = []
    | (.failed _, _) => False := by
  obtain ⟨last, q, run, ended⟩ := gives
  cases run with
  | refl =>
    rw [ended]
  | working stepped run =>
    rw [stepped]
    exact ⟨last, q, run, ended⟩
  | answer stepped run =>
    rw [stepped]
    exact ⟨_, rfl, last, q, run, ended⟩

/-- The first step gets no further than the search does. -/
theorem Gives.after_step (gives : search.Gives db p found r) : (search.step db p).2.Before r := by
  obtain ⟨last, q, run, ended⟩ := gives
  cases run with
  | refl =>
    rw [ended]
    exact .refl r
  | working stepped run | answer stepped run =>
    rw [stepped]
    exact run.before.trans (before_of_step ended)

/-- The search goes on like one that has still to give these answers. -/
def Follows (db : Database) (source : SourceId) (known : String → Prop) (out : String)
    (made' : String → Prop) (P : Pairing) (found : List Substitution) (other : Search)
    (q : Progress) : Prop :=
  ∃ search p r, P.Foresees source known out (search.Salts db source p (r.nextId source)) made' p q ∧
    P.Linked search other ∧ search.Gives db p found r

/-- An alternative that has still to give these answers, each with the payload. -/
inductive Alternates (db : Database) (source : SourceId) (known : String → Prop) (out : String)
    (made' : String → Prop) : List (Substitution × String) → Search → Progress → Prop where
  | pending {P : Pairing} {found : List Substitution} {goal : Goal} {payload : String}
      {q : Progress} : Follows db source known out made' P found (.pending goal .empty) q →
      Alternates db source known out made' (found.map (·, payload))
        (.pending (.all [goal, .pays out payload]) .empty) q
  | live {P : Pairing} {found : List Substitution} {other : Search} {payload : String}
      {q : Progress} : Follows db source known out made' P found other q →
      Alternates db source known out made' (found.map (·, payload))
        (.each other [.pays out payload] .ended) q
  | paying {P : Pairing} {found : List Substitution} {s t : Substitution} {other : Search}
      {payload : String} {q : Progress} : P.Reflects s t →
      Follows db source known out made' P found other q →
      Alternates db source known out made' ((s, payload) :: found.map (·, payload))
        (.each (.pending (.pays out payload) t) [] (.each other [.pays out payload] .ended)) q
  | paid {P : Pairing} {found : List Substitution} {other : Search} {payload : String}
      {q : Progress} : Follows db source known out made' P found other q →
      Alternates db source known out made' (found.map (·, payload))
        (.each .ended [] (.each other [.pays out payload] .ended)) q
  | ended {q : Progress} : Alternates db source known out made' [] .ended q

/-- Alternatives that are to be opened, or that take turns, the first one now, and what each has
still to give. -/
inductive InTurn (db : Database) (source : SourceId) (known : String → Prop) (out : String)
    (made' : String → Prop) : List (List (Substitution × String)) → Search → Progress → Prop where
  | pending {lists : List (List (Substitution × String))} {goals : List Goal} {q : Progress} :
      List.Forall₂ (fun list goal =>
        Alternates db source known out made' list (.pending goal .empty) q) lists goals →
      InTurn db source known out made' lists (.pending (.any goals) .empty) q
  | round {lists : List (List (Substitution × String))} {queue : List Search} {q : Progress} :
      List.Forall₂ (fun list branch => Alternates db source known out made' list branch q)
        lists queue →
      InTurn db source known out made' lists (.round queue) q

theorem all_searchable {lists : List (List (Substitution × String))} {goals : List Goal}
    (alternates : List.Forall₂ (fun list goal =>
      Alternates db source known out made' list (.pending goal .empty) q) lists goals) :
    goals.all Goal.isSearchable := by
  induction alternates with
  | nil => rfl
  | cons first _ ih =>
    cases first
    exact ih

section Following
variable {P : Pairing} {other : Search} {answers : List (Substitution × String)}

theorem Follows.later (follows : Follows db source known out made' P found other q)
    (before : q.Before r) : Follows db source known out made' P found other r := by
  obtain ⟨search, p, last, foresees, linked, gives⟩ := follows
  exact ⟨search, p, last, foresees.later before, linked, gives⟩

theorem Alternates.later (alternates : Alternates db source known out made' answers other q)
    (before : q.Before r) : Alternates db source known out made' answers other r := by
  cases alternates with
  | pending follows => exact .pending (follows.later before)
  | live follows => exact .live (follows.later before)
  | paying reflects follows => exact .paying reflects (follows.later before)
  | paid follows => exact .paid (follows.later before)
  | ended => exact .ended

/-- What reflects an answer leaves the payload's variable alone. -/
theorem Follows.unbound {s t : Substitution}
    (follows : Follows db source known out made' P found other q) (reflects : P.Reflects s t) :
    t.lookup out = none := by
  obtain ⟨_, _, _, foresees, _⟩ := follows
  apply Substitution.unbound_of_named
  refine reflects.rightKnown.imp fun name past same => past ?_
  rw [same]
  exact foresees.waits

/-- What reflects an answer says the same. -/
theorem Follows.alike {s t : Substitution}
    (follows : Follows db source known out made' P found other q) (reflects : P.Reflects s t) :
    s.Alike known t := by
  obtain ⟨_, _, _, foresees, _⟩ := follows
  refine ⟨P, fun _ fine => foresees.known fine, reflects, ?_, ?_⟩
  · exact reflects.leftKnown.imp fun _ => foresees.leftPaired
  · exact reflects.rightKnown.imp fun _ => foresees.rightPaired

variable (sourced : Pairing.Sourced source known db)
include sourced

/-- A step is one of the search that is followed. -/
theorem Follows.step (follows : Follows db source known out made' P found other q)
    (within : ∀ rule, other.rule? db = some rule → ∀ name, rule.Salts source q name → made' name) :
    match other.step db q with
    | (.working rest, r) => ∃ Q, Follows db source known out made' Q found rest r
    | (.answer t rest, r) => ∃ Q s more, found = s :: more ∧ Q.Reflects s t ∧
        Follows db source known out made' Q more rest r
    | (.ended, _) => found = []
    | (.failed _, _) => False := by
  obtain ⟨search, p, last, foresees, linked, gives⟩ := follows
  have fits (rule : Rule) (found : search.rule? db = some rule) :
      Pairing.Within source (search.Salts db source p (last.nextId source)) made' rule p q :=
    ⟨fun _ => salts_of_run (.refl search p) found foresees.inside rfl gives.after_step,
      within rule (linked.rule?_eq ▸ found)⟩
  obtain ⟨Q, grows, there, outcomes⟩ := linked.steps sourced.keeps foresees fits
  have stepped := gives.step
  have fewer (rest : Search) (left : (search.step db p).1.rest? = some rest) :=
    there.mono fun _ => Salts.before rfl left
  generalize search.step db p = here, other.step db q = step at stepped fewer outcomes
  obtain ⟨here, p'⟩ := here
  obtain ⟨step, q'⟩ := step
  cases outcomes with
  | working linked => exact ⟨Q, _, _, _, fewer _ rfl, linked, stepped⟩
  | ended => exact stepped
  | answer reflects linked =>
    obtain ⟨more, same, later⟩ := stepped
    exact ⟨Q, _, more, same, reflects, _, _, _, fewer _ rfl, linked, later⟩

/-- A step of an alternative. -/
theorem Alternates.step (alternates : Alternates db source known out made' answers other q)
    (within : ∀ rule, other.rule? db = some rule → ∀ name, rule.Salts source q name → made' name) :
    match other.step db q with
    | (.working rest, r) => Alternates db source known out made' answers rest r
    | (.answer t rest, r) => ∃ a more, answers = a :: more ∧ Substitution.Pays known out a t ∧
        Alternates db source known out made' more rest r
    | (.ended, _) => answers = []
    | (.failed _, _) => False := by
  cases alternates with
  | @pending P found goal payload q follows =>
    have opened : start goal .empty = .ok (.pending goal .empty) := by
      obtain ⟨_, _, _, _, linked, _⟩ := follows
      cases linked with
      | pending opens => exact opens.start.2
    simp only [Search.step, enter, opened]
    exact .live follows
  | @live P found live payload q follows =>
    have stepped := follows.step sourced within
    rw [Search.step]
    generalize live.step db q = step at stepped
    obtain ⟨step, r⟩ := step
    cases step with
    | working rest =>
      obtain ⟨Q, follows⟩ := stepped
      exact .live follows
    | ended =>
      dsimp only at stepped ⊢
      subst stepped
      exact .ended
    | failed fault => exact stepped
    | answer t rest =>
      obtain ⟨Q, s, more, rfl, reflects, follows⟩ := stepped
      exact .paying reflects follows
  | @paying P found s t live payload q reflects follows =>
    have unbound := follows.unbound reflects
    simp only [Search.step, Goal.pays, enter, Substitution.unify_pays unbound, Outcome.ofUnifier]
    exact ⟨_, _, rfl, ⟨t, follows.alike reflects, rfl⟩, .paid follows⟩
  | paid follows => exact .live follows
  | ended => rfl

/-- A step of the alternatives in their round. -/
theorem InTurn.step {lists : List (List (Substitution × String))} {search : Search}
    (inTurn : InTurn db source known out made' lists search q)
    (within : ∀ rule, search.rule? db = some rule → ∀ name, rule.Salts source q name → made' name) :
    match search.step db q with
    | (.working rest, r) => ∃ left, InTurn db source known out made' left rest r ∧
        takeTurns lists = takeTurns left
    | (.answer t rest, r) => ∃ a left, Substitution.Pays known out a t ∧
        InTurn db source known out made' left rest r ∧ takeTurns lists = a :: takeTurns left
    | (.ended, _) => takeTurns lists = []
    | (.failed _, _) => False := by
  cases inTurn with
  | pending alternates =>
    simp only [Search.step, enter, all_searchable alternates, if_true]
    refine ⟨lists, .round ?_, rfl⟩
    rwa [List.forall₂_map_right_iff]
  | round alternates =>
    cases alternates with
    | nil =>
      rw [Search.step]
      simp [takeTurns]
    | @cons list first lists others here behind =>
      have stepped := here.step sourced within
      have before : q.Before (first.step db q).2 := before_of_step rfl
      have later := behind.imp fun _ _ alternates => alternates.later before
      rw [Search.step]
      generalize first.step db q = step at stepped later
      obtain ⟨step, r⟩ := step
      cases step with
      | working rest => exact ⟨_, .round (.cons stepped later), rfl⟩
      | ended =>
        dsimp only at stepped ⊢
        subst stepped
        exact ⟨lists, .round later, by rw [takeTurns]⟩
      | failed fault => exact stepped
      | answer t rest =>
        obtain ⟨a, more, rfl, pays, alternates⟩ := stepped
        exact ⟨a, lists ++ [more], pays, .round (List.rel_append later (.cons alternates .nil)),
          by rw [takeTurns]⟩

/-- A run gives the first of the answers that are still to come in turn. -/
theorem Runs.inTurn {search last : Search} {answers : List Substitution}
    {lists : List (List (Substitution × String))} (run : Runs db search q answers last r)
    (inTurn : InTurn db source known out made' lists search q) (inside : source < q.nextIds.length)
    (within : ∀ name, search.Salts db source q (r.nextId source) name → made' name) :
    ∃ given left, takeTurns lists = given ++ takeTurns left ∧
      List.Forall₂ (Substitution.Pays known out) given answers ∧
      InTurn db source known out made' left last r := by
  induction run generalizing lists with
  | refl => exact ⟨[], lists, rfl, .nil, inTurn⟩
  | working stepped run ih =>
    have step := inTurn.step sourced fun rule found name salts =>
      within name (salts_of_run (.refl _ _) found inside stepped run.before salts)
    rw [stepped] at step
    obtain ⟨left, rest, same⟩ := step
    rw [same]
    exact ih rest ((before_of_step stepped).1 ▸ inside) fun name salts =>
      within name (.before stepped rfl salts)
  | answer stepped run ih =>
    have step := inTurn.step sourced fun rule found name salts =>
      within name (salts_of_run (.refl _ _) found inside stepped run.before salts)
    rw [stepped] at step
    obtain ⟨a, left, pays, rest, same⟩ := step
    have later := ih rest ((before_of_step stepped).1 ▸ inside) fun name salts =>
      within name (.before stepped rfl salts)
    obtain ⟨given, left, more, paid, last⟩ := later
    exact ⟨a :: given, left, by rw [same, more, List.cons_append], .cons pays paid, last⟩

/-- The step that a run leads to is within what the search makes up to there. -/
theorem Runs.inTurn_stepped {search last : Search} {answers : List Substitution}
    {lists : List (List (Substitution × String))} {q' : Progress} {outcome : Outcome}
    (run : Runs db search q answers last q') (stepped : last.step db q' = (outcome, r))
    (inTurn : InTurn db source known out made' lists search q) (inside : source < q.nextIds.length)
    (within : ∀ name, search.Salts db source q (r.nextId source) name → made' name) :
    ∃ given left, takeTurns lists = given ++ takeTurns left ∧
      List.Forall₂ (Substitution.Pays known out) given answers ∧
      InTurn db source known out made' left last q' ∧
      ∀ rule, last.rule? db = some rule → ∀ name, rule.Salts source q' name → made' name := by
  have before := before_of_step stepped
  obtain ⟨given, left, same, pays, rest⟩ := run.inTurn sourced inTurn inside fun name salts =>
    within name (salts.mono (before.2 source))
  refine ⟨given, left, same, pays, rest, fun rule found name salts => within name ?_⟩
  exact salts_of_run run found (run.before.1 ▸ inside) stepped (.refl r) salts

/-- A harvest collects them up to where it has enough or to their end. -/
theorem Harvested.inTurn {search : Search} {wanted : Option Nat} {found : Harvest}
    {lists : List (List (Substitution × String))} (harvested : Harvested db wanted search q found)
    (inTurn : InTurn db source known out made' lists search q) (inside : source < q.nextIds.length)
    (within : ∀ name, search.Salts db source q (found.progress.nextId source) name →
      made' name) :
    ∃ given left, takeTurns lists = given ++ left ∧
      List.Forall₂ (Substitution.Pays known out) given found.answers ∧
      (found.stop = .enough ∧ wanted = some given.length ∨ found.stop = .ended ∧ left = []) := by
  cases harvested with
  | enough run all =>
    obtain ⟨given, left, same, pays, _⟩ := run.inTurn sourced inTurn inside within
    exact ⟨given, _, same, pays, .inl ⟨rfl, by rw [pays.length_eq, all]⟩⟩
  | ended run stepped =>
    obtain ⟨given, left, same, pays, rest, within⟩ :=
      run.inTurn_stepped sourced stepped inTurn inside within
    have step := rest.step sourced within
    rw [stepped] at step
    exact ⟨given, _, same, pays, .inr ⟨rfl, step⟩⟩
  | failed run stepped =>
    obtain ⟨given, left, same, pays, rest, within⟩ :=
      run.inTurn_stepped sourced stepped inTurn inside within
    have step := rest.step sourced within
    rw [stepped] at step
    exact step.elim

end Following
end Search
end Rulebook
