import Rulebook.Proofs.Search.Completeness

/-! The first answer to alternatives. They take turns, but a turn lasts until there is an answer, so
the first answer is that of the first alternative that has one. -/
namespace Rulebook
namespace Search
variable {db : Database}

/-- The first answer of a round is the first branch's, or that branch ends without one. -/
theorem Runs.of_round {first last : Search} {others : List Search} {p q : Progress}
    {s : Substitution} {more : List Substitution}
    (run : Runs db (.round (first :: others)) p (s :: more) last q) :
    (∃ rest r, Runs db first p [s] rest r) ∨
      ∃ r, first.Gives db p [] r ∧ Runs db (.round others) r (s :: more) last q := by
  generalize whole : Search.round (first :: others) = search at run
  generalize some_ : s :: more = found at run
  induction run generalizing first with
  | refl => cases some_
  | working stepped run ih =>
    subst whole some_
    rw [step] at stepped
    split at stepped
    · rename_i branch r here
      cases stepped
      rcases ih rfl rfl with ⟨rest, r, answered⟩ | ⟨r, ⟨last, q, ran, ended⟩, others⟩
      · exact .inl ⟨rest, r, .working here answered⟩
      · exact .inr ⟨r, ⟨last, q, .working here ran, ended⟩, others⟩
    · rename_i r here
      cases stepped
      exact .inr ⟨_, ⟨_, _, .refl _ _, here⟩, run⟩
    · cases stepped
    · cases stepped
  | answer stepped run _ =>
    subst whole
    cases some_
    rw [step] at stepped
    split at stepped
    · cases stepped
    · cases stepped
    · cases stepped
    · rename_i branch r here
      cases stepped
      exact .inl ⟨_, _, .answer here (.refl _ _)⟩

/-- One branch gives the first answer of a round, after the branches before it have ended without
any. -/
theorem Runs.exists_first {queue : List Search} {last : Search} {p q : Progress} {s : Substitution}
    {more : List Substitution} (run : Runs db (.round queue) p (s :: more) last q) :
    ∃ before search after, queue = before ++ search :: after ∧
      (∀ other ∈ before, ∃ p' r, p.Before p' ∧ other.Gives db p' [] r) ∧
      ∃ p' rest r, p.Before p' ∧ Runs db search p' [s] rest r := by
  induction queue generalizing p with
  | nil =>
    cases run with
    | working stepped | answer stepped => cases stepped
  | cons first others ih =>
    rcases run.of_round with ⟨rest, r, answered⟩ | ⟨r, ended, run⟩
    · exact ⟨[], first, others, rfl, nofun, p, rest, r, .refl p, answered⟩
    · have passed : p.Before r := by
        obtain ⟨_, _, ran, last⟩ := ended
        exact ran.before.trans (before_of_step last)
      obtain ⟨before, search, after, rfl, none, p', rest, q', later, answered⟩ := ih run
      refine ⟨first :: before, search, after, rfl, ?_, p', rest, q', passed.trans later, answered⟩
      refine List.forall_mem_cons.mpr ⟨⟨p, r, .refl p, ended⟩, fun other inside => ?_⟩
      obtain ⟨p'', r', after, ended⟩ := none other inside
      exact ⟨p'', r', passed.trans after, ended⟩

/-- The first answer to alternatives is the first answer to one of them; those before it have no
answer at all. -/
theorem Runs.exists_first_any {ok : String → Prop} {goals : List Goal}
    (named : ∀ goal ∈ goals, goal.Named ok) {last : Search} {p q : Progress} {s : Substitution}
    {more : List Substitution} (run : Runs db (.pending (.any goals) .empty) p (s :: more) last q) :
    ∃ before goal after, goals = before ++ goal :: after ∧
      (∀ other ∈ before, ∃ p' r, p.Before p' ∧ Answers db other p' [] r) ∧
      ∃ p' rest r, p.Before p' ∧ Runs db (.pending goal .empty) p' [s] rest r := by
  have opened : (Search.pending (.any goals) .empty).step db p =
      (.working (.round (goals.map (.pending · .empty))), p) := by
    rw [step, enter, if_pos (all_isSearchable named)]
  cases run with
  | answer stepped => cases opened.symm.trans stepped
  | working stepped run =>
    cases opened.symm.trans stepped
    obtain ⟨before, search, after, split, none, p', rest, r, later, answered⟩ := run.exists_first
    obtain ⟨front, back, rfl, rfl, more⟩ := List.map_eq_append_iff.mp split
    obtain ⟨goal, others, rfl, rfl, rfl⟩ := List.map_eq_cons_iff.mp more
    refine ⟨front, goal, others, rfl, fun other inside => ?_, p', rest, r, later, answered⟩
    exact none _ (List.mem_map_of_mem inside)

end Search
end Rulebook
