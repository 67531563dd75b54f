import Rulebook.Proofs.Database
import Rulebook.Proofs.Extension
import Rulebook.Proofs.Search.Completeness

/-! Goals that ask no relation. They are conjunctions and disjunctions of equations between terms,
and a search for one ends with answers that stand, together, for exactly the valuations that satisfy
the goal. The database plays no part, so it may be recursive. -/
namespace Rulebook

inductive Goal.Equational : Goal → Prop where
  | unify (left right : Term) : Equational (.unify left right)
  | unifyAll (left right : List Term) : Equational (.unifyAll left right)
  | all {goals : List Goal} : (∀ goal ∈ goals, Equational goal) → Equational (.all goals)
  | any {goals : List Goal} : (∀ goal ∈ goals, Equational goal) → Equational (.any goals)

theorem Goal.Equational.named {goal : Goal} (equational : goal.Equational) :
    goal.Named fun _ => True := by
  induction equational with
  | unify left right => exact .unify (by cases left <;> trivial) (by cases right <;> trivial)
  | unifyAll left right => exact .unifyAll (named_any left) (named_any right)
  | all _ ih => exact .all ih
  | any _ ih => exact .any ih

theorem Substitution.named_true (s : Substitution) : s.Named fun _ => True := by
  intro name term _
  exact ⟨trivial, by cases term <;> trivial⟩

namespace Search
variable {db other : Database}

abbrev IsEquational (search : Search) : Prop :=
  search.Every (fun s => s.Settled ∧ s.Named fun _ => True) fun goal => goal.Equational

/-- Equations retain valuations unchanged: no rule is used, so no name is new. -/
theorem retains_equational (db : Database) :
    Retains db (fun _ _ => True) (fun _ goal => goal.Equational) where
  laterSub _ sub := sub
  laterGoal _ equational := equational
  unify equational sub unified :=
    ⟨(kept_known db).unify (p := {}) equational.named sub.1 unified, Substitution.named_true _⟩
  unifyAll equational sub unified :=
    ⟨(kept_known db).unifyAll (p := {}) equational.named sub.1 unified, Substitution.named_true _⟩
  fact := nofun
  all := by
    rintro p goals (_ | _ | inside)
    exact inside
  any := by
    rintro p goals (_ | _ | _ | inside)
    exact inside
  traced := nofun
  stream := nofun
  use := nofun
  later _ known := known
  named equational := equational.named
  literal := nofun
  graft := nofun

/-- A search that asks no relation takes the same steps over any database. -/
theorem step_of_equational (db other : Database) {search : Search}
    (equational : search.IsEquational) (p : Progress) : search.step db p = search.step other p := by
  induction equational generalizing p with
  | ended => rfl
  | pending => rfl
  | facts goal => cases goal
  | rules goal => cases goal
  | each _ _ _ live _ => simp only [step, live p]
  | @round queue _ ih =>
    cases queue with
    | nil => rfl
    | cons first others => simp only [step, ih first (by simp) p]
  | tracing _ ih => simp only [step, ih p]

theorem Runs.of_equational {search last : Search} {p q : Progress} {answers : List Substitution}
    (run : Runs other search p answers last q) (equational : search.IsEquational)
    (db : Database) : Runs db search p answers last q ∧ last.IsEquational := by
  have kept := (retains_equational other).toKept
  induction run with
  | refl => exact ⟨.refl _ _, equational⟩
  | working stepped _ ih =>
    obtain ⟨run, last⟩ := ih (kept.working equational stepped)
    rw [step_of_equational other db equational] at stepped
    exact ⟨.working stepped run, last⟩
  | answer stepped _ ih =>
    obtain ⟨run, last⟩ := ih (kept.answer equational stepped).2
    rw [step_of_equational other db equational] at stepped
    exact ⟨.answer stepped run, last⟩

/-- A search that asks no relation ends. -/
theorem exists_gives_of_equational (db : Database) {search : Search}
    (equational : search.IsEquational) (p : Progress) :
    ∃ answers r, search.Gives db p answers r := by
  have known : search.IsKnown := equational.imp (fun _ sub => sub.1) fun _ goal => goal.named
  obtain ⟨answers, r, last, q, run, ended⟩ := exists_gives Database.acyclic_empty.layered known p
  obtain ⟨run, rest⟩ := run.of_equational equational db
  rw [step_of_equational {} db rest] at ended
  exact ⟨answers, r, last, q, run, ended⟩

/-- A search for equations ends, and its answers stand for exactly the valuations of the bindings it
starts from that satisfy the goal. -/
theorem gives_iff_holds {goal : Goal} (equational : goal.Equational) {s : Substitution}
    (built : s.Built) (db : Database) (p : Progress) :
    ∃ answers r, (Search.pending goal s).Gives db p answers r ∧
      ∀ σ, (∃ t ∈ answers, t.Holds σ) ↔ s.Holds σ ∧ goal.Holds db σ := by
  have start : (Search.pending goal s).IsEquational :=
    .pending equational ⟨built.settled, s.named_true⟩
  obtain ⟨answers, r, last, q, run, ended⟩ := exists_gives_of_equational db start p
  refine ⟨answers, r, ⟨last, q, run, ended⟩, fun σ => ⟨?_, ?_⟩⟩
  · rintro ⟨t, given, holds⟩
    have settled : (Search.pending goal s).IsSettled :=
      .pending equational.named.isFinite built.settled
    cases run.sound settled given holds with
    | pending base here => exact ⟨base, here⟩
  · rintro ⟨base, here⟩
    obtain ⟨τ, same, t, given, holds⟩ :=
      run.complete_ended (retains_equational db) ended start (.pending base here)
    have equal : τ = σ := funext fun name => same name trivial
    exact ⟨t, given, equal ▸ holds⟩

/-- Two variables that are exchanged for each other and one of them fixed, beside a disjunct that
always holds and one that never does. -/
def exchange : Goal :=
  .any [.all [.unifyAll [.var "a", .var "b"] [.var "b", .var "a"], .unify (.var "b") (.lit "x")],
    .all [], .any []]

theorem gives_exchange : ∃ answers r,
    (Search.pending exchange .renamed).Gives {} {} answers r ∧
      ∃ t ∈ answers, t.Holds fun _ => "x" := by
  have conjunction : (Goal.all [.unifyAll [.var "a", .var "b"] [.var "b", .var "a"],
      .unify (.var "b") (.lit "x")]).Equational := by
    refine .all (List.forall_mem_cons.mpr ⟨.unifyAll _ _, List.forall_mem_singleton.mpr ?_⟩)
    exact .unify _ _
  have equational : exchange.Equational := by
    refine .any (List.forall_mem_cons.mpr ⟨conjunction, List.forall_mem_cons.mpr ⟨?_, ?_⟩⟩)
    · exact .all (by simp)
    · exact List.forall_mem_singleton.mpr (.any (by simp))
  have built : Substitution.renamed.Built := .extend .empty Substitution.extend_renamed
  obtain ⟨answers, r, gives, holds⟩ := gives_iff_holds equational built {} {}
  refine ⟨answers, r, gives, (holds _).mpr ⟨(Substitution.holds_renamed _).mpr rfl, ?_⟩⟩
  exact .any (List.mem_cons_of_mem _ List.mem_cons_self) (.all (by simp))

end Search
end Rulebook
