import Rulebook.Search.Harvest

/-! Runs of a search over an unchanging database, labelled with the answers they give. A harvest is
a run up to where the search ends, fails or has given enough. -/
namespace Rulebook
namespace Search

inductive Runs (db : Database) :
    Search → Progress → List Substitution → Search → Progress → Prop where
  | refl (search p) : Runs db search p [] search p
  | working : search.step db p = (.working next, q) → Runs db next q answers last r →
      Runs db search p answers last r
  | answer : search.step db p = (.answer s next, q) → Runs db next q answers last r →
      Runs db search p (s :: answers) last r

/-- How a harvest can have come about. -/
inductive Harvested (db : Database) (wanted : Option Nat) (search : Search) (p : Progress) :
    Harvest → Prop where
  | enough : Runs db search p answers last q → wanted = some answers.length →
      Harvested db wanted search p ⟨answers, last, .enough, q⟩
  | ended : Runs db search p answers last q → last.step db q = (.ended, r) →
      Harvested db wanted search p ⟨answers, .ended, .ended, r⟩
  | failed : Runs db search p answers last q → last.step db q = (.failed fault, r) →
      Harvested db wanted search p ⟨answers, .ended, .failed fault, r⟩

/-- The search gives these answers, then ends. -/
def Gives (db : Database) (search : Search) (p : Progress) (answers : List Substitution)
    (r : Progress) : Prop :=
  ∃ last q, Runs db search p answers last q ∧ last.step db q = (.ended, r)

def Answers (db : Database) (goal : Goal) (p : Progress) (answers : List Substitution)
    (r : Progress) : Prop :=
  ∃ last q, Runs db (.pending goal .empty) p answers last q ∧ last.step db q = (.ended, r)

namespace Runs
variable {db : Database} {search middle last : Search} {p q r : Progress}
  {answers more : List Substitution}

/-- What each step keeps, a run keeps. -/
theorem invariant {P : Search → Progress → Prop}
    (kept : ∀ {search p rest}, P search p → (search.step db p).1.rest? = some rest →
      P rest (search.step db p).2)
    (run : Runs db search p answers last q) (initial : P search p) : P last q := by
  induction run with
  | refl => exact initial
  | working stepped _ ih | answer stepped _ ih =>
    have next := kept initial (by rw [stepped]; rfl)
    rw [stepped] at next
    exact ih next

end Runs

namespace Harvested
variable {db : Database} {search rest : Search} {p q : Progress} {wanted : Option Nat}
  {found : Harvest}

theorem after_work (stepped : search.step db p = (.working rest, q))
    (more : Harvested db wanted rest q found) : Harvested db wanted search p found := by
  cases more with
  | enough run all => exact .enough (.working stepped run) all
  | ended run last => exact .ended (.working stepped run) last
  | failed run last => exact .failed (.working stepped run) last

theorem after_answer {s : Substitution} (asks : wanted ≠ some 0)
    (stepped : search.step db p = (.answer s rest, q))
    (more : Harvested db (wanted.map (· - 1)) rest q found) :
    Harvested db wanted search p (found.cons s) := by
  cases more with
  | @enough answers last r run all =>
    refine .enough (.answer stepped run) ?_
    obtain ⟨count, rfl, less⟩ := Option.map_eq_some_iff.mp all
    have positive : count ≠ 0 := fun zero => asks (congrArg some zero)
    have exact : count = answers.length + 1 := by
      have : count - 1 = answers.length := less
      omega
    rw [exact, List.length_cons]
  | ended run last => exact .ended (.answer stepped run) last
  | failed run last => exact .failed (.answer stepped run) last

end Harvested

theorem harvested_harvestEnding {db : Database} (layered : db.isLayered) (wanted : Option Nat)
    (search : Search) (finite : search.isFinite) (p : Progress) :
    Harvested db wanted search p (harvestEnding db layered wanted search finite p) := by
  fun_induction harvestEnding db layered wanted search finite p with
  | case1 search finite p => exact .enough (.refl search p) rfl
  | case2 search finite p wanted asks rest q stepped lower ih => exact ih.after_work stepped
  | case3 search finite p wanted asks q stepped => exact .ended (.refl search p) stepped
  | case4 search finite p wanted asks fault q stepped => exact .failed (.refl search p) stepped
  | case5 search finite p wanted asks s rest q stepped lower ih =>
    exact ih.after_answer asks stepped

/-- A search without streams over layered relations is followed as far as it was asked to be. -/
theorem harvested_harvest {db : Database} (layered : db.isLayered) (wanted : Option Nat)
    {search : Search} (finite : search.isFinite) (p : Progress) :
    Harvested db wanted search p (search.harvest db wanted p) := by
  rw [harvest, dif_pos layered, dif_pos finite]
  exact harvested_harvestEnding layered wanted search finite p

end Search
end Rulebook
