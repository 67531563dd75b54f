import Rulebook.Proofs.Search.Completeness
import Rulebook.Proofs.Skeleton

/-! Searches that solve equations one after the other. Between two answers of a search, others may
use ids up, so what a search still has to solve is said for every later point at which it may be
asked again. -/
namespace Rulebook

/-- The solutions of both equations read the known names alike. -/
def Alike (known : String → Prop) (A B : Valuation → Prop) : Prop :=
  ∀ σ : Valuation, (∃ τ, σ.Agrees known τ ∧ A τ) ↔ ∃ τ, σ.Agrees known τ ∧ B τ

namespace Alike
variable {known : String → Prop} {A B C : Valuation → Prop}

theorem of_iff (same : ∀ σ, A σ ↔ B σ) : Alike known A B := by
  intro σ
  simp only [same]

theorem trans (first : Alike known A B) (second : Alike known B C) : Alike known A C :=
  fun σ => (first σ).trans (second σ)

/-- With fewer names known, there is less to tell apart. -/
theorem imp {fewer : String → Prop} (less : ∀ name, fewer name → known name)
    (alike : Alike known A B) : Alike fewer A B := by
  have one {A B : Valuation → Prop} (alike : Alike known A B) (σ : Valuation)
      (found : ∃ τ, σ.Agrees fewer τ ∧ A τ) : ∃ τ, σ.Agrees fewer τ ∧ B τ := by
    obtain ⟨τ, agrees, holds⟩ := found
    obtain ⟨υ, more, other⟩ := (alike τ).mp ⟨τ, .self known τ, holds⟩
    exact ⟨υ, agrees.trans (more.imp less), other⟩
  exact fun σ => ⟨one alike σ, one (fun σ => (alike σ).symm) σ⟩

/-- One more equation on both sides, which asks for known names only. -/
theorem and (alike : Alike known A B) {D : Valuation → Prop}
    (knownOnly : ∀ {σ τ : Valuation}, σ.Agrees known τ → D σ → D τ) :
    Alike known (fun σ => A σ ∧ D σ) fun σ => B σ ∧ D σ := by
  have one {A B : Valuation → Prop} (alike : Alike known A B) (σ : Valuation)
      (found : ∃ τ, σ.Agrees known τ ∧ A τ ∧ D τ) : ∃ τ, σ.Agrees known τ ∧ B τ ∧ D τ := by
    obtain ⟨τ, agrees, holds, here⟩ := found
    obtain ⟨υ, again, other⟩ := (alike σ).mp ⟨τ, agrees, holds⟩
    exact ⟨υ, again, other, knownOnly (agrees.symm.trans again) here⟩
  exact fun σ => ⟨one alike σ, one (fun σ => (alike σ).symm) σ⟩

/-- Entry by entry, two lists of equations are alike. -/
theorem map {α : Type} {labels : List α} {equations others : α → Valuation → Prop}
    (each : ∀ label ∈ labels, Alike known (equations label) (others label)) :
    List.Forall₂ (Alike known) (labels.map equations) (labels.map others) := by
  rw [List.forall₂_map_left_iff, List.forall₂_map_right_iff, List.forall₂_same]
  exact each

theorem exists_iff (alike : Alike known A B) : (∃ σ, A σ) ↔ ∃ σ, B σ := by
  constructor
  · rintro ⟨σ, holds⟩
    obtain ⟨τ, _, other⟩ := (alike σ).mp ⟨σ, .self known σ, holds⟩
    exact ⟨τ, other⟩
  · rintro ⟨σ, holds⟩
    obtain ⟨τ, _, other⟩ := (alike σ).mpr ⟨σ, .self known σ, holds⟩
    exact ⟨τ, other⟩

end Alike

def Database.Named (known : String → Prop) (db : Database) : Prop :=
  ∀ r, ∀ fact ∈ (db.relation r).facts, ∀ term ∈ fact, term.Named known

/-- Skeletons derive under a valuation what they derive under one that agrees with it on the names
in facts. -/
theorem Skeleton.Derives.agrees {db : Database} {known : String → Prop} {σ τ : Valuation}
    (agrees : σ.Agrees known τ) (facts : db.Named known) {args : List Term}
    (named : ∀ term ∈ args, term.Named known) {k : Skeleton} {r : RelationId}
    (derives : k.Derives db σ r (args.map (Term.under σ))) :
    k.Derives db τ r (args.map (Term.under τ)) := by
  rw [map_under_agrees agrees named]
  exact Derives.congr (fun r fact stored => map_under_agrees agrees (facts r fact stored)) k derives

namespace Search

/-- The search gives an answer for each of the equations that has solutions, in turn, and then ends.
An answer has the solutions of its equations, as far as the known names go. -/
inductive Solves (db : Database) (source : SourceId) (known : String → Prop) :
    List (Valuation → Prop) → Search → Progress → Prop where
  | working {equations : List (Valuation → Prop)} {search rest : Search} {p q : Progress} :
      search.step db p = (.working rest, q) → Solves db source known equations rest q →
      Solves db source known equations search p
  | ended {search : Search} {p q : Progress} : search.step db p = (.ended, q) →
      Solves db source known [] search p
  | void {A : Valuation → Prop} {others : List (Valuation → Prop)} {search : Search}
      {p : Progress} : (¬∃ σ, A σ) → Solves db source known others search p →
      Solves db source known (A :: others) search p
  | answer {A : Valuation → Prop} {others : List (Valuation → Prop)} {search rest : Search}
      {p q : Progress} {t : Substitution} : search.step db p = (.answer t rest, q) →
      FreshSub source q t → Alike known t.Holds A →
      (∀ r, q.Before r → Solves db source known others rest r) →
      Solves db source known (A :: others) search p

/-- The equations, each together with every way to derive the conditions. -/
def ways (db : Database) (skeletons : RelationId → List Skeleton)
    (conditions : List (RelationId × List Term)) (equations : List (Valuation → Prop)) :
    List (Valuation → Prop) :=
  equations.flatMap fun A => (Skeleton.forests skeletons (conditions.map (·.1))).map fun ks σ =>
    A σ ∧ Skeleton.DeriveAll db σ ks (conditionsUnder σ conditions)

section Ways
variable (db : Database) (skeletons : RelationId → List Skeleton)

theorem ways_nil (equations : List (Valuation → Prop)) :
    ways db skeletons [] equations = equations := by
  simp [ways, Skeleton.forests, Skeleton.DeriveAll, conditionsUnder]

/-- The first condition is derived first, and so its ways vary slowest. -/
theorem ways_cons (condition : RelationId × List Term) (conditions : List (RelationId × List Term))
    (A : Valuation → Prop) (equations : List (Valuation → Prop)) :
    ways db skeletons (condition :: conditions) (A :: equations) =
      ways db skeletons conditions
        ((skeletons condition.1).map fun k σ =>
          A σ ∧ k.Derives db σ condition.1 (condition.2.map (Term.under σ))) ++
      ways db skeletons (condition :: conditions) equations := by
  simp [ways, Skeleton.forests, Skeleton.DeriveAll, conditionsUnder, List.map_flatMap,
    List.flatMap_map, Function.comp_def, and_assoc]

end Ways

structure Knows (source : SourceId) (known : String → Prop) (p : Progress) : Prop where
  past : ∀ name, known name → Past source p name
  inside : source < p.nextIds.length

theorem Knows.later {source : SourceId} {known : String → Prop} {p q : Progress}
    (knows : Knows source known p) (before : p.Before q) : Knows source known q where
  past name here := (knows.past name here).later before
  inside := before.1 ▸ knows.inside

def FreshArgs (source : SourceId) (p : Progress) (args : List Term) : Prop :=
  ∀ term ∈ args, term.Named (Past source p)

theorem FreshArgs.later {source : SourceId} {p q : Progress} (before : p.Before q)
    {args : List Term} (fresh : FreshArgs source p args) : FreshArgs source q args :=
  fun term inside => (fresh term inside).imp fun _ => Past.later before

/-- Whatever is asked of the relation, its skeletons are solved one after the other. -/
def Enumerates (db : Database) (source : SourceId) (skeletons : RelationId → List Skeleton)
    (r : RelationId) : Prop :=
  ∀ ⦃known args s p⦄, Knows source known p → FreshSub source p s → FreshArgs source p args →
    Solves db source known ((skeletons r).map (Skeleton.Solution db s r args))
      (.pending (.query r args) s) p

namespace Solves
variable {db : Database} {source : SourceId} {known : String → Prop} {search : Search}
  {p : Progress} {equations others : List (Valuation → Prop)}

/-- What is solved can be read with fewer names known, and as equations with the same solutions. -/
theorem alike {more : String → Prop} (less : ∀ name, known name → more name)
    (solves : Solves db source more equations search p)
    (same : List.Forall₂ (Alike known) equations others) :
    Solves db source known others search p := by
  induction solves generalizing others with
  | working stepped _ ih => exact .working stepped (ih same)
  | ended stepped =>
    cases same
    exact .ended stepped
  | void none _ ih =>
    cases same with
    | cons alike same => exact .void (alike.exists_iff.not.mp none) (ih same)
  | answer stepped fresh holds _ ih =>
    cases same with
    | cons alike same =>
      exact .answer stepped fresh ((holds.imp less).trans alike) fun r before => ih r before same

theorem voids (none : ∀ A ∈ equations, ¬∃ σ, A σ)
    (solves : Solves db source known others search p) :
    Solves db source known (equations ++ others) search p := by
  induction equations with
  | nil => exact solves
  | cons A equations ih =>
    obtain ⟨first, rest⟩ := List.forall_mem_cons.mp none
    exact .void first (ih rest)

/-- Answers that go through no further goal come before those of what is below. -/
theorem append {live below : Search} (first : Solves db source known equations live p)
    (later : ∀ q, p.Before q → Solves db source known others below q) :
    Solves db source known (equations ++ others) (.each live [] below) p := by
  induction first with
  | working stepped _ ih =>
    have before := before_of_step stepped
    refine .working ?_ (ih fun q after => later q (before.trans after))
    rw [step, stepped]
  | ended stepped =>
    refine .working ?_ (later _ (before_of_step stepped))
    rw [step, stepped]
  | void none _ ih => exact .void none (ih later)
  | answer stepped fresh holds _ ih =>
    have before := before_of_step stepped
    refine .answer ?_ fresh holds fun r after =>
      ih r after fun q last => later q (before.trans (after.trans last))
    rw [step, stepped]

/-- Each answer goes on through the conditions, and comes out once for each way to derive them. -/
theorem each {skeletons : RelationId → List Skeleton} {conditions : List (RelationId × List Term)}
    (solved : ∀ condition ∈ conditions, Enumerates db source skeletons condition.1)
    (facts : db.Named known)
    (named : ∀ condition ∈ conditions, ∀ term ∈ condition.2, term.Named known)
    {live below : Search} (knows : Knows source known p)
    (first : Solves db source known equations live p)
    (later : ∀ q, p.Before q → Solves db source known others below q) :
    Solves db source known (ways db skeletons conditions equations ++ others)
      (.each live (conditions.map fun condition => .query condition.1 condition.2) below) p := by
  induction conditions generalizing live below equations others p with
  | nil =>
    rw [ways_nil]
    exact append first later
  | cons condition conditions ih =>
    obtain ⟨solve, solved⟩ := List.forall_mem_cons.mp solved
    obtain ⟨here, named⟩ := List.forall_mem_cons.mp named
    induction first with
    | working stepped _ again =>
      have before := before_of_step stepped
      refine .working ?_ (again (knows.later before) fun q after => later q (before.trans after))
      rw [step, stepped]
    | ended stepped =>
      refine .working ?_ (later _ (before_of_step stepped))
      rw [step, stepped]
    | void none _ again =>
      rw [ways, List.flatMap_cons, List.append_assoc]
      refine voids (fun B inside => ?_) (again knows later)
      obtain ⟨ks, _, rfl⟩ := List.mem_map.mp inside
      rintro ⟨σ, holds, _⟩
      exact none ⟨σ, holds⟩
    | answer stepped fresh holds _ again =>
      have before := before_of_step stepped
      have after := knows.later before
      -- What remains of the conditions starts from each way to derive the first one.
      have asked : FreshArgs source _ condition.2 :=
        fun term inside => (here term inside).imp after.past
      have further := (solve after fresh asked).alike (fun _ => id)
        (Alike.map fun k _ => holds.and fun agrees => .agrees agrees facts here)
      have through := ih solved named after further fun r last =>
        again r last (after.later last) fun s yet => later s (before.trans (last.trans yet))
      rw [ways_cons, List.append_assoc]
      exact .working (by rw [step, stepped]; rfl) through

open Classical in
/-- Asked to its end, the search gives one answer for each of the equations that has solutions. -/
theorem gives {α : Type} {A : α → Valuation → Prop} {labels : List α}
    (solves : Solves db source known (labels.map A) search p) :
    ∃ answers r, search.Gives db p answers r ∧
      List.Forall₂ (fun label t => Alike known t.Holds (A label))
        (labels.filter fun label => ∃ σ, A label σ) answers := by
  generalize same : labels.map A = equations at solves
  induction solves generalizing labels with
  | working stepped _ ih =>
    obtain ⟨answers, r, ⟨last, q, run, ended⟩, fits⟩ := ih same
    exact ⟨answers, r, ⟨last, q, .working stepped run, ended⟩, fits⟩
  | @ended search p q stepped =>
    obtain rfl := List.map_eq_nil_iff.mp same
    exact ⟨[], q, ⟨search, p, .refl _ _, stepped⟩, .nil⟩
  | void none _ ih =>
    obtain ⟨label, labels, rfl, rfl, rest⟩ := List.map_eq_cons_iff.mp same
    obtain ⟨answers, r, gives, fits⟩ := ih rest
    refine ⟨answers, r, gives, ?_⟩
    rwa [List.filter_cons_of_neg (by simpa using none)]
  | @answer _ _ _ rest p q t stepped fresh holds _ ih =>
    obtain ⟨label, labels, rfl, rfl, others⟩ := List.map_eq_cons_iff.mp same
    obtain ⟨answers, r, ⟨last, q, run, ended⟩, fits⟩ := ih q (.refl q) others
    have solution : ∃ σ, A label σ :=
      holds.exists_iff.mp ⟨_, Substitution.holds_reading fresh.1 fun _ => ""⟩
    refine ⟨t :: answers, r, ⟨last, q, .answer stepped run, ended⟩, ?_⟩
    rw [List.filter_cons_of_pos (by simpa using solution)]
    exact .cons holds fits

end Solves
end Search
end Rulebook
