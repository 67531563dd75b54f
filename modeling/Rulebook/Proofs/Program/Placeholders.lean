import Rulebook.Proofs.Search.Instances
import Rulebook.Proofs.Machine.Termination

/-! Variables in questions are placeholders. A question with other variables, different ones for
different ones, is answered the same, as long as neither the old names nor the new ones begin with a
salt that is still to be minted. Such a name is taken for a variable of the rule that gets the salt,
and then answers may be missed. -/
namespace Rulebook

def Term.withNames (f : String → String) : Term → Term
  | .var name => .var (f name)
  | .lit value => .lit value

def Phrase.withNames (f : String → String) (phrase : Phrase) : Phrase :=
  { phrase with args := phrase.args.map (.withNames f) }

theorem Term.under_withNames (f : String → String) (σ : Valuation) (term : Term) :
    (term.withNames f).under σ = term.under fun name => σ (f name) := by
  cases term <;> rfl

theorem map_under_withNames (f : String → String) (σ : Valuation) (args : List Term) :
    (args.map (.withNames f)).map (Term.under σ) =
      args.map (Term.under fun name => σ (f name)) := by
  rw [List.map_map]
  exact List.map_congr_left fun term _ => term.under_withNames f σ

def ApartOn (f : String → String) (args : List Term) : Prop :=
  ∀ name other, .var name ∈ args → .var other ∈ args → f name = f other → name = other

open Classical in
/-- What the arguments come to under a valuation, the renamed ones come to under another. -/
theorem exists_under_withNames {f : String → String} {args : List Term} (apart : ApartOn f args)
    (σ : Valuation) :
    ∃ τ : Valuation, (args.map (.withNames f)).map (Term.under τ) = args.map (Term.under σ) := by
  let τ : Valuation := fun new =>
    if old : ∃ name, Term.var name ∈ args ∧ f name = new then σ old.choose else ""
  refine ⟨τ, ?_⟩
  rw [map_under_withNames]
  refine List.map_congr_left fun term inside => ?_
  cases term with
  | lit value => rfl
  | var name =>
    have old : ∃ other, Term.var other ∈ args ∧ f other = f name := ⟨name, inside, rfl⟩
    change τ (f name) = σ name
    rw [show τ (f name) = σ old.choose from dif_pos old]
    exact congrArg σ (apart _ _ old.choose_spec.1 inside old.choose_spec.2)

/-- Where facts have no variables, a skeleton derives the same under all valuations. -/
theorem Database.Literal.derives_iff {db : Database} (literal : db.Literal) (σ τ : Valuation)
    (k : Skeleton) (r : RelationId) (values : List String) :
    k.Derives db σ r values ↔ k.Derives db τ r values :=
  have same (σ τ : Valuation) (r : RelationId) (fact : List Term)
      (stored : fact ∈ (db.relation r).facts) :
      fact.map (Term.under τ) = fact.map (Term.under σ) :=
    map_under_literal (literal r fact stored) τ σ
  ⟨.congr (same σ τ) k, .congr (same τ σ) k⟩

theorem Skeleton.instance_withNames {db : Database} (literal : db.Literal) {f : String → String}
    {args : List Term} (apart : ApartOn f args) (k : Skeleton) (r : RelationId)
    (values : List String) :
    k.Instance db r (args.map (.withNames f)) values ↔ k.Instance db r args values := by
  constructor
  · rintro ⟨σ, rfl, derives⟩
    exact ⟨fun name => σ (f name), (map_under_withNames f σ args).symm,
      (literal.derives_iff σ _ k r _).mp derives⟩
  · rintro ⟨σ, rfl, derives⟩
    obtain ⟨τ, same⟩ := exists_under_withNames apart σ
    exact ⟨τ, same, (literal.derives_iff σ τ k r _).mp derives⟩

namespace Machine
variable {m : Machine} {question : Phrase} {r : RelationId}

section Asking
variable {goal : Goal} {found : List Substitution} {q : Progress}

/-- A search with a limit collects the first of all answers. -/
theorem run_harvest_take (layered : m.database.isLayered) (named : goal.Named fun _ => True)
    (answers : Search.Answers m.database goal ⟨[m.nextId], []⟩ found q) (limit : Nat) :
    ∃ harvested n, harvested.answers = found.take limit ∧
      (harvest (some limit) (.pending goal .empty)).run m = (.ok harvested, n) := by
  obtain ⟨last, stop, q, same, success⟩ :=
    Search.harvest_take layered (.pending named Substitution.settled_empty) answers limit
  rw [run_harvest, same]
  rcases success with rfl | rfl <;> exact ⟨_, _, rfl, rfl⟩

def limited (limit : Option Int) (rows : List α) : Except Fault (List α) :=
  match limit with
  | none => .ok rows
  | some limit => (Search.wantedOf limit).map rows.take

/-- Whichever way a question is asked, it is answered out of one list. -/
theorem run_question (layered : m.database.isLayered)
    (declared : m.relations.get? question.key = some r) :
    ∃ found q, Search.Answers m.database (.query r question.args) ⟨[m.nextId], []⟩ found q ∧
      ((isTrue question).run m).1 =
        .ok (found.map (·.valuesOf question.args)).head?.isSome ∧
      ((values question).run m).1 = .ok (found.map (·.valuesOf question.args)).head? ∧
      ∀ limit, ((solutions question limit).run m).1 =
        limited limit (found.map (·.valuesOf question.args)) := by
  have named := query_named r question.args
  obtain ⟨found, q, answers, whole⟩ := run_harvest_all layered named
  obtain ⟨first, n, answered, run⟩ := run_harvest_take layered named answers 1
  have head : first.answers.head? = found.head? := by
    rw [answered]
    cases found <;> rfl
  have one : (firstAnswer (.query r question.args)).run m = (.ok found.head?, n) := by
    rw [← head]
    exact (run_bind_ok run).trans rfl
  refine ⟨found, q, answers, ?_, ?_, fun limit => ?_⟩
  · rw [isTrue, run_asked declared, run_bind_ok one, List.head?_map, Option.isSome_map]
    rfl
  · rw [values, run_asked declared, run_bind_ok one, List.head?_map]
    rfl
  · have pulled {wanted : Option Nat} {harvested : Harvest} {n : Machine}
        (run : (harvest wanted (.pending (.query r question.args) .empty)).run m =
          (.ok harvested, n)) :
        ((pull wanted ⟨question.args, .pending (.query r question.args) .empty⟩).run m) =
          (.ok (harvested.answers.map (·.valuesOf question.args),
            ⟨question.args, harvested.rest⟩), n) :=
      (run_bind_ok run).trans rfl
    rw [solutions, run_bind_ok (run_ask declared)]
    cases limit with
    | none =>
      dsimp only
      rw [run_bind_ok (pulled whole)]
      rfl
    | some limit =>
      dsimp only [limited]
      cases Search.wantedOf limit with
      | error fault => rfl
      | ok wanted =>
        obtain ⟨harvested, n, answered, run⟩ := run_harvest_take layered named answers wanted
        have unlifted : (liftM (Except.ok wanted : Except Fault Nat) : MachineM Nat).run m =
            (.ok wanted, m) := rfl
        rw [run_bind_ok unlifted, run_bind_ok (pulled run), answered, List.map_take]
        rfl

end Asking

/-- Two questions have the same outcome, whichever way they are asked. -/
structure AnswersAlike (m : Machine) (first second : Phrase) : Prop where
  isTrue : ((isTrue first).run m).1 = ((isTrue second).run m).1
  values : ((values first).run m).1 = ((values second).run m).1
  solutions : ∀ limit, ((solutions first limit).run m).1 = ((solutions second limit).run m).1

/-- A question about a key that is not declared fails, whatever it asks. -/
theorem answersAlike_undeclared {other : Phrase} (key : other.key = question.key)
    (absent : m.relations.get? question.key = none) : m.AnswersAlike question other := by
  have failed (question : Phrase) (absent : m.relations.get? question.key = none) :
      (goalOf question).run m = (.error (.undeclaredRelation question.key), m) := by
    rw [goalOf, run_bind, run_relationFor, absent]
    rfl
  have first := failed question absent
  have second := failed other (key ▸ absent)
  rw [key] at second
  constructor
  · rw [isTrue, isTrue, run_bind, run_bind, first, second]
  · rw [values, values, run_bind, run_bind, first, second]
  · intro limit
    rw [solutions, solutions, run_bind, run_bind, ask, ask, run_bind, run_bind, first, second]

/-- Lists that stand for the same things, one for one, come to the same. -/
theorem map_eq_of_forall₂ {α β κ γ : Type} {A : α → κ → Prop} {B : β → κ → Prop} {g : α → γ}
    {h : β → γ} (each : ∀ {a b k}, A a k → B b k → g a = h b) {first : List α} {second : List β}
    {labels : List κ} (left : List.Forall₂ A first labels) (right : List.Forall₂ B second labels) :
    first.map g = second.map h := by
  induction left generalizing second with
  | nil =>
    cases right
    rfl
  | cons here _ ih =>
    cases right with
    | cons there rest => rw [List.map_cons, List.map_cons, each here there, ih rest]

/-- Questions for which each skeleton gives the same tuples have the same outcome. -/
theorem answersAlike_of_instances (formed : m.WellFormed) (plain : m.database.Plain)
    (declared : m.relations.get? question.key = some r) {other : Phrase}
    (key : other.key = question.key)
    (first : Search.FreshArgs source ⟨[m.nextId], []⟩ question.args)
    (second : Search.FreshArgs source ⟨[m.nextId], []⟩ other.args)
    (same : ∀ (k : Skeleton) values,
      k.Instance m.database r other.args values ↔ k.Instance m.database r question.args values) :
    m.AnswersAlike question other := by
  classical
  obtain ⟨rank, ranks⟩ := Database.exists_ranks formed.acyclic.not_reaches
  have inside : source < (⟨[m.nextId], []⟩ : Progress).nextIds.length := Nat.one_pos
  obtain ⟨found, _, answers, isTrue, values, solutions⟩ :=
    run_question formed.acyclic.layered declared
  obtain ⟨others, _, further, isTrue', values', solutions'⟩ :=
    run_question formed.acyclic.layered (key ▸ declared)
  have fits := Search.answers_instances plain formed.salted ranks inside first answers
  have again := Search.answers_instances plain formed.salted ranks inside second further
  have alike : (fun k : Skeleton => decide (∃ values, k.Instance m.database r other.args values)) =
      fun k => decide (∃ values, k.Instance m.database r question.args values) :=
    funext fun k => decide_eq_decide.mpr (exists_congr (same k))
  rw [alike] at again
  have rows : found.map (·.valuesOf question.args) = others.map (·.valuesOf other.args) := by
    have settled (s : Substitution) (given : s ∈ found) : s.Settled :=
      answers.settled (query_named r question.args).isFinite given
    have settled' (s : Substitution) (given : s ∈ others) : s.Settled :=
      further.settled (query_named r other.args).isFinite given
    refine map_eq_of_forall₂ (fun left right => ?_)
      ((List.forall₂_and_left _ _).mpr ⟨settled, fits.flip⟩)
      ((List.forall₂_and_left _ _).mpr ⟨settled', again.flip⟩)
    exact Substitution.valuesOf_eq left.1 right.1 fun values =>
      (left.2 values).trans ((same _ values).symm.trans (right.2 values).symm)
  constructor
  · rw [isTrue, isTrue', rows]
  · rw [values, values', rows]
  · intro limit
    rw [solutions, solutions', rows]

/-- Where the facts are literals, a question is answered the same with other variables for its own,
if no name, old or new, begins with a salt that is still to come. -/
theorem Reachable.renamed_question_alike (reachable : m.Reachable) (literal : m.database.Literal)
    (question : Phrase) {f : String → String} (apart : ApartOn f question.args)
    (past : ∀ name, .var name ∈ question.args →
      ¬Naming.ToCome m.nextId name ∧ ¬Naming.ToCome m.nextId (f name)) :
    m.AnswersAlike question (question.withNames f) := by
  cases declared : m.relations.get? question.key with
  | none => exact answersAlike_undeclared rfl declared
  | some r =>
    refine answersAlike_of_instances reachable.wellFormed literal.plain declared rfl ?_ ?_ fun k =>
      k.instance_withNames literal apart r
    · intro term inside
      cases term with
      | lit value => trivial
      | var name => exact (past name inside).1
    · intro term inside
      obtain ⟨old, there, rfl⟩ := List.mem_map.mp inside
      cases old with
      | lit value => trivial
      | var name => exact (past name there).2

def ancestorText : String := "+ parent \"a\" \"b\"\n:: parent (x) (y)\n    + anc (x)"

def ancestors : Machine := ((load ancestorText).run {}).2

/-- The machine after a first question, for which the rule was used under the salt `0/`. -/
def askedAncestors : Machine := ((isTrue ⟨"anc %s", [.var "v"]⟩).run ancestors).2

/-- A name may begin with a salt that is past. -/
theorem renamed_question_alike_ancestors :
    askedAncestors.AnswersAlike ⟨"anc %s", [.var "v"]⟩ ⟨"anc %s", [.var "0/y"]⟩ := by
  have reachable : askedAncestors.Reachable :=
    ⟨false, false, 0, .trans (.load ancestorText {}) (.isTrue ⟨"anc %s", [.var "v"]⟩ ancestors)⟩
  have literal : askedAncestors.database.Literal := by decide +kernel
  have spent : askedAncestors.nextId = 1 := by decide +kernel
  have apart : ApartOn (fun _ => "0/y") (⟨"anc %s", [.var "v"]⟩ : Phrase).args := by
    intro name other here there _
    cases List.mem_singleton.mp here
    cases List.mem_singleton.mp there
    rfl
  have past : ∀ name, Term.var name ∈ (⟨"anc %s", [.var "v"]⟩ : Phrase).args →
      ¬Naming.ToCome askedAncestors.nextId name ∧ ¬Naming.ToCome askedAncestors.nextId "0/y" := by
    intro name inside
    cases List.mem_singleton.mp inside
    have salted : "0/y" = Naming.salt 0 ++ "y" := by decide +kernel
    rw [spent, salted]
    exact ⟨Naming.not_toCome_slashless (by decide), Naming.not_toCome_salt (by decide) "y"⟩
  exact reachable.renamed_question_alike literal ⟨"anc %s", [.var "v"]⟩ apart past

/-- A variable of the question that is called like a variable of the rule under its next salt is
taken for it. The two variables of the rule then have to be the same, and the answer is missed. -/
theorem captured_placeholder :
    ancestors.Reachable ∧ ancestors.database.Literal ∧ ancestors.nextId = 0 ∧
      Phrase.ofText "anc (0/y)" = (Phrase.ofText "anc (v)").withNames (fun _ => "0/y") ∧
      ((isTrue (.ofText "anc (v)")).run ancestors).1 = .ok true ∧
      ((isTrue (.ofText "anc (0/y)")).run ancestors).1 = .ok false :=
  ⟨⟨false, false, 0, .load ancestorText {}⟩, by decide +kernel⟩

end Machine
end Rulebook
