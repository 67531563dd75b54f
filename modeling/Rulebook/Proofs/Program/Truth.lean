import Rulebook.Proofs.Program.Contents

/-! Questions about a loaded text. A machine that holds the facts and rules of a text derives what
follows from them, and it answers a question without variables by whether that is derivable. -/
namespace Rulebook

namespace Machine
variable {m n : Machine}

/-- A question without variables is answered by whether its texts are derivable. -/
theorem isTrue_iff_derivable (formed : m.WellFormed) (literal : m.database.Literal)
    {question : Phrase} (closed : ∀ term ∈ question.args, term.isLiteral) {r : RelationId}
    (declared : m.relations.get? question.key = some r) :
    ∃ holds n, (isTrue question).run m = (.ok holds, n) ∧
      (holds = true ↔ Derivable m.database r (question.args.map Term.key)) := by
  have named := query_named r question.args
  obtain ⟨found, last, q, id, run, ended, first⟩ := run_firstAnswer formed.acyclic.layered named
  refine ⟨_, _, (run_bind_ok (run_goalOf declared)).trans (run_bind_ok first), ?_⟩
  constructor
  · intro answered
    obtain ⟨s, head⟩ := Option.isSome_iff_exists.mp answered
    have given : s ∈ found := List.mem_of_mem_head? head
    have pending : (Search.pending (.query r question.args) .empty).IsSettled :=
      .pending named.isFinite Substitution.settled_empty
    have holds := Substitution.holds_reading (run.settled pending given) fun _ => ""
    cases run.sound pending given holds with
    | pending _ here =>
      cases here with
      | query derivable => rwa [map_under_key closed] at derivable
  · intro derivable
    cases found with
    | cons s found => rfl
    | nil =>
      obtain ⟨p, exhausted⟩ := ended rfl
      have answers : Search.Answers m.database (.query r question.args) ⟨[m.nextId], []⟩ [] p :=
        ⟨last, q, run, exhausted⟩
      have fresh : Search.FreshGoal source ⟨[m.nextId], []⟩ (.query r question.args) :=
        ⟨.query fun term inside => .of_literal (closed term inside) _, Nat.one_pos⟩
      obtain ⟨_, _, s, given, _⟩ := answers.complete literal formed.salted fresh
        (σ := fun _ => "") (.query (by rwa [map_under_key closed]))
      cases given

namespace States
variable {facts : List Phrase} {rules : List Position}

theorem claims (states : m.States facts rules) {claimed : List Phrase}
    (run : (claimed.forM claim).run m = (.ok ⟨⟩, n)) : n.States (facts ++ claimed) rules := by
  induction claimed generalizing m facts with
  | nil =>
    cases run
    rwa [List.append_nil]
  | cons fact claimed ih =>
    obtain ⟨_, middle, first, others⟩ := bind_ok run
    have next := ih (states.assert fact first) others
    rwa [List.append_assoc] at next

theorem literal (states : m.States facts rules)
    (closed : ∀ fact ∈ facts, ∀ term ∈ fact.args, term.isLiteral) : m.database.Literal := by
  intro r fact stored
  have inside : r < m.database.relations.length := by
    apply Nat.lt_of_not_le
    intro out
    rw [Database.relation_eq_empty out] at stored
    cases stored
  have held : fact ∈ (m.under (m.database.nameOf r)).facts := by
    rwa [under_of_found (states.formed.keyed r inside)]
  exact closed _ ((states.facts ⟨m.database.nameOf r, fact⟩).mp held)

/-- What is derivable is what follows. -/
theorem derivable_iff (states : m.States facts rules)
    (closed : ∀ fact ∈ facts, ∀ term ∈ fact.args, term.isLiteral) {key : String} {r : RelationId}
    (found : m.relations.get? key = some r) {values : List String} :
    Derivable m.database r values ↔ Follows facts rules key values := by
  constructor
  · intro derivable
    induction derivable generalizing key with
    | @fact r fact σ stored =>
      have held := (states.facts ⟨key, fact⟩).mp (by rwa [under_of_found found])
      rw [map_under_key (closed _ held)]
      exact .fact held
    | @rule r rule σ stored _ ih =>
      obtain ⟨place, inside, rfl, compiled⟩ :=
        states.sound key rule (by rwa [under_of_found found])
      rw [compiled.params]
      refine .rule σ inside fun line above condition => ?_
      obtain ⟨asked, member, there, args⟩ := compiled.exists_condition above condition
      rw [← args]
      exact ih asked member there
  · intro follows
    induction follows generalizing r with
    | @fact fact held =>
      have stored := (states.facts fact).mpr held
      rw [under_of_found found] at stored
      rw [← map_under_key (closed fact held) fun _ => ""]
      exact .fact _ stored
    | @rule place σ inside _ ih =>
      obtain ⟨rule, stored, compiled⟩ := states.complete place inside
      rw [under_of_found found] at stored
      rw [← compiled.params]
      refine .rule σ stored fun condition member => ?_
      obtain ⟨line, above, kind, there, args⟩ := compiled.exists_line member
      rw [args]
      exact ih line above kind there

end States

/-- After a text without exclusions and any claims, a question without variables is true exactly
when it follows from the facts at the top, the claims and the rules of the text. -/
theorem isTrue_iff_follows {verbose strict : Bool} {id : Int} {text : String}
    (loaded : (load text).run { verbose, strict, nextId := id } = (.ok ⟨⟩, m))
    (unexcluded : ∀ place ∈ placesOfText text, place.line.kind ≠ .exclusion)
    (top : ∀ fact ∈ factsAmong (placesOfText text), ∀ term ∈ fact.args, term.isLiteral)
    {claims : List Phrase} (claimed : (claims.forM claim).run m = (.ok ⟨⟩, n))
    (closed : ∀ fact ∈ claims, ∀ term ∈ fact.args, term.isLiteral)
    {question : Phrase} (asked : ∀ term ∈ question.args, term.isLiteral) {r : RelationId}
    (declared : n.relations.get? question.key = some r) :
    ∃ holds k, (isTrue question).run n = (.ok holds, k) ∧
      (holds = true ↔ Follows (factsAmong (placesOfText text) ++ claims)
        (rulesAmong (placesOfText text)) question.key (question.args.map Term.key)) := by
  have top_level : ∀ line ∈ ([] : List Line), line.kind ≠ .action := by simp
  have states := loadBlocks_states top_level (outline text) unexcluded
    (.of_new verbose strict id) loaded
  rw [List.nil_append, List.nil_append] at states
  have last := states.claims claimed
  have literal : ∀ fact ∈ factsAmong (placesOfText text) ++ claims,
      ∀ term ∈ fact.args, term.isLiteral :=
    List.forall_mem_append.mpr ⟨top, closed⟩
  obtain ⟨holds, k, run, answer⟩ :=
    isTrue_iff_derivable last.formed (last.literal literal) asked declared
  exact ⟨holds, k, run, answer.trans (last.derivable_iff literal declared)⟩

def mortalText : String := "+man \"a\"\n::man (x)\n +mortal (x)"

def mortals : Machine := ((load mortalText).run {}).2

def moreMortals : Machine := ((([⟨"man %s", [.lit "b"]⟩] : List Phrase).forM claim).run mortals).2

/-- What follows can be seen from what the machine answers. -/
theorem follows_mortal : Follows (factsAmong (placesOfText mortalText) ++ [⟨"man %s", [.lit "b"]⟩])
    (rulesAmong (placesOfText mortalText)) "mortal %s" ["b"] := by
  have loaded : (load mortalText).run {} = (.ok ⟨⟩, mortals) := run_of_ok (by decide +kernel)
  have claimed : (([⟨"man %s", [.lit "b"]⟩] : List Phrase).forM claim).run mortals =
      (.ok ⟨⟩, moreMortals) := run_of_ok (by decide +kernel)
  have asked : ∀ term ∈ (⟨"mortal %s", [.lit "b"]⟩ : Phrase).args, term.isLiteral := by decide
  have declared : moreMortals.relations.get? (⟨"mortal %s", [.lit "b"]⟩ : Phrase).key = some 1 := by
    decide +kernel
  obtain ⟨holds, k, run, answer⟩ := isTrue_iff_follows loaded (by decide +kernel)
    (by decide +kernel) claimed (by decide) asked declared
  have yes : ((isTrue ⟨"mortal %s", [.lit "b"]⟩).run moreMortals).1 = .ok true := by decide +kernel
  rw [run] at yes
  exact answer.mp (Except.ok.inj yes)

end Machine
end Rulebook
