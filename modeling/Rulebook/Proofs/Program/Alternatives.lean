import Rulebook.Proofs.Machine.Reachable
import Rulebook.Proofs.Search.Turns

/-! What an action answers. Its rules are used one after the other, each under a salt of its own,
and then searched in turn. Each alternative has an answer for each answer that its rule has by
itself, whatever ids were used up before, as long as one source mints all salts and nothing else has
a name that is salted. -/
namespace Rulebook

def Rule.asked (rule : Rule) (db : Database) (args : List Term) (p : Progress) : Harvest :=
  let (goal, p) := rule.use args p
  (Search.pending goal .empty).harvest db none p

/-- A name that is made when the rule is asked by itself. -/
def Rule.Salted (rule : Rule) (db : Database) (source : SourceId) (args : List Term) (p : Progress)
    (name : String) : Prop :=
  rule.Salts source p name ∨
    (Search.pending (rule.use args p).1 .empty).Salts db source (rule.use args p).2
      ((rule.asked db args p).progress.nextId source) name

namespace Action

def asked (action : Action) (db : Database) (args : List Term) (out : String) (wanted : Option Nat)
    (p : Progress) : Harvest :=
  let (goal, p) := action.goal args (.var out) p
  (Search.pending goal .empty).harvest db wanted p

/-- All terms in the arguments, in the rules as they are written and in the facts. -/
def vocabulary (action : Action) (db : Database) (args : List Term) : List Term :=
  args ++ action.entries.flatMap (·.1.terms) ++
    db.relations.flatMap fun relation => relation.facts.flatten ++ relation.rules.flatMap Rule.terms

def Mentions (db : Database) (action : Action) (args : List Term) (name : String) : Prop :=
  .var name ∈ action.vocabulary db args

/-- Using the rules one after the other makes this name. -/
def EntriesSalt (source : SourceId) (args : List Term) :
    List (Rule × String) → Progress → String → Prop
  | [], _, _ => False
  | entry :: entries, p, name =>
    entry.1.Salts source p name ∨ EntriesSalt source args entries (entry.1.use args p).2 name

def Salted (action : Action) (db : Database) (source : SourceId) (args : List Term) (out : String)
    (wanted : Option Nat) (p : Progress) (name : String) : Prop :=
  EntriesSalt source args action.entries p name ∨
    (Search.pending (action.goal args (.var out) p).1 .empty).Salts db source
      (action.goal args (.var out) p).2
      ((action.asked db args out wanted p).progress.nextId source) name

def Avoids (db : Database) (action : Action) (args : List Term) (names : String → Prop) : Prop :=
  ∀ name, action.Mentions db args name → ¬names name

/-- What the rules of the action answer, each by itself, whatever ids have been used up before. -/
def Results (db : Database) (action : Action) (args : List Term) (source : SourceId)
    (results : List Harvest) : Prop :=
  List.Forall₂ (fun entry found => ∃ p, source < p.nextIds.length ∧
    found = entry.1.asked db args p ∧
    action.Avoids db args (entry.1.Salted db source args p)) action.entries results

structure OneSource (db : Database) (action : Action) (source : SourceId) : Prop where
  own : ∀ entry ∈ action.entries, entry.1.source = none ∨ entry.1.source = some source
  stored : ∀ r, ∀ rule ∈ (db.relation r).rules, rule.source = none ∨ rule.source = some source

def firstHolding (entries : List (Rule × String)) (results : List Harvest) : Option String :=
  ((entries.zip results).find? fun (_, found) => !found.answers.isEmpty).map (·.1.2)

def paidAnswers (entries : List (Rule × String)) (results : List Harvest) :
    List (List (Substitution × String)) :=
  List.zipWith (fun entry found => found.answers.map (·, entry.2)) entries results

theorem head?_paidAnswers (entries : List (Rule × String)) (results : List Harvest) :
    (paidAnswers entries results).flatten.head?.map (·.2) = firstHolding entries results := by
  unfold paidAnswers firstHolding
  induction entries generalizing results with
  | nil => rfl
  | cons entry entries ih =>
    cases results with
    | nil => rfl
    | cons found results =>
      have later := ih results
      cases answers : found.answers with
      | nil => simpa [answers] using later
      | cons s more => simp [answers]

section Searching
variable {db : Database} {action : Action} {args : List Term} {source : SourceId} {out : String}
  {results : List Harvest} {p : Progress}

theorem mentions_of_subset {terms : List Term} (inside : terms ⊆ action.vocabulary db args) :
    ∀ term ∈ terms, term.Named (action.Mentions db args) := by
  intro term member
  cases term with
  | var name => exact inside member
  | lit value => trivial

theorem argument_mentioned : ∀ term ∈ args, term.Named (action.Mentions db args) :=
  mentions_of_subset (List.subset_append_of_subset_left _ (List.subset_append_left ..))

theorem entry_mentioned {entry : Rule × String} (member : entry ∈ action.entries) :
    ∀ term ∈ entry.1.terms, term.Named (action.Mentions db args) := by
  apply mentions_of_subset
  apply List.subset_append_of_subset_left
  apply List.subset_append_of_subset_right
  exact fun term inside => List.mem_flatMap.mpr ⟨entry, member, inside⟩

theorem relation_mentioned (r : RelationId) :
    (db.relation r).facts.flatten ++ (db.relation r).rules.flatMap Rule.terms ⊆
      action.vocabulary db args := by
  apply List.subset_append_of_subset_right
  intro term inside
  rw [Database.relation] at inside
  cases found : db.relations[r]? with
  | none => simp [found] at inside
  | some relation =>
    rw [found, Option.getD_some] at inside
    exact List.mem_flatMap.mpr ⟨relation, List.mem_of_getElem? found, inside⟩

theorem draws_of {rule : Rule} (drawn : rule.source = none ∨ rule.source = some source)
    (mentioned : ∀ term ∈ rule.terms, term.Named (action.Mentions db args)) :
    Pairing.Draws source (action.Mentions db args) rule :=
  drawn.symm.imp_right fun none => ⟨none, mentioned⟩

theorem OneSource.sourced (one : OneSource db action source) (args : List Term) :
    Pairing.Sourced source (action.Mentions db args) db where
  stored r fact stored := by
    apply mentions_of_subset
    intro term inside
    apply relation_mentioned r
    exact List.mem_append_left _ (List.mem_flatten.mpr ⟨fact, stored, inside⟩)
  draws r rule stored := by
    apply draws_of (one.stored r rule stored)
    apply mentions_of_subset
    intro term inside
    apply relation_mentioned r
    exact List.mem_append_right _ (List.mem_flatMap.mpr ⟨rule, stored, inside⟩)

/-- A rule by itself is searched to its end. -/
theorem gives_asked (acyclic : db.Acyclic) (rule : Rule) (args : List Term) (p : Progress) :
    (rule.asked db args p).stop = .ended ∧
      (Search.pending (rule.use args p).1 .empty).Gives db (rule.use args p).2
        (rule.asked db args p).answers (rule.asked db args p).progress := by
  obtain ⟨found, last, q, run, ⟨all, _⟩ | ⟨r, ended, same⟩⟩ := Search.harvest_known acyclic.layered
    none (.pending (rule.use_named args p) Substitution.settled_empty) (rule.use args p).2
  · cases all
  · rw [Rule.asked]
    dsimp only
    rw [same]
    exact ⟨rfl, last, q, run, ended⟩

/-- Using the rules of an action one after the other opens alternatives, each of which has still to
give all that its rule answers by itself. -/
theorem alternates_branches (acyclic : db.Acyclic) (one : OneSource db action source)
    {entries : List (Rule × String)} (own : ∀ entry ∈ entries, entry ∈ action.entries)
    (each : List.Forall₂ (fun entry found => ∃ p, source < p.nextIds.length ∧
      found = entry.1.asked db args p ∧ action.Avoids db args (entry.1.Salted db source args p))
      entries results)
    {q : Progress} (inside : source < q.nextIds.length) {made' : String → Prop}
    (within : ∀ name, EntriesSalt source args entries q name → made' name)
    (avoids : action.Avoids db args made') (fresh : ¬action.Mentions db args out)
    (apart : ¬made' out) :
    List.Forall₂ (fun list goal => Search.Alternates db source (action.Mentions db args) out made'
        list (.pending goal .empty) (branches args (.var out) entries q).2)
      (paidAnswers entries results) (branches args (.var out) entries q).1 := by
  induction each generalizing q with
  | nil => exact .nil
  | @cons entry found entries results here _ ih =>
    obtain ⟨p, minting, rfl, clear⟩ := here
    obtain ⟨mine, others⟩ := List.forall_mem_cons.mp own
    have gives := (gives_asked acyclic entry.1 args p).2
    have behind := Machine.before_branches args (.var out) entries (entry.1.use args q).2
    have distinct (name : String) (known : action.Mentions db args name) :
        ¬entry.1.Salted db source args p name ∧ ¬made' name ∧ name ≠ out := by
      refine ⟨clear name known, avoids name known, ?_⟩
      rintro rfl
      exact fresh known
    obtain ⟨P, foresees⟩ := Pairing.exists_foresees minting inside distinct apart
    have draws : Pairing.Draws source (action.Mentions db args) entry.1 :=
      draws_of (one.own entry mine) (entry_mentioned mine)
    have same : List.Forall₂ P.Same args args := List.forall₂_same.mpr fun term member =>
      foresees.same_known (argument_mentioned term member)
    obtain ⟨Q, _, foresees, goals⟩ := foresees.used draws same
      ⟨fun _ => .inl, fun name salts => within name (.inl salts)⟩
    have follows : Search.Follows db source (action.Mentions db args) out made' Q
        (entry.1.asked db args p).answers (.pending (entry.1.use args q).1 .empty)
        (entry.1.use args q).2 :=
      ⟨_, _, _, foresees.mono fun _ => .inr, .pending (goals.opens (Pairing.reflects_empty Q)),
        gives⟩
    refine .cons (.pending (follows.later behind)) ?_
    exact ih others ((entry.1.before_use args q).1 ▸ inside) fun name salts =>
      within name (.inr salts)

theorem asked_stops (acyclic : db.Acyclic) (action : Action) (args : List Term) (out : String)
    (wanted : Option Nat) (p : Progress) :
    (action.asked db args out wanted p).stop = .enough ∨
      (action.asked db args out wanted p).stop = .ended := by
  have named := branches_named args (.var out) action.entries p
  obtain ⟨_, _, _, _, ⟨_, same⟩ | ⟨_, _, same⟩⟩ := Search.harvest_known acyclic.layered wanted
    (.pending (.any named) Substitution.settled_empty) (branches args (.var out) action.entries p).2
  · exact .inl (congrArg Harvest.stop same)
  · exact .inr (congrArg Harvest.stop same)

/-- What an action answers: the answers of its rules in turn, each with its payload, up to where
there are enough or to their end. -/
theorem asked_inTurn (acyclic : db.Acyclic) (one : OneSource db action source)
    (each : Results db action args source results) (inside : source < p.nextIds.length)
    {wanted : Option Nat} (avoids : action.Avoids db args (action.Salted db source args out wanted p))
    (fresh : ¬action.Mentions db args out) (apart : ¬action.Salted db source args out wanted p out) :
    ∃ given left, takeTurns (paidAnswers action.entries results) = given ++ left ∧
      List.Forall₂ (Substitution.Pays (action.Mentions db args) out) given
        (action.asked db args out wanted p).answers ∧
      ((action.asked db args out wanted p).stop = .enough ∧ wanted = some given.length ∨
        (action.asked db args out wanted p).stop = .ended ∧ left = []) := by
  have named := branches_named args (.var out) action.entries p
  have finite : (Search.pending (.any (branches args (.var out) action.entries p).1)
      .empty).isFinite := (Goal.Named.any named).isFinite
  have harvested : Search.Harvested db wanted
      (.pending (.any (branches args (.var out) action.entries p).1) .empty)
      (branches args (.var out) action.entries p).2 (action.asked db args out wanted p) :=
    Search.harvested_harvest acyclic.layered wanted finite _
  have alternates := alternates_branches acyclic one (fun _ => id) each inside (fun _ => .inl)
    avoids fresh apart
  have behind := Machine.before_branches args (.var out) action.entries p
  exact harvested.inTurn (one.sourced args) (.pending alternates) (behind.1 ▸ inside) fun _ => .inr

/-- The payload in the first answer is that of the first rule that has one. -/
theorem payload_asked (acyclic : db.Acyclic) (one : OneSource db action source)
    (each : Results db action args source results) (inside : source < p.nextIds.length)
    (avoids : action.Avoids db args (action.Salted db source args out (some 1) p))
    (fresh : ¬action.Mentions db args out)
    (apart : ¬action.Salted db source args out (some 1) p out) :
    (action.asked db args out (some 1) p).answers.head?.map (fun s => (s.walk (.var out)).key) =
      firstHolding action.entries results := by
  obtain ⟨given, left, same, pays, stop⟩ :=
    asked_inTurn acyclic one each inside avoids fresh apart
  have first : given.head? = (paidAnswers action.entries results).flatten.head? := by
    rw [← head?_takeTurns, same]
    rcases stop with ⟨_, all⟩ | ⟨_, rfl⟩
    · cases given with
      | nil => cases all
      | cons a given => rfl
    · rw [List.append_nil]
  rw [← head?_paidAnswers, ← first]
  generalize (action.asked db args out (some 1) p).answers = answers at pays
  cases pays with
  | nil => rfl
  | cons here _ =>
    obtain ⟨t, _, rfl⟩ := here
    simp only [List.head?_cons, Option.map_some, Substitution.walk_out]
    rfl

end Searching
end Action
end Rulebook
