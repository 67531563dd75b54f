import Rulebook.Proofs.Search.Completeness
import Rulebook.Proofs.Search.Reflection

/-! Searches under other salts. What a rule's variables are called depends on the ids that were used
up before. Two searches for the same, each from ids of its own, salt different names, which stand
for one another in the order in which they are made; all other names stand for themselves. It takes
that one source mints all salts, and that nothing else has a name that either search salts. -/
namespace Rulebook

/-- A use of the rule makes this name: that of one of its variables, under the next salt. -/
def Rule.Salts (source : SourceId) (rule : Rule) (p : Progress) (name : String) : Prop :=
  rule.source = some source ∧
    ∃ own, .var own ∈ rule.terms ∧ name = Naming.salt (p.nextId source) ++ own

namespace Search

/-- The search comes to use a rule that makes this name, with an id before the last. -/
def Salts (db : Database) (source : SourceId) (search : Search) (p : Progress) (last : Int)
    (name : String) : Prop :=
  ∃ answers rest q rule, Runs db search p answers rest q ∧ rest.rule? db = some rule ∧
    q.nextId source < last ∧ rule.Salts source q name

section Salting
variable {db : Database} {source : SourceId} {search rest : Search} {p q q' r : Progress}
  {answers : List Substitution} {outcome : Outcome} {name : String}

/-- Where a run leads, the names of the next rule are salted, if the step is one of the search. -/
theorem salts_of_run (run : Runs db search p answers rest q) {rule : Rule}
    (found : rest.rule? db = some rule) (inside : source < q.nextIds.length)
    (stepped : rest.step db q = (outcome, q')) (before : q'.Before r)
    (salts : rule.Salts source q name) : search.Salts db source p (r.nextId source) name := by
  refine ⟨answers, rest, q, rule, run, found, ?_, salts⟩
  obtain ⟨args, used⟩ := nextIds_of_rule found q
  rw [stepped, rule.use_salted salts.1] at used
  have next : q'.nextId source = q.nextId source + 1 := by
    rw [Progress.nextId, used]
    exact q.nextId_advance inside
  have reached := before.2 source
  omega

theorem Salts.mono {last more : Int} (salts : search.Salts db source p last name)
    (le : last ≤ more) : search.Salts db source p more name := by
  obtain ⟨answers, rest, q, rule, run, found, less, made⟩ := salts
  exact ⟨answers, rest, q, rule, run, found, by omega, made⟩

/-- What is salted after a step is salted by the search. -/
theorem Salts.before {last : Int} (stepped : search.step db p = (outcome, q))
    (left : outcome.rest? = some rest) (salts : rest.Salts db source q last name) :
    search.Salts db source p last name := by
  obtain ⟨answers, final, q, rule, run, found, less, made⟩ := salts
  cases outcome with
  | answer s next =>
    cases left
    exact ⟨_, final, q, rule, .answer stepped run, found, less, made⟩
  | working next =>
    cases left
    exact ⟨_, final, q, rule, .working stepped run, found, less, made⟩
  | ended => cases left
  | failed fault => cases left

end Salting
end Search

namespace Pairing
variable {P : Pairing}

/-- What two salts make of these names stands for one another, if it was still to come. -/
def salted (P : Pairing) (salt salt' : String) (ok : String → Prop)
    (left : ∀ name, ok name → P.left (salt ++ name))
    (right : ∀ name, ok name → P.right (salt' ++ name)) : Pairing where
  pair a b := P.pair a b ∨ ∃ name, ok name ∧ a = salt ++ name ∧ b = salt' ++ name
  left a := P.left a ∧ ∀ name, ok name → a ≠ salt ++ name
  right b := P.right b ∧ ∀ name, ok name → b ≠ salt' ++ name
  functional := by
    rintro a b c (old | ⟨name, fine, rfl, rfl⟩) (here | ⟨other, known, same, rfl⟩)
    · exact P.functional old here
    · subst same
      exact absurd (left other known) (P.past old).1
    · exact absurd (left name fine) (P.past here).1
    · rw [(String.append_right_inj salt).mp same]
  injective := by
    rintro a b c (old | ⟨name, fine, rfl, rfl⟩) (here | ⟨other, known, rfl, same⟩)
    · exact P.injective old here
    · subst same
      exact absurd (right other known) (P.past old).2
    · exact absurd (right name fine) (P.past here).2
    · rw [(String.append_right_inj salt').mp same]
  past := by
    rintro a b (old | ⟨name, fine, rfl, rfl⟩)
    · exact ⟨fun later => (P.past old).1 later.1, fun later => (P.past old).2 later.1⟩
    · exact ⟨fun later => later.2 name fine rfl, fun later => later.2 name fine rfl⟩

section Salted
variable {salt salt' : String} {ok : String → Prop}
  {left : ∀ name, ok name → P.left (salt ++ name)}
  {right : ∀ name, ok name → P.right (salt' ++ name)}

theorem grows_salted : P.Grows (P.salted salt salt' ok left right) where
  pair := .inl
  fresh := by
    rintro a b (old | ⟨name, fine, rfl, rfl⟩)
    · exact .inl old
    · exact .inr ⟨left name fine, right name fine⟩
  left later := later.1
  right later := later.1

theorem salted_left_paired (paired : ∀ {a}, ¬P.left a → ∃ b, P.pair a b) {a : String}
    (known : ¬(P.salted salt salt' ok left right).left a) :
    ∃ b, (P.salted salt salt' ok left right).pair a b := by
  by_cases made : ∃ name, ok name ∧ a = salt ++ name
  · obtain ⟨name, fine, same⟩ := made
    exact ⟨_, .inr ⟨name, fine, same, rfl⟩⟩
  · have unmade (name : String) (fine : ok name) : a ≠ salt ++ name :=
      fun same => made ⟨name, fine, same⟩
    obtain ⟨b, old⟩ := paired fun later => known ⟨later, unmade⟩
    exact ⟨b, .inl old⟩

theorem salted_right_paired (paired : ∀ {b}, ¬P.right b → ∃ a, P.pair a b) {b : String}
    (known : ¬(P.salted salt salt' ok left right).right b) :
    ∃ a, (P.salted salt salt' ok left right).pair a b := by
  by_cases made : ∃ name, ok name ∧ b = salt' ++ name
  · obtain ⟨name, fine, same⟩ := made
    exact ⟨_, .inr ⟨name, fine, rfl, same⟩⟩
  · have unmade (name : String) (fine : ok name) : b ≠ salt' ++ name :=
      fun same => made ⟨name, fine, same⟩
    obtain ⟨a, old⟩ := paired fun later => known ⟨later, unmade⟩
    exact ⟨a, .inl old⟩

theorem same_salted_term {term : Term} (named : term.Named ok) :
    (P.salted salt salt' ok left right).Same (term.salted salt) (term.salted salt') := by
  cases term with
  | var name => exact .var (.inr ⟨name, named, rfl, rfl⟩)
  | lit value => exact .lit value

end Salted

/-- What is known of the names of two searches that have used up their ids so far. The names that
either makes from its next id on are still to come, as are all names that stand for none. On the
right there is one more name that the search itself does not know. -/
structure Foresees (source : SourceId) (known : String → Prop) (out : String)
    (made made' : String → Prop) (P : Pairing) (p q : Progress) : Prop where
  inside : source < p.nextIds.length
  inside' : source < q.nextIds.length
  known : ∀ {name}, known name → P.pair name name
  left : ∀ {name}, made name → Naming.ToCome (p.nextId source) name → P.left name
  right : ∀ {name}, made' name → Naming.ToCome (q.nextId source) name → P.right name
  leftPaired : ∀ {a}, ¬P.left a → ∃ b, P.pair a b
  rightPaired : ∀ {b}, ¬P.right b → ∃ a, P.pair a b
  waits : P.right out
  unmade : ¬made' out

section Foreseeing
variable {source : SourceId} {known made made' : String → Prop} {out : String}
  {p q r : Progress}

/-- Known names are none that either search makes. -/
theorem exists_foresees (inside : source < p.nextIds.length) (inside' : source < q.nextIds.length)
    (distinct : ∀ name, known name → ¬made name ∧ ¬made' name ∧ name ≠ out) (unmade : ¬made' out) :
    ∃ P, Foresees source known out made made' P p q := by
  refine ⟨diagonal known (¬known ·) (¬known ·) fun _ fine => ⟨not_not.mpr fine, not_not.mpr fine⟩,
    inside, inside', fun fine => ⟨rfl, fine⟩, ?_, ?_, ?_, ?_, ?_, unmade⟩
  · exact fun made _ fine => (distinct _ fine).1 made
  · exact fun made _ fine => (distinct _ fine).2.1 made
  · exact fun {a} fine => ⟨a, rfl, not_not.mp fine⟩
  · exact fun {b} fine => ⟨b, rfl, not_not.mp fine⟩
  · exact fun fine => (distinct out fine).2.2 rfl

/-- Others may use up ids on the right. -/
theorem Foresees.later (foresees : Foresees source known out made made' P p q)
    (before : q.Before r) : Foresees source known out made made' P p r where
  inside := foresees.inside
  inside' := before.1 ▸ foresees.inside'
  known := foresees.known
  left := foresees.left
  right here later := foresees.right here (later.mono (before.2 source))
  leftPaired := foresees.leftPaired
  rightPaired := foresees.rightPaired
  waits := foresees.waits
  unmade := foresees.unmade

/-- Fewer names may be made on the left. -/
theorem Foresees.mono {less : String → Prop} (fewer : ∀ name, less name → made name)
    (foresees : Foresees source known out made made' P p q) :
    Foresees source known out less made' P p q where
  inside := foresees.inside
  inside' := foresees.inside'
  known := foresees.known
  left here := foresees.left (fewer _ here)
  right := foresees.right
  leftPaired := foresees.leftPaired
  rightPaired := foresees.rightPaired
  waits := foresees.waits
  unmade := foresees.unmade

theorem Foresees.same_known (foresees : Foresees source known out made made' P p q) {term : Term}
    (named : term.Named known) : P.Same term term := by
  cases term with
  | var name => exact .var (foresees.known named)
  | lit value => exact .lit value

/-- The rule's salts come from this source; without any, its names are known. -/
def Draws (source : SourceId) (known : String → Prop) (rule : Rule) : Prop :=
  rule.source = some source ∨ rule.source = none ∧ ∀ term ∈ rule.terms, term.Named known

structure Sourced (source : SourceId) (known : String → Prop) (db : Database) : Prop where
  stored : ∀ r, ∀ fact ∈ (db.relation r).facts, ∀ term ∈ fact, term.Named known
  draws : ∀ r, ∀ rule ∈ (db.relation r).rules, Draws source known rule

def Within (source : SourceId) (made made' : String → Prop) (rule : Rule) (p q : Progress) : Prop :=
  (∀ name, rule.Salts source p name → made name) ∧ ∀ name, rule.Salts source q name → made' name

/-- Once both searches have minted a salt for a rule, what these make of its variables stands for
one another. -/
theorem Foresees.minted (foresees : Foresees source known out made made' P p q) {rule : Rule}
    (drawn : rule.source = some source) (within : Within source made made' rule p q) :
    ∃ Q, P.Grows Q ∧ Foresees source known out made made' Q (p.advance source) (q.advance source) ∧
      ∀ term ∈ rule.terms, Q.Same (term.salted (Naming.salt (p.nextId source)))
        (term.salted (Naming.salt (q.nextId source))) := by
  obtain ⟨here, there⟩ := within
  have next := p.nextId_advance foresees.inside
  have next' := q.nextId_advance foresees.inside'
  have left (name : String) (stored : .var name ∈ rule.terms) :
      P.left (Naming.salt (p.nextId source) ++ name) :=
    foresees.left (here _ ⟨drawn, name, stored, rfl⟩) (Naming.toCome_salt name)
  have right (name : String) (stored : .var name ∈ rule.terms) :
      P.right (Naming.salt (q.nextId source) ++ name) :=
    foresees.right (there _ ⟨drawn, name, stored, rfl⟩) (Naming.toCome_salt name)
  refine ⟨P.salted _ _ (.var · ∈ rule.terms) left right, grows_salted, ?_, fun term stored => ?_⟩
  · constructor
    case inside => exact (p.before_advance source).1 ▸ foresees.inside
    case inside' => exact (q.before_advance source).1 ▸ foresees.inside'
    case known => exact fun fine => .inl (foresees.known fine)
    case left =>
      intro name made later
      rw [next] at later
      refine ⟨foresees.left made (later.mono (by omega)), ?_⟩
      rintro own _ rfl
      exact Naming.not_toCome_salt (by omega) own later
    case right =>
      intro name made later
      rw [next'] at later
      refine ⟨foresees.right made (later.mono (by omega)), ?_⟩
      rintro own _ rfl
      exact Naming.not_toCome_salt (by omega) own later
    case leftPaired => exact salted_left_paired foresees.leftPaired
    case rightPaired => exact salted_right_paired foresees.rightPaired
    case waits =>
      refine ⟨foresees.waits, ?_⟩
      rintro name stored rfl
      exact foresees.unmade (there _ ⟨drawn, name, stored, rfl⟩)
    case unmade => exact foresees.unmade
  · apply same_salted_term
    cases term with
    | var name => exact stored
    | lit value => trivial

/-- Two uses of a rule pair the names that they make. -/
theorem Foresees.used (foresees : Foresees source known out made made' P p q) {rule : Rule}
    (draws : Draws source known rule) {args args' : List Term}
    (same : List.Forall₂ P.Same args args') (within : Within source made made' rule p q) :
    ∃ Q, P.Grows Q ∧
      Foresees source known out made made' Q (rule.use args p).2 (rule.use args' q).2 ∧
      Q.SameGoal (rule.use args p).1 (rule.use args' q).1 := by
  rcases draws with drawn | ⟨none, named⟩
  · rw [rule.use_salted drawn, rule.use_salted drawn]
    obtain ⟨Q, grows, there, alike⟩ := foresees.minted drawn within
    exact ⟨Q, grows, there, sameGoal_rule (same_grows same grows) alike⟩
  · have unsalted (args : List Term) (p : Progress) : rule.use args p = (rule.goal args "", p) := by
      rw [Rule.use, none]
    rw [unsalted, unsalted]
    refine ⟨P, .refl P, foresees, sameGoal_rule same fun term inside => ?_⟩
    rw [term.salted_empty]
    exact foresees.same_known (named term inside)

/-- What is foreseen stays so. -/
theorem Sourced.keeps {db : Database} (sourced : Sourced source known db) :
    Keeps db (Foresees source known out made made') (Within source made made') where
  stored foresees r fact inside := List.forall₂_same.mpr fun term among =>
    foresees.same_known (sourced.stored r fact inside term among)
  used := by
    intro P p q foresees r args args' rule inside same within
    exact foresees.used (sourced.draws r rule inside) same within

end Foreseeing
end Pairing
end Rulebook
