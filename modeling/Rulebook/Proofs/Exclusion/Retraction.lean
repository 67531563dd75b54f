import Mathlib.Data.Fintype.EquivFin
import Rulebook.Proofs.Machine.Reachable

/-! What a claim retracts. An exclusion asks for the stored facts that are instances of its
parameters, have the terms of the new fact at the flagged positions and make its conditions
derivable, and exactly these go. -/
namespace Rulebook

/-- The exclusion rules the stored fact out beside the new one. -/
def RulesOut (db : Database) (exclusion : Exclusion) (new fact : List Term) : Prop :=
  ∃ σ : Valuation, (exclusion.rule.params.map (Term.under σ)).map Term.lit = fact ∧
    (∀ place : Nat, exclusion.bound[place]? = some true → fact[place]? = new[place]?) ∧
    ∀ condition ∈ exclusion.rule.conditions,
      Derivable db condition.1 (condition.2.map (Term.under σ))

open Classical in
/-- What an exclusion leaves of the facts of a relation. -/
noncomputable def remaining (db : Database) (r : RelationId) (new : List Term)
    (facts : List (List Term)) (exclusion : Exclusion) : List (List Term) :=
  facts.filter fun fact => ¬RulesOut (db.withFacts r facts) exclusion new fact

theorem mem_remaining {db : Database} {r : RelationId} {new fact : List Term}
    {facts : List (List Term)} {exclusion : Exclusion} :
    fact ∈ remaining db r new facts exclusion ↔
      fact ∈ facts ∧ ¬RulesOut (db.withFacts r facts) exclusion new fact := by
  simp only [remaining, List.mem_filter, decide_eq_true_eq]

theorem remaining_withFacts {db : Database} {r : RelationId} (declared : r < db.relations.length)
    (facts : List (List Term)) (new : List Term) :
    remaining (db.withFacts r facts) r new = remaining db r new := by
  funext more exclusion
  rw [remaining, Database.withFacts_withFacts declared, remaining]

theorem Database.Literal.withFacts {db : Database} {r : RelationId} (literal : db.Literal)
    (declared : r < db.relations.length) {facts : List (List Term)}
    (new : ∀ fact ∈ facts, ∀ term ∈ fact, term.isLiteral) : (db.withFacts r facts).Literal := by
  intro s fact stored
  rw [relation_withFacts declared] at stored
  split at stored
  · exact new fact stored
  · exact literal s fact stored

structure Exclusion.Plain (exclusion : Exclusion) : Prop where
  params : ∀ term ∈ exclusion.rule.params, term.Plain
  conditions : ∀ condition ∈ exclusion.rule.conditions, ∀ term ∈ condition.2, term.Plain

instance (exclusion : Exclusion) : Decidable exclusion.Plain :=
  decidable_of_iff ((∀ term ∈ exclusion.rule.params, term.Plain) ∧
      ∀ condition ∈ exclusion.rule.conditions, ∀ term ∈ condition.2, term.Plain)
    ⟨fun plain => ⟨plain.1, plain.2⟩, fun plain => ⟨plain.params, plain.conditions⟩⟩

/-- A text that none of the given texts is. -/
theorem exists_other_text (texts : List String) : ∃ text, text ∉ texts := by
  obtain ⟨text, other⟩ := Infinite.exists_notMem_finset texts.toFinset
  exact ⟨text, fun inside => other (List.mem_toFinset.mpr inside)⟩

namespace Machine

section Mask

theorem masked_true (id : Int) (term : Term) (terms : List Term) (flags : List Bool) :
    (masked id (term :: terms) (true :: flags)).1 = term :: (masked id terms flags).1 := rfl

theorem masked_false (id : Int) (term : Term) (terms : List Term) (flags : List Bool) :
    (masked id (term :: terms) (false :: flags)).1 =
      Naming.fresh id "" :: (masked (id + 1) terms flags).1 := rfl

theorem masked_nil_left (id : Int) (flags : List Bool) : (masked id [] flags).1 = [] := by
  cases flags <;> rfl

theorem masked_nil_right (id : Int) (terms : List Term) : (masked id terms []).1 = [] := by
  cases terms <;> rfl

/-- A flagged position keeps its term. -/
theorem masked_flagged {terms : List Term} {flags : List Bool} {place : Nat} (id : Int)
    (flagged : flags[place]? = some true) :
    (masked id terms flags).1[place]? = terms[place]? := by
  induction terms generalizing id flags place with
  | nil => rw [masked_nil_left]
  | cons term terms ih =>
    cases flags with
    | nil => cases flagged
    | cons flag flags =>
      cases place with
      | zero =>
        cases flag with
        | true => rfl
        | false => cases flagged
      | succ place =>
        cases flag with
        | true => exact ih id flagged
        | false => exact ih (id + 1) flagged

/-- The name of a fresh variable without a hint, of this number or a later one. -/
def IsMask (id : Int) (name : String) : Prop := ∃ later, id ≤ later ∧ name = "?" ++ toString later

theorem fresh_eq (id : Int) : Naming.fresh id "" = .var ("?" ++ toString id) := by
  rw [Naming.fresh, if_pos rfl]

theorem IsMask.mono {id later : Int} (le : id ≤ later) {name : String} (mask : IsMask later name) :
    IsMask id name := by
  obtain ⟨other, bound, same⟩ := mask
  exact ⟨other, by omega, same⟩

/-- Where the terms are literals, only masks have names. -/
theorem masked_named {terms : List Term} (id : Int) (flags : List Bool)
    (literal : ∀ term ∈ terms, term.isLiteral) :
    ∀ term ∈ (masked id terms flags).1, term.Named (IsMask id) := by
  induction terms generalizing id flags with
  | nil =>
    rw [masked_nil_left]
    simp
  | cons term terms ih =>
    obtain ⟨first, others⟩ := List.forall_mem_cons.mp literal
    cases flags with
    | nil =>
      rw [masked_nil_right]
      simp
    | cons flag flags =>
      cases flag with
      | true => exact List.forall_mem_cons.mpr ⟨.of_literal first _, ih id flags others⟩
      | false =>
        rw [masked_false, fresh_eq]
        refine List.forall_mem_cons.mpr ⟨⟨id, by omega, rfl⟩, fun term inside => ?_⟩
        exact (ih (id + 1) flags others term inside).imp fun _ => IsMask.mono (by omega)

/-- The other positions take any texts, whatever the valuation says of other names. -/
theorem masked_fits (σ : Valuation) {terms fact : List Term} {flags : List Bool} (id : Int)
    (new : ∀ term ∈ terms, term.isLiteral) (literal : ∀ term ∈ fact, term.isLiteral)
    (flagged : ∀ place : Nat, flags[place]? = some true → fact[place]? = terms[place]?)
    (flags_length : flags.length = fact.length) (terms_length : fact.length ≤ terms.length) :
    ∃ τ, σ.Agrees (fun name => ¬IsMask id name) τ ∧
      (masked id terms flags).1.map (Term.under τ) = fact.map (Term.under σ) := by
  induction terms generalizing id flags fact with
  | nil =>
    cases fact with
    | nil => exact ⟨σ, .self _ σ, by rw [masked_nil_left]⟩
    | cons => exact absurd terms_length (Nat.not_succ_le_zero _)
  | cons term terms ih =>
    cases fact with
    | nil =>
      rw [List.length_eq_zero_iff.mp flags_length]
      exact ⟨σ, .self _ σ, by rw [masked_nil_right]⟩
    | cons first fact =>
    cases flags with
    | nil => cases flags_length
    | cons flag flags =>
    obtain ⟨here, others⟩ := List.forall_mem_cons.mp literal
    have below (next : Int) : ∃ τ, σ.Agrees (fun name => ¬IsMask next name) τ ∧
        (masked next terms flags).1.map (Term.under τ) = fact.map (Term.under σ) := ih next
      (fun term inside => new term (by simp [inside])) others
      (fun place => flagged (place + 1)) (Nat.succ.inj flags_length)
      (Nat.le_of_succ_le_succ terms_length)
    cases flag with
    | true =>
      obtain ⟨τ, agrees, equal⟩ := below id
      have same : first = term := Option.some.inj (flagged 0 rfl)
      refine ⟨τ, agrees, ?_⟩
      rw [masked_true, List.map_cons, List.map_cons, equal, ← same,
        Term.under_congr (Term.Named.of_literal here _)]
    | false =>
      obtain ⟨τ, agrees, equal⟩ := below (id + 1)
      have mine : ¬IsMask (id + 1) ("?" ++ toString id) := by
        rintro ⟨later, bound, same⟩
        have := Naming.numeral_inj ((String.append_right_inj "?").mp same)
        omega
      refine ⟨fun name => if name = "?" ++ toString id then first.under σ else τ name, ?_, ?_⟩
      · intro name other
        dsimp only
        rw [if_neg fun same => other ⟨id, by omega, same⟩]
        exact agrees name fun mask => other (mask.mono (by omega))
      · rw [masked_false, fresh_eq, List.map_cons, List.map_cons, ← equal]
        refine congrArg₂ List.cons (if_pos rfl) (map_under_congr fun term inside => ?_)
        refine (masked_named (id + 1) flags
          (fun term inside => new term (by simp [inside])) term inside).imp ?_
        rintro name mask
        refine if_neg ?_
        rintro rfl
        exact mine mask

theorem slash_not_mem_mask {id : Int} {name : String} (mask : IsMask id name) :
    '/' ∉ name.toList := by
  obtain ⟨later, _, rfl⟩ := mask
  rw [String.toList_append, List.mem_append]
  rintro (mark | numeral)
  · exact absurd mark (by decide)
  · exact Naming.slash_not_mem_numeral later numeral

theorem mark_mem_mask {id : Int} {name : String} (mask : IsMask id name) : '?' ∈ name.toList := by
  obtain ⟨later, _, rfl⟩ := mask
  rw [String.toList_append]
  exact List.mem_append_left _ (by decide)

end Mask

/-- Terms that read like literals, where what is open reads like none of them, are these
literals. -/
theorem eq_of_reads {other : String} {terms fact : List Term}
    (literal : ∀ term ∈ fact, term.isLiteral) (absent : other ∉ fact.map Term.key) {σ : Valuation}
    (reads : terms.map (Term.under fun _ => other) = fact.map (Term.under σ)) : terms = fact := by
  induction terms generalizing fact with
  | nil =>
    cases fact with
    | nil => rfl
    | cons => cases reads
  | cons term terms ih =>
    cases fact with
    | nil => cases reads
    | cons first fact =>
      obtain ⟨here, others⟩ := List.forall_mem_cons.mp literal
      simp only [List.map_cons, List.cons.injEq, List.mem_cons, not_or] at reads absent
      rw [ih others absent.2 reads.2]
      cases first with
      | var name => cases here
      | lit value =>
        cases term with
        | var name => exact absurd reads.1 absent.1
        | lit text => rw [show text = value from reads.1]

section Excluding
variable {m : Machine} {r : RelationId} {args terms : List Term} {exclusion : Exclusion}

theorem excluded_holds {σ : Valuation} : (m.excluded r args exclusion).Holds m.database σ ↔
    (args.map (Term.under σ) = exclusion.rule.params.map (Term.under σ) ∧
      ∀ condition ∈ exclusion.rule.conditions,
        Derivable m.database condition.1 (condition.2.map (Term.under σ))) ∧
    ∃ fact ∈ (m.database.relation r).facts, args.map (Term.under σ) = fact.map (Term.under σ) := by
  have unsalted : (fun name => σ ("" ++ name)) = σ := funext fun name => by rw [String.empty_append]
  have rule : (exclusion.rule.goal args "").Holds m.database σ ↔ _ :=
    exclusion.rule.holds_goal args ""
  rw [unsalted] at rule
  rw [← rule]
  constructor
  · rintro (_ | _ | goals)
    obtain ⟨first, second⟩ := List.forall_mem_cons.mp goals
    refine ⟨first, ?_⟩
    cases second _ List.mem_cons_self with
    | any inside holds =>
      obtain ⟨fact, stored, rfl⟩ := List.mem_map.mp inside
      cases holds with
      | unifyAll equal => exact ⟨fact, stored, equal⟩
  · rintro ⟨first, fact, stored, equal⟩
    refine .all (List.forall_mem_cons.mpr ⟨first, List.forall_mem_singleton.mpr ?_⟩)
    exact .any (List.mem_map_of_mem stored) (.unifyAll equal)

theorem excluded_isFinite : (m.excluded r args exclusion).isFinite := by
  have named : (m.excluded r args exclusion).Named fun _ => True :=
    excluded_named m r args exclusion
  exact named.isFinite

/-- What an answer makes of the arguments is a stored fact, and a valuation of it satisfies the
rule. -/
theorem excluded_stored (literal : m.database.Literal) {found : List Substitution}
    {p last : Progress}
    (answers : Search.Answers m.database (m.excluded r args exclusion) p found last)
    {s : Substitution} (given : s ∈ found) :
    s.reify args ∈ (m.database.relation r).facts ∧
      ∃ σ : Valuation, args.map (Term.under σ) = (s.reify args).map (Term.under σ) ∧
        args.map (Term.under σ) = exclusion.rule.params.map (Term.under σ) ∧
        ∀ condition ∈ exclusion.rule.conditions,
          Derivable m.database condition.1 (condition.2.map (Term.under σ)) := by
  obtain ⟨other, absent⟩ := exists_other_text
    (((m.database.relation r).facts.flatMap fun fact => fact.map Term.key))
  -- What the answer leaves open reads like no stored text.
  let σ := s.reading fun _ => other
  have settled := answers.settled excluded_isFinite given
  have holds := answers.sound excluded_isFinite given
    (Substitution.holds_reading settled fun _ => other)
  obtain ⟨⟨params, conditions⟩, fact, stored, equal⟩ := excluded_holds.mp holds
  have apart : other ∉ fact.map Term.key :=
    fun inside => absent (List.mem_flatMap.mpr ⟨fact, stored, inside⟩)
  have same : s.reify args = fact := by
    refine eq_of_reads (literal r fact stored) apart (σ := σ) ?_
    rw [← equal, Substitution.reify, List.map_map]
    exact List.map_congr_left fun term _ => (Substitution.under_reading (fun _ => other) term).symm
  rw [same]
  exact ⟨stored, σ, equal, params, conditions⟩

/-- It is ruled out, if the new fact consists of literals. -/
theorem excluded_sound (literal : m.database.Literal) (new : ∀ term ∈ terms, term.isLiteral)
    {id : Int} {found : List Substitution} {p last : Progress}
    (answers : Search.Answers m.database
      (m.excluded r (masked id terms exclusion.bound).1 exclusion) p found last)
    {s : Substitution} (given : s ∈ found) :
    s.reify (masked id terms exclusion.bound).1 ∈ (m.database.relation r).facts ∧
      RulesOut m.database exclusion terms (s.reify (masked id terms exclusion.bound).1) := by
  obtain ⟨stored, σ, equal, params, conditions⟩ := excluded_stored literal answers given
  generalize s.reify (masked id terms exclusion.bound).1 = fact at stored equal
  refine ⟨stored, σ, ?_, fun place flagged => ?_, conditions⟩
  · rw [← params, equal]
    exact map_lit_under (literal r fact stored) σ
  · have place_eq : (fact.map (Term.under σ))[place]? = (terms.map (Term.under σ))[place]? := by
      rw [← equal, List.getElem?_map, List.getElem?_map, masked_flagged id flagged]
    rw [← map_lit_under (literal r fact stored) σ, List.getElem?_map, place_eq,
      ← List.getElem?_map, map_lit_under new σ]

/-- A stored fact that is ruled out is found. -/
theorem excluded_complete (formed : m.WellFormed) (literal : m.database.Literal)
    (new : ∀ term ∈ terms, term.isLiteral) (plain : exclusion.Plain)
    (flags : exclusion.bound.length = exclusion.rule.params.length)
    (lengths : exclusion.rule.params.length ≤ terms.length) {id next : Int}
    {found : List Substitution} {last : Progress}
    (answers : Search.Answers m.database
      (m.excluded r (masked id terms exclusion.bound).1 exclusion) ⟨[next], []⟩ found last)
    {fact : List Term} (stored : fact ∈ (m.database.relation r).facts)
    (ruled : RulesOut m.database exclusion terms fact) :
    ∃ s ∈ found, s.reify (masked id terms exclusion.bound).1 = fact := by
  obtain ⟨σ, params, flagged, conditions⟩ := ruled
  have size : exclusion.rule.params.length = fact.length := by
    rw [← params, List.length_map, List.length_map]
  obtain ⟨τ, agrees, fits⟩ := masked_fits σ id new (literal r fact stored) flagged
    (flags.trans size) (size ▸ lengths)
  have unmasked {terms : List Term} (named : ∀ term ∈ terms, term.Plain) :
      terms.map (Term.under τ) = terms.map (Term.under σ) :=
    map_under_agrees agrees fun term inside =>
      (named term inside).imp fun name plain mask => plain.1 (mark_mem_mask mask)
  have reads : fact.map (Term.under σ) = exclusion.rule.params.map (Term.under σ) := by
    rw [← params, List.map_map]
    exact List.map_id _
  have holds : (m.excluded r (masked id terms exclusion.bound).1 exclusion).Holds m.database τ := by
    refine excluded_holds.mpr ⟨⟨?_, fun condition inside => ?_⟩, fact, stored, ?_⟩
    · rw [fits, reads, unmasked plain.params]
    · rw [unmasked (plain.conditions condition inside)]
      exact conditions condition inside
    · rw [fits, map_under_literal (literal r fact stored) σ τ]
  have past {terms : List Term} (named : ∀ term ∈ terms, term.Named fun name => '/' ∉ name.toList) :
      ∀ term ∈ terms, term.Named (Search.Past source ⟨[next], []⟩) :=
    fun term inside => (named term inside).imp fun _ => Naming.not_toCome_slashless
  have args_past := past fun term inside =>
    (masked_named id exclusion.bound new term inside).imp fun _ => slash_not_mem_mask
  have fresh : Search.FreshGoal source ⟨[next], []⟩
      (m.excluded r (masked id terms exclusion.bound).1 exclusion) := by
    refine ⟨.all (List.forall_mem_cons.mpr ⟨?_, List.forall_mem_singleton.mpr ?_⟩), Nat.one_pos⟩
    · refine exclusion.rule.goal_named_unsalted args_past ?_ fun condition inside => ?_
      · exact past fun term inside => (plain.params term inside).imp fun _ plain => plain.2
      · exact past fun term member =>
          (plain.conditions condition inside term member).imp fun _ plain => plain.2
    · exact factsGoal_named args_past fun fact stored term inside =>
        .of_literal (literal r fact stored term inside) _
  obtain ⟨υ, kept, s, given, true⟩ := answers.complete literal formed.salted fresh holds
  refine ⟨s, given, ?_⟩
  have found := (excluded_sound literal new answers given).1
  calc s.reify (masked id terms exclusion.bound).1
      = ((s.reify (masked id terms exclusion.bound).1).map (Term.under υ)).map .lit :=
        (map_lit_under (literal r _ found) υ).symm
    _ = (fact.map (Term.under σ)).map .lit := by
        rw [Substitution.reify_under true, map_under_agrees kept args_past, fits]
    _ = fact := map_lit_under (literal r fact stored) σ

end Excluding

/-- The machine afterwards has these facts in one relation, and the rest as before. -/
structure Prunes (r : RelationId) (facts : List (List Term)) (m n : Machine) : Prop where
  database : n.database = m.database.withFacts r facts
  relations : n.relations = m.relations
  exclusions : n.exclusions = m.exclusions

section Pruning
variable {m : Machine} {r : RelationId}

theorem prunes_retracts (declared : r < m.database.relations.length) (gone : List (List Term)) :
    Prunes r ((m.database.relation r).facts.filter (· ∉ gone)) m
      (gone.foldl (fun m fact => m.retracted r fact) m) := by
  induction gone generalizing m with
  | nil =>
    refine ⟨?_, rfl, rfl⟩
    have all : (m.database.relation r).facts.filter (· ∉ ([] : List (List Term))) =
        (m.database.relation r).facts := List.filter_eq_self.mpr fun fact _ => by simp
    rw [all, Database.withFacts_same declared]
    rfl
  | cons fact gone ih =>
    have first : (m.retracted r fact).database =
        m.database.withFacts r ((m.database.relation r).facts.filter (· != fact)) := rfl
    obtain ⟨database, relations, exclusions⟩ := ih (m := m.retracted r fact)
      (by rw [first, Database.withFacts, Database.length_set]; exact declared)
    refine ⟨?_, relations, exclusions⟩
    rw [List.foldl_cons, database, first, Database.withFacts_withFacts declared,
      Database.facts_withFacts declared, List.filter_filter]
    refine congrArg _ (List.filter_congr fun other _ => ?_)
    by_cases same : other = fact <;> simp [same]

/-- What an exclusion finds goes from the facts, and nothing else changes. -/
theorem exclude_prunes (formed : m.WellFormed) {key : String}
    (declared : m.relations.get? key = some r) (terms : List Term) (exclusion : Exclusion) :
    ∃ found last n,
      Search.Answers m.database (m.excluded r (masked m.nextId terms exclusion.bound).1 exclusion)
        ⟨[(masked m.nextId terms exclusion.bound).2], []⟩ found last ∧
      (exclude r terms exclusion).run m = (.ok ⟨⟩, n) ∧ n.WellFormed ∧
      Prunes r ((m.database.relation r).facts.filter
        (· ∉ found.map (·.reify (masked m.nextId terms exclusion.bound).1))) m n := by
  obtain ⟨found, last, answers, run⟩ := run_exclude formed.acyclic.layered r terms exclusion
  have evolves := (works_exclude terms exclusion m declared).evolves
  rw [run] at evolves
  refine ⟨found, last, _, answers, run, formed.evolves evolves, ?_⟩
  have prunes := prunes_retracts (m := { m with nextId := last.nextId source })
    (formed.placed key r declared).1
    (found.map (·.reify (masked m.nextId terms exclusion.bound).1)).eraseDups
  simp only [List.mem_eraseDups] at prunes
  exact ⟨prunes.database, prunes.relations, prunes.exclusions⟩

/-- Where facts are literals and names plain, exactly the facts that are ruled out go. -/
theorem exclude_retracts (formed : m.WellFormed) {key : String}
    (declared : m.relations.get? key = some r) (literal : m.database.Literal) {terms : List Term}
    (new : ∀ term ∈ terms, term.isLiteral) {exclusion : Exclusion} (plain : exclusion.Plain)
    (flags : exclusion.bound.length = exclusion.rule.params.length)
    (lengths : exclusion.rule.params.length = terms.length) :
    ∃ n, (exclude r terms exclusion).run m = (.ok ⟨⟩, n) ∧ n.WellFormed ∧
      Prunes r (remaining m.database r terms (m.database.relation r).facts exclusion) m n := by
  obtain ⟨found, last, n, answers, run, after, prunes⟩ :=
    exclude_prunes formed declared terms exclusion
  refine ⟨n, run, after, ?_⟩
  have same : remaining m.database r terms (m.database.relation r).facts exclusion =
      (m.database.relation r).facts.filter
        (· ∉ found.map (·.reify (masked m.nextId terms exclusion.bound).1)) := by
    rw [remaining, Database.withFacts_same (formed.placed key r declared).1]
    refine List.filter_congr fun fact stored => decide_eq_decide.mpr (not_congr ?_)
    constructor
    · intro ruled
      exact List.mem_map.mpr
        (excluded_complete formed literal new plain flags lengths.le answers stored ruled)
    · intro inside
      obtain ⟨s, given, rfl⟩ := List.mem_map.mp inside
      exact (excluded_sound literal new answers given).2
  rwa [same]

/-- The exclusions retract in turn, each from what the ones before it left. -/
theorem excludes_retract (formed : m.WellFormed) {key : String}
    (declared : m.relations.get? key = some r) (literal : m.database.Literal) {terms : List Term}
    (new : ∀ term ∈ terms, term.isLiteral) (group : List Exclusion)
    (plain : ∀ exclusion ∈ group, exclusion.Plain)
    (flags : ∀ exclusion ∈ group, exclusion.bound.length = exclusion.rule.params.length)
    (lengths : ∀ exclusion ∈ group, exclusion.rule.params.length = terms.length) :
    ∃ n, (group.forM (exclude r terms)).run m = (.ok ⟨⟩, n) ∧
      Prunes r (group.foldl (remaining m.database r terms) (m.database.relation r).facts) m n := by
  have inside := (formed.placed key r declared).1
  induction group generalizing m with
  | nil => exact ⟨m, rfl, (Database.withFacts_same inside).symm, rfl, rfl⟩
  | cons exclusion group ih =>
    obtain ⟨first_plain, plain⟩ := List.forall_mem_cons.mp plain
    obtain ⟨first_flags, flags⟩ := List.forall_mem_cons.mp flags
    obtain ⟨first_lengths, lengths⟩ := List.forall_mem_cons.mp lengths
    obtain ⟨middle, first, after, prunes⟩ :=
      exclude_retracts formed declared literal new first_plain first_flags first_lengths
    have still : middle.relations.get? key = some r := by rwa [prunes.relations]
    have kept : middle.database.Literal := by
      rw [prunes.database]
      exact literal.withFacts inside fun fact stored =>
        literal r fact (List.mem_of_mem_filter stored)
    obtain ⟨n, others, more⟩ := ih after still kept plain flags lengths (after.placed key r still).1
    refine ⟨n, (run_bind_ok first).trans others, ?_, more.relations.trans prunes.relations,
      more.exclusions.trans prunes.exclusions⟩
    rw [more.database, prunes.database, Database.withFacts_withFacts inside,
      Database.facts_withFacts inside, remaining_withFacts inside, List.foldl_cons]

end Pruning

/-- A claim that succeeds takes from the facts under its key, for one exclusion after the other,
exactly those that the exclusion rules out, and puts the new fact last. Nothing else changes. -/
theorem Reachable.assert_facts {m n : Machine} (reachable : m.Reachable)
    (literal : m.database.Literal) {key : String} {terms : List Term} {create : Bool}
    (new : ∀ term ∈ terms, term.isLiteral)
    (plain : ∀ exclusion ∈ (m.exclusions.get? key).getD [], exclusion.Plain)
    (lengths : ∀ exclusion ∈ (m.exclusions.get? key).getD [],
      exclusion.rule.params.length = terms.length)
    (run : (assert key terms create).run m = (.ok ⟨⟩, n)) :
    ∃ r, n.relations.get? key = some r ∧
      (n.database.relation r).facts =
        ((m.exclusions.get? key).getD []).foldl (remaining m.database r terms)
          (m.database.relation r).facts ++ [terms] ∧
      (n.database.relation r).rules = (m.database.relation r).rules ∧
      ∀ s ≠ r, n.database.relation s = m.database.relation s := by
  have formed := reachable.wellFormed
  obtain ⟨r, middle, after, db, first, second, added, rfl⟩ := assert_ok run
  rcases relationFor_cases first with ⟨declared, rfl⟩ | ⟨absent, rfl, rfl⟩
  · have inside := (formed.placed key r declared).1
    obtain ⟨left, group, prunes⟩ := excludes_retract formed declared literal new _ plain
      (fun _ registered => (formed.admits registered).2.flags) lengths
    obtain rfl : left = after := (Prod.mk.inj (group.symm.trans second)).2
    have still : r < left.database.relations.length := by
      rwa [prunes.database, Database.withFacts, Database.length_set]
    obtain ⟨facts, rules, others⟩ := Database.relation_of_addFact still added
    refine ⟨r, prunes.relations ▸ declared, ?_, ?_, fun s other => ?_⟩
    · rw [asserted, logged, facts, prunes.database, Database.facts_withFacts inside]
    · rw [asserted, logged, rules, prunes.database, Database.relation_withFacts inside, if_pos rfl]
    · rw [asserted, logged, others s other, prunes.database, Database.relation_withFacts inside,
        if_neg other]
  · rw [show (m.declared key).exclusions = m.exclusions from rfl,
      formed.no_exclusions absent] at second
    cases second
    have inside : m.database.relations.length < (m.declared key).database.relations.length := by
      rw [declared, Database.length_declare]
      omega
    have old := Database.relation_eq_empty (Nat.le_refl m.database.relations.length)
    have others (s : RelationId) := m.database.relation_declare key s
    obtain ⟨facts, rules, rest⟩ := Database.relation_of_addFact inside added
    refine ⟨m.database.relations.length, ?_, ?_, ?_, fun s other => ?_⟩
    · exact (relationFor_ok first).2
    · rw [formed.no_exclusions absent, List.foldl_nil, asserted, logged, facts, declared, others,
        if_pos rfl, old]
    · rw [asserted, logged, rules, declared, others, if_pos rfl, old]
    · rw [asserted, logged, rest s other, declared, others, if_neg other]

/-- Whoever may sit takes one seat at a time. -/
def seatingText : String := "+may \"a\"\n::may (x)\n ?at (x) (y)\n+at \"a\" \"1\""

def seating : Machine := ((load seatingText).run {}).2

def reseated : Machine := ((assert "at %s %s" [.lit "a", .lit "2"] true).run seating).2

theorem assert_facts_reseated : ∃ r, reseated.relations.get? "at %s %s" = some r ∧
    (reseated.database.relation r).facts =
      ((seating.exclusions.get? "at %s %s").getD []).foldl
        (remaining seating.database r [.lit "a", .lit "2"]) (seating.database.relation r).facts ++
          [[.lit "a", .lit "2"]] ∧
    (reseated.database.relation r).rules = (seating.database.relation r).rules ∧
    ∀ s ≠ r, reseated.database.relation s = seating.database.relation s := by
  have reachable : seating.Reachable := ⟨false, false, 0, .load seatingText {}⟩
  have literal : seating.database.Literal := by decide +kernel
  have run : (assert "at %s %s" [.lit "a", .lit "2"] true).run seating = (.ok ⟨⟩, reseated) :=
    run_of_ok (by decide +kernel)
  exact reachable.assert_facts literal (by decide) (by decide +kernel) (by decide +kernel) run

end Machine
end Rulebook
