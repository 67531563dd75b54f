import Rulebook.Proofs.Machine.Reachable
import Rulebook.Proofs.Program.Sites
import Rulebook.Proofs.Program.Truth
import Rulebook.Proofs.Search.Growth

/-! Open questions between claims and loads. Without exclusions these only add to the database, so
whatever comes between two answers, each answer holds when it is given, and at the end all that held
at first has been answered. -/
namespace Rulebook

namespace Database
variable {db next last : Database}

structure Gains (db next : Database) : Prop extends db.Grown next where
  literal : db.Literal → next.Literal

theorem Gains.refl (db : Database) : db.Gains db := ⟨.refl db, id⟩

theorem Gains.trans (first : db.Gains next) (second : next.Gains last) : db.Gains last :=
  ⟨first.toGrown.trans second.toGrown, fun literal => second.literal (first.literal literal)⟩

theorem gains_declare (db : Database) (name : String) : db.Gains (db.declare name).2 where
  facts r := by
    rw [relation_declare]
    split
    · rename_i new
      rw [relation_eq_empty (Nat.le_of_eq new.symm)]
    · exact List.prefix_refl _
  rules r := by
    rw [relation_declare]
    split
    · rename_i new
      rw [relation_eq_empty (Nat.le_of_eq new.symm)]
    · exact List.prefix_refl _
  literal literal r := by
    rw [relation_declare]
    split
    · nofun
    · exact literal r

theorem gains_set {r : RelationId} {relation : Relation}
    (facts : (db.relation r).facts <+: relation.facts)
    (rules : (db.relation r).rules <+: relation.rules)
    (literal : db.Literal → ∀ fact ∈ relation.facts, ∀ term ∈ fact, term.isLiteral) :
    db.Gains (db.set r relation) := by
  by_cases declared : r < db.relations.length
  · constructor
    · constructor <;>
      · intro s
        rw [relation_set declared]
        split
        · rename_i same
          rwa [same]
        · exact List.prefix_refl _
    · intro known s
      rw [relation_set declared]
      split
      · exact literal known
      · exact known s
  · have same : db.set r relation = db := by
      rw [set, List.set_eq_of_length_le (Nat.le_of_not_lt declared)]
    rw [same]
    exact .refl db

theorem gains_addFact {r : RelationId} {fact : List Term} (closed : ∀ term ∈ fact, term.isLiteral)
    (added : db.addFact r fact = .ok next) : db.Gains next := by
  obtain ⟨_, rfl⟩ := addFact_ok added
  refine gains_set (List.prefix_append _ _) (List.prefix_refl _) fun literal other inside => ?_
  rcases List.mem_append.mp inside with old | new
  · exact literal r other old
  · rw [List.mem_singleton.mp new]
    exact closed

theorem gains_addRule {r : RelationId} {rule : Rule} (added : db.addRule r rule = .ok next) :
    db.Gains next := by
  obtain ⟨_, _, rfl⟩ := addRule_ok added
  exact gains_set (List.prefix_refl _) (List.prefix_append _ _) fun literal => literal r

end Database

namespace Machine
variable {m n k : Machine}

def Unexcluded (m : Machine) : Prop := ∀ key, m.exclusions.get? key = none

structure Adds (m n : Machine) : Prop where
  evolves : Evolves m n
  gains : m.database.Gains n.database
  exclusions : n.exclusions = m.exclusions

theorem Adds.refl (m : Machine) : Adds m m := ⟨.refl, .refl _, rfl⟩

theorem Adds.trans (first : Adds m n) (second : Adds n k) : Adds m k :=
  ⟨first.evolves.trans second.evolves, first.gains.trans second.gains,
    second.exclusions.trans first.exclusions⟩

theorem Adds.unexcluded (adds : Adds m n) (free : m.Unexcluded) : n.Unexcluded := by
  rwa [Unexcluded, adds.exclusions]

theorem Declares.adds (declares : Declares m n) : Adds m n := by
  induction declares with
  | refl => exact .refl _
  | step new _ ih => exact .trans ⟨.single (.declare new), Database.gains_declare _ _, rfl⟩ ih

theorem adds_assert (free : m.Unexcluded) {key : String} {terms : List Term} {create : Bool}
    (closed : ∀ term ∈ terms, term.isLiteral)
    (run : (assert key terms create).run m = (.ok ⟨⟩, n)) : Adds m n := by
  have evolves := (works_assert key terms create m).evolves
  rw [run] at evolves
  obtain ⟨r, middle, after, db, first, second, added, rfl⟩ := assert_ok run
  have opened : Adds m middle := by
    rcases relationFor_cases first with ⟨_, rfl⟩ | ⟨absent, _, rfl⟩
    · exact .refl _
    · exact (Declares.step absent (.refl _)).adds
  rw [opened.unexcluded free key] at second
  cases second
  exact ⟨evolves, opened.gains.trans (Database.gains_addFact closed added), opened.exclusions⟩

theorem adds_loadRule {above : List Line} {line : Line}
    (run : (loadRule above line).run m = (.ok ⟨⟩, n)) : Adds m n := by
  have evolves := (works_loadRule above line m).evolves
  rw [run] at evolves
  obtain ⟨r, rule, middle, declares, found, compiled, loaded⟩ := run_loadRule above line m
  rw [run] at loaded
  split at loaded
  · cases loaded
  rename_i db added
  have outcome := (Prod.mk.inj loaded).2
  have database : n.database = db := by rw [outcome]; rfl
  have exclusions : n.exclusions = middle.exclusions := by rw [outcome]; rfl
  exact ⟨evolves, database ▸ declares.adds.gains.trans (Database.gains_addRule added),
    exclusions.trans declares.adds.exclusions⟩

theorem adds_loadAction {above : List Line} {line : Line} {payload : List Line}
    (kind : line.kind = .action) (run : (loadAction above line payload).run m = (.ok ⟨⟩, n)) :
    Adds m n := by
  have evolves := (works_loadAction above kind payload m).evolves
  rw [run] at evolves
  obtain ⟨action, rule, middle, ready, last, first, declares, _, more, loaded, _⟩ :=
    run_loadAction above line payload m
  rw [run] at loaded
  cases loaded
  have opened : middle.database = m.database ∧ middle.exclusions = m.exclusions := by
    rw [run_actionFor] at first
    split at first <;> cases first <;> exact ⟨rfl, rfl⟩
  exact ⟨evolves, opened.1 ▸ declares.adds.gains.trans more.adds.gains,
    more.adds.exclusions.trans (declares.adds.exclusions.trans opened.2)⟩

/-- Loading a text without exclusions only adds. -/
theorem adds_load (free : m.Unexcluded) {text : String}
    (unexcluded : ∀ place ∈ placesOfText text, place.line.kind ≠ .exclusion)
    (top : ∀ fact ∈ factsAmong (placesOfText text), ∀ term ∈ fact.args, term.isLiteral)
    (run : (load text).run m = (.ok ⟨⟩, n)) : Adds m n := by
  rw [load_eq] at run
  refine forM_kept (R := fun m n => m.Unexcluded → Adds m n) (fun m _ => .refl m)
    (fun first second free => (first free).trans (second ((first free).unexcluded free)))
    (fun site inside m n run free => ?_) run free
  have place := place_of_text inside
  unfold loadSite at run
  split at run
  · rename_i action
    exact adds_loadAction action run
  · rename_i claim
    split at run
    · rename_i empty
      refine adds_assert free (top _ ?_) run
      refine List.mem_map.mpr ⟨site.toPosition, List.mem_filter.mpr ⟨place, ?_⟩, rfl⟩
      rw [Position.isFact, claim, empty]
      rfl
    · exact adds_loadRule run
  · rename_i exclusion
    exact absurd exclusion (unexcluded _ place)
  · cases run
    exact .refl m

theorem adds_claim (free : m.Unexcluded) {fact : Phrase} (closed : ∀ term ∈ fact.args, term.isLiteral)
    (run : (claim fact).run m = (.ok ⟨⟩, n)) : Adds m n := by
  unfold claim at run
  rw [run_bind, run_get] at run
  exact adds_assert free closed run

end Machine

/-- The answer is about these texts: it has each of them, or leaves it open. -/
def Covers (answer : List (Option String)) (values : List String) : Prop :=
  List.Forall₂ (fun given value => ∀ text, given = some text → value = text) answer values

theorem covers_valuesOf {s : Substitution} {σ : Valuation} (holds : s.Holds σ) (terms : List Term) :
    Covers (s.valuesOf terms) (terms.map (Term.under σ)) := by
  induction terms with
  | nil => exact .nil
  | cons term terms ih =>
    refine .cons (fun text resolved => ?_) ih
    rw [← Substitution.walk_under holds]
    cases reached : s.walk term with
    | var name =>
      rw [reached] at resolved
      cases resolved
    | lit value =>
      rw [reached] at resolved
      cases resolved
      rfl

namespace Machine
variable {m n k : Machine}

/-- What can come between opening a question and its answers: claims of literals, texts without
exclusions whose facts are literals, and answers. Each answer stands beside the machine that gave
it. -/
inductive Interleaved (m : Machine) (opened : Cursor) :
    List (Machine × List (Option String)) → Machine → Cursor → Prop where
  | start : Interleaved m opened [] m opened
  | claim {given : List (Machine × List (Option String))} {n k : Machine} {cursor : Cursor}
      {fact : Phrase} : Interleaved m opened given n cursor →
      (∀ term ∈ fact.args, term.isLiteral) → (Machine.claim fact).run n = (.ok ⟨⟩, k) →
      Interleaved m opened given k cursor
  | load {given : List (Machine × List (Option String))} {n k : Machine} {cursor : Cursor}
      {text : String} : Interleaved m opened given n cursor →
      (∀ place ∈ placesOfText text, place.line.kind ≠ .exclusion) →
      (∀ fact ∈ factsAmong (placesOfText text), ∀ term ∈ fact.args, term.isLiteral) →
      (Machine.load text).run n = (.ok ⟨⟩, k) → Interleaved m opened given k cursor
  | pull {given : List (Machine × List (Option String))} {n k : Machine} {cursor next : Cursor}
      {wanted : Option Nat} {found : List (List (Option String))} :
      Interleaved m opened given n cursor →
      (Machine.pull wanted cursor).run n = (.ok (found, next), k) →
      Interleaved m opened (given ++ found.map (k, ·)) k next

section Underway
variable {r : RelationId} {args : List Term} {given : List (Machine × List (Option String))}
  {cursor : Cursor}

/-- How an open question stands: what it has answered, and what its search is still good for. -/
structure Underway (m : Machine) (r : RelationId) (args : List Term)
    (given : List (Machine × List (Option String))) (n : Machine) (cursor : Cursor) : Prop where
  adds : Adds m n
  same : cursor.args = args
  fresh : cursor.search.IsFresh source ⟨[n.nextId], []⟩
  sound : ∀ {later σ}, n.database.Grown later → cursor.search.Means later σ →
    Derivable later r (args.map (Term.under σ))
  right : ∀ item ∈ given, Evolves m item.1 ∧ ∃ σ, Covers item.2 (args.map (Term.under σ)) ∧
    Derivable item.1.database r (args.map (Term.under σ))
  complete : ∀ σ, Derivable m.database r (args.map (Term.under σ)) →
    (∃ item ∈ given, Covers item.2 (args.map (Term.under σ))) ∨
      ∃ τ, args.map (Term.under τ) = args.map (Term.under σ) ∧
        cursor.search.Means n.database τ

/-- More facts and rules are no matter to an open question. -/
theorem Underway.add (underway : Underway m r args given n cursor) (adds : Adds n k) :
    Underway m r args given k cursor where
  adds := underway.adds.trans adds
  same := underway.same
  fresh := by
    have before : Progress.Before ⟨[n.nextId], []⟩ ⟨[k.nextId], []⟩ := by
      refine ⟨rfl, fun i => ?_⟩
      cases i with
      | zero => exact adds.evolves.nextId_le
      | succ i => exact Int.le_refl _
    exact underway.fresh.later before
  sound grown := underway.sound (adds.gains.toGrown.trans grown)
  right := underway.right
  complete σ derivable := (underway.complete σ derivable).imp_right
    fun ⟨τ, same, means⟩ => ⟨τ, same, means.grown adds.gains.toGrown⟩

theorem run_pull {wanted : Option Nat} {answers : List Substitution} {rest : Search} {stop : Stop}
    {q : Progress} (harvested : cursor.search.harvest n.database wanted ⟨[n.nextId], []⟩ =
      ⟨answers, rest, stop, q⟩) (whole : stop = .enough ∨ stop = .ended) :
    (pull wanted cursor).run n = (.ok (answers.map (·.valuesOf cursor.args), ⟨cursor.args, rest⟩),
      { n with nextId := q.nextId source }) := by
  unfold pull
  rw [run_bind, run_harvest, harvested]
  rcases whole with rfl | rfl <;> rfl

/-- Answers are given as the question asks for them, and there are none left at the end. -/
theorem Underway.pull (formed : m.WellFormed) (literal : m.database.Literal)
    (plain : ∀ term ∈ args, term.Named Naming.Plain)
    (underway : Underway m r args given n cursor) (wanted : Option Nat) :
    ∃ found next k, (pull wanted cursor).run n = (.ok (found, next), k) ∧
      Underway m r args (given ++ found.map (k, ·)) k next ∧
      (wanted ≠ some found.length → next.search = .ended) := by
  have now := formed.evolves underway.adds.evolves
  have closed := underway.adds.gains.literal literal
  obtain ⟨answers, rest, stop, q, harvested, advances, stopped⟩ := Search.exists_advances
    now.acyclic.layered closed now.salted wanted underway.fresh
  have pulled := run_pull harvested (stopped.imp And.left And.left)
  refine ⟨_, _, _, pulled, ?_, fun open_ => ?_⟩
  · have spent : n.nextId ≤ q.nextId source := advances.before.2 source
    have single : Adds n { n with nextId := q.nextId source } :=
      ⟨.single (.spend spent), .refl _, rfl⟩
    constructor
    case adds => exact underway.adds.trans single
    case same => exact underway.same
    case fresh =>
      have length : q.nextIds.length = 1 := advances.before.1.symm
      refine advances.fresh.later ⟨length, fun i => ?_⟩
      cases i with
      | zero => exact Int.le_refl _
      | succ i =>
        rw [Progress.nextId, Progress.nextId, List.getD_eq_default _ _ (by omega),
          List.getD_eq_default _ _ (by simp)]
    case sound => exact fun grown means => underway.sound grown (advances.sound grown (.inr means))
    case right =>
      intro item inside
      rcases List.mem_append.mp inside with old | new
      · exact underway.right item old
      obtain ⟨_, among, rfl⟩ := List.mem_map.mp new
      obtain ⟨s, answered, rfl⟩ := List.mem_map.mp among
      have holds := Substitution.holds_reading (advances.settled s answered) fun _ => ""
      refine ⟨(underway.adds.trans single).evolves, _, ?_, underway.sound (.refl _)
        (advances.sound (.refl _) (.inl ⟨s, answered, holds⟩))⟩
      exact underway.same ▸ covers_valuesOf holds cursor.args
    case complete =>
      intro σ derivable
      rcases underway.complete σ derivable with ⟨item, inside, covers⟩ | ⟨τ, same, means⟩
      · exact .inl ⟨item, List.mem_append_left _ inside, covers⟩
      obtain ⟨υ, agrees, kept⟩ := advances.complete means
      have whole : args.map (Term.under υ) = args.map (Term.under σ) :=
        (map_under_agrees agrees fun term inside =>
          (plain term inside).imp fun _ => Naming.Plain.not_toCome).trans same
      refine kept.imp (fun found => ?_) fun means => ⟨υ, whole, means⟩
      obtain ⟨s, answered, holds⟩ := found
      refine ⟨(_, s.valuesOf cursor.args), List.mem_append_right _ (List.mem_map_of_mem
        (List.mem_map_of_mem answered)), ?_⟩
      rw [← whole, ← underway.same]
      exact covers_valuesOf holds cursor.args
  · rcases stopped with ⟨_, all⟩ | ⟨_, ended⟩
    · rw [List.length_map] at open_
      exact absurd all open_
    · exact ended

theorem Interleaved.underway {opened : Cursor} (formed : m.WellFormed) (literal : m.database.Literal)
    (free : m.Unexcluded) (plain : ∀ term ∈ args, term.Named Naming.Plain)
    (start : Underway m r args [] m opened) (trace : Interleaved m opened given n cursor) :
    Underway m r args given n cursor := by
  induction trace with
  | start => exact start
  | claim _ closed run ih => exact ih.add (adds_claim (ih.adds.unexcluded free) closed run)
  | load _ unexcluded top run ih =>
    exact ih.add (adds_load (ih.adds.unexcluded free) unexcluded top run)
  | @pull _ _ _ _ _ wanted _ _ run ih =>
    obtain ⟨found, next, k, pulled, underway, _⟩ := ih.pull formed literal plain wanted
    rw [run] at pulled
    cases pulled
    exact underway

/-- Asking opens a search for the relation and leaves the machine as it is. -/
theorem ask_ok {question : Phrase} {opened : Cursor}
    (asked : (ask question).run m = (.ok opened, n)) : ∃ r, m.relations.get? question.key = some r ∧
      opened = ⟨question.args, .pending (.query r question.args) .empty⟩ ∧ m = n := by
  obtain ⟨goal, middle, run, rest⟩ := bind_ok asked
  cases rest
  obtain ⟨r, after, run, rest⟩ := bind_ok run
  cases rest
  rw [run_relationFor] at run
  split at run
  · rename_i r found
    cases run
    exact ⟨r, found, rfl, rfl⟩
  · cases run

theorem underway_opened (r : RelationId) (plain : ∀ term ∈ args, term.Named Naming.Plain) :
    Underway m r args [] m ⟨args, .pending (.query r args) .empty⟩ := by
  constructor
  case adds => exact .refl m
  case same => rfl
  case fresh =>
    refine .pending ⟨.query fun term inside => (plain term inside).imp fun _ =>
      Naming.Plain.not_toCome, Nat.one_pos⟩ ⟨Substitution.settled_empty, Substitution.named_empty _⟩
  case sound =>
    rintro later σ - (⟨_, here⟩)
    cases here with
    | query derivable => exact derivable
  case right => nofun
  case complete =>
    exact fun σ derivable =>
      .inr ⟨σ, rfl, .pending (Substitution.holds_empty σ) (.query derivable)⟩

/-- A question that stays open while facts are claimed and texts are loaded: every answer holds of
the machine that gives it. Asking for more always gives answers, and once fewer come than were
wanted, all that held when the question was opened has been answered. -/
theorem open_question_correct (reachable : m.Reachable) (literal : m.database.Literal)
    (free : m.Unexcluded) {question : Phrase}
    (plain : ∀ name, .var name ∈ question.args → '?' ∉ name.toList ∧ '/' ∉ name.toList)
    {opened : Cursor} {first : Machine} (asked : (ask question).run m = (.ok opened, first))
    (trace : Interleaved first opened given n cursor) :
    (∀ item ∈ given, ∃ σ, Covers item.2 (question.args.map (Term.under σ)) ∧
      item.1.Derives question.key (question.args.map (Term.under σ))) ∧
    ∀ wanted, ∃ found next k, (Machine.pull wanted cursor).run n = (.ok (found, next), k) ∧
      (wanted ≠ some found.length →
        ∀ σ, m.Derives question.key (question.args.map (Term.under σ)) →
          ∃ answer ∈ given.map Prod.snd ++ found,
            Covers answer (question.args.map (Term.under σ))) := by
  have formed := reachable.wellFormed
  have named : ∀ term ∈ question.args, term.Named Naming.Plain := by
    intro term inside
    cases term with
    | lit value => trivial
    | var name => exact Naming.plain_of_slashless (plain name inside).2
  obtain ⟨r, declared, rfl, rfl⟩ := ask_ok asked
  have underway := trace.underway formed literal free named (underway_opened r named)
  refine ⟨fun item inside => ?_, fun wanted => ?_⟩
  · obtain ⟨evolves, σ, covers, derivable⟩ := underway.right item inside
    exact ⟨σ, covers, r, evolves.kept declared, derivable⟩
  · obtain ⟨found, next, k, pulled, after, ended⟩ := underway.pull formed literal named wanted
    refine ⟨found, next, k, pulled, fun short σ ⟨s, there, derivable⟩ => ?_⟩
    obtain rfl : r = s := Option.some.inj (declared.symm.trans there)
    rcases after.complete σ derivable with ⟨item, inside, covers⟩ | ⟨τ, _, means⟩
    · refine ⟨item.2, ?_, covers⟩
      have := List.mem_map_of_mem (f := Prod.snd) inside
      rwa [List.map_append, List.map_map, Function.comp_def, List.map_id'] at this
    · rw [ended short] at means
      cases means

def askingMortals : Cursor := ⟨[.var "x"], .pending (.query 1 [.var "x"]) .empty⟩

def afterPull : Machine := ((pull (some 1) askingMortals).run mortals).2

def afterClaim : Machine := ((claim ⟨"man %s", [.lit "b"]⟩).run afterPull).2

/-- A text that reaches the relations which the open question is walking. -/
def furtherText : String := "+man \"c\"\n+mortal \"z\"\n::man (y)\n +mortal (y)"

def afterLoad : Machine := ((load furtherText).run afterClaim).2

theorem open_question_mortals : ∃ given cursor,
    Interleaved mortals askingMortals given afterLoad cursor ∧
      given.map Prod.snd = [[some "a"]] ∧
      (∀ item ∈ given, ∃ σ : Valuation, Covers item.2 [σ "x"] ∧
        item.1.Derives "mortal %s" [σ "x"]) ∧
      ∃ found next k, (Machine.pull none cursor).run afterLoad = (.ok (found, next), k) ∧
        ∀ σ : Valuation, mortals.Derives "mortal %s" [σ "x"] →
          ∃ answer ∈ given.map Prod.snd ++ found, Covers answer [σ "x"] := by
  have reachable : mortals.Reachable := ⟨false, false, 0, .load mortalText {}⟩
  have literal : mortals.database.Literal := by decide +kernel
  have free : mortals.Unexcluded := by
    have none : mortals.exclusions.entries.isEmpty := by decide +kernel
    intro key
    rw [Table.get?, List.isEmpty_iff.mp none]
    rfl
  have plain : ∀ name, Term.var name ∈ (⟨"mortal %s", [.var "x"]⟩ : Phrase).args →
      '?' ∉ name.toList ∧ '/' ∉ name.toList := by
    intro name inside
    cases List.mem_singleton.mp inside
    decide
  have asked : (ask ⟨"mortal %s", [.var "x"]⟩).run mortals = (.ok askingMortals, mortals) :=
    run_ask (by decide +kernel)
  obtain ⟨found, next, k, pulled, _⟩ :=
    (open_question_correct reachable literal free plain asked .start).2 (some 1)
  have answered : (((pull (some 1) askingMortals).run mortals).1.map Prod.fst) =
      .ok [[some "a"]] := by decide +kernel
  obtain rfl : afterPull = k := congrArg Prod.snd pulled
  rw [pulled] at answered
  obtain rfl : found = [[some "a"]] := Except.ok.inj answered
  have trace : Interleaved mortals askingMortals _ afterLoad next :=
    ((Interleaved.start.pull pulled).claim (by decide) (run_of_ok (by decide +kernel))).load
      (by decide +kernel) (by decide +kernel) (run_of_ok (by decide +kernel))
  obtain ⟨right, complete⟩ := open_question_correct reachable literal free plain asked trace
  obtain ⟨found, next, k, pulled, all⟩ := complete none
  exact ⟨_, _, trace, rfl, right, found, next, k, pulled, all nofun⟩

end Underway
end Machine
end Rulebook
