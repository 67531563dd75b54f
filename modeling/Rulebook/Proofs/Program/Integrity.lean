import Rulebook.Proofs.Program.Payloads
import Rulebook.Proofs.Program.Placeholders

/-! The tables of a machine fit together in every machine that operations lead to, also where an
operation stopped in the midst of its work. Rules and exclusions refer to relations that are
registered under their own names, facts and rules have the number of arguments of their relation,
and the payloads are those of the actions, each under an id of its own. -/
namespace Rulebook

namespace Table

theorem perm_flatMap_putIn (parts : α → List β) {key : String} {value : α} {more : List β}
    (entries : List (String × α))
    (adds : parts value = ((getIn key entries).map parts).getD [] ++ more) :
    (((putIn key value entries).map (·.2)).flatMap parts).Perm
      ((entries.map (·.2)).flatMap parts ++ more) := by
  induction entries with
  | nil =>
    rw [getIn, Option.map_none, Option.getD_none, List.nil_append] at adds
    simp [putIn, adds]
  | cons entry rest ih =>
    obtain ⟨other, old⟩ := entry
    by_cases same : other = key
    · rw [getIn, if_pos same, Option.map_some, Option.getD_some] at adds
      rw [putIn, if_pos same]
      simp only [List.map_cons, List.flatMap_cons, adds, List.append_assoc]
      exact List.perm_append_comm.append_left _
    · rw [getIn, if_neg same] at adds
      rw [putIn, if_neg same]
      simp only [List.map_cons, List.flatMap_cons, List.append_assoc]
      exact (ih adds).append_left _

/-- A value whose parts are those of the value in its place and some more adds just these. -/
theorem perm_flatMap_put (parts : α → List β) {key : String} {value : α} {more : List β}
    (t : Table α) (adds : parts value = ((t.get? key).map parts).getD [] ++ more) :
    ((t.put key value).values.flatMap parts).Perm (t.values.flatMap parts ++ more) :=
  perm_flatMap_putIn parts t.entries adds

end Table

/-- What is derivable has as many places as each fact and each rule of its relation. -/
theorem Derivable.length_eq {db : Database}
    (facts : ∀ r, ∀ fact ∈ (db.relation r).facts, (db.relation r).arity = some fact.length)
    (rules : ∀ r, ∀ rule ∈ (db.relation r).rules, (db.relation r).arity = some rule.params.length)
    {r : RelationId} {values : List String} (derivable : Derivable db r values) :
    (db.relation r).arity = some values.length := by
  cases derivable with
  | fact σ stored =>
    rw [List.length_map]
    exact facts r _ stored
  | rule σ stored _ =>
    rw [List.length_map]
    exact rules r _ stored

namespace Action

def rules (action : Action) : List Rule := action.entries.map (·.1)

def payloadIds (action : Action) : List String := action.entries.map (·.2)

theorem payloadIds_add (action : Action) (rule : Rule) (payload : String) :
    (action.add rule payload).payloadIds = action.payloadIds ++ [payload] := by
  simp [payloadIds, add]

end Action

namespace Machine
variable {m n : Machine}

def payloadIds (m : Machine) : List String := m.actions.values.flatMap Action.payloadIds

structure Fits (m : Machine) (r : RelationId) (rule : Rule) : Prop where
  known : m.Knows rule
  arity : (m.database.relation r).arity = some rule.params.length

theorem Fits.congr {r : RelationId} {rule : Rule} (fits : m.Fits r rule)
    (database : n.database = m.database) (relations : n.relations = m.relations) :
    n.Fits r rule where
  known := fits.known.mono fun _ _ found => relations ▸ found
  arity := database ▸ fits.arity

/-- What `WellFormed` leaves open: the rules of relations, and the ids of payloads. -/
structure Furnished (m : Machine) : Prop where
  rules : ∀ r, ∀ rule ∈ (m.database.relation r).rules, m.Fits r rule
  paid : m.payloadIds.Perm m.payloads.keys
  minted : ∀ payload ∈ m.payloads.keys, ∃ id < m.nextId, payload = Naming.payload id

theorem furnished_new (verbose strict : Bool) (id : Int) :
    ({ verbose, strict, nextId := id } : Machine).Furnished where
  rules r rule stored := by
    rw [Database.relation_eq_empty (Nat.zero_le r)] at stored
    cases stored
  paid := .refl _
  minted _ inside := nomatch inside

namespace Furnished

/-- Nothing of the rest matters. -/
theorem congr (furnished : m.Furnished) (database : n.database = m.database)
    (relations : n.relations = m.relations) (actions : n.actions = m.actions)
    (payloads : n.payloads = m.payloads) (le : m.nextId ≤ n.nextId) : n.Furnished where
  rules r rule stored := by
    rw [database] at stored
    exact (furnished.rules r rule stored).congr database relations
  paid := by
    rw [payloadIds, actions, payloads]
    exact furnished.paid
  minted payload inside := by
    rw [payloads] at inside
    obtain ⟨id, less, same⟩ := furnished.minted payload inside
    exact ⟨id, Int.lt_of_lt_of_le less le, same⟩

theorem declared (furnished : m.Furnished) {key : String} (new : m.relations.get? key = none) :
    (m.declared key).Furnished where
  rules r rule stored := by
    simp only [Machine.declared, Database.relation_declare] at stored
    split at stored
    · cases stored
    · rename_i old
      obtain ⟨known, arity⟩ := furnished.rules r rule stored
      constructor
      · exact known.mono fun _ _ => get?_declared_kept new
      · simp only [Machine.declared, Database.relation_declare]
        rw [if_neg old, arity]
  paid := furnished.paid
  minted := furnished.minted

/-- One relation gets other contents. -/
theorem replaced (furnished : m.Furnished) {r : RelationId} {relation : Relation}
    (database : n.database = m.database.set r relation) (relations : n.relations = m.relations)
    (actions : n.actions = m.actions) (payloads : n.payloads = m.payloads)
    (later : m.nextId = n.nextId) (declared : r < m.database.relations.length)
    (fits : ∀ rule ∈ relation.rules, m.Knows rule ∧ relation.arity = some rule.params.length) :
    n.Furnished where
  rules s rule stored := by
    rw [database, Database.relation_set declared] at stored
    split at stored
    · rename_i same
      obtain ⟨known, arity⟩ := fits rule stored
      constructor
      · exact known.mono fun key r found => relations ▸ found
      · rw [database, Database.relation_set declared, if_pos same, arity]
    · rename_i other
      obtain ⟨known, arity⟩ := furnished.rules s rule stored
      constructor
      · exact known.mono fun key r found => relations ▸ found
      · rw [database, Database.relation_set declared, if_neg other, arity]
  paid := by
    rw [payloadIds, actions, payloads]
    exact furnished.paid
  minted := by
    rw [payloads, ← later]
    exact furnished.minted

/-- A payload comes under an id that no other has. -/
theorem paying (furnished : m.Furnished) {key : String} {action : Action}
    (found : m.actions.get? key = some action) (rule : Rule) (lines : List Line) :
    (m.paying key action rule lines).Furnished := by
  have new : Naming.payload m.nextId ∉ m.payloads.keys := by
    intro inside
    obtain ⟨id, less, same⟩ := furnished.minted _ inside
    have := Naming.payload_inj same
    omega
  have keys : (m.payloads.put (Naming.payload m.nextId) lines).keys =
      m.payloads.keys ++ [Naming.payload m.nextId] := by
    rw [Table.keys_put, if_neg new]
  constructor
  case rules =>
    intro r rule stored
    exact (furnished.rules r rule stored).congr rfl rfl
  case paid =>
    have adds : (action.add rule (Naming.payload m.nextId)).payloadIds =
        ((m.actions.get? key).map Action.payloadIds).getD [] ++ [Naming.payload m.nextId] := by
      rw [found, Action.payloadIds_add]
      rfl
    apply (m.actions.perm_flatMap_put Action.payloadIds adds).trans
    simp only [Machine.paying, keys]
    exact furnished.paid.append_right _
  case minted =>
    intro payload inside
    simp only [Machine.paying, keys] at inside
    rcases List.mem_append.mp inside with old | last
    · obtain ⟨id, less, same⟩ := furnished.minted payload old
      exact ⟨id, Int.lt_add_one_of_le (Int.le_of_lt less), same⟩
    · exact ⟨m.nextId, Int.lt_succ _, List.mem_singleton.mp last⟩

/-- An action without payloads changes no payload. -/
theorem opened (furnished : m.Furnished) {key : String} (absent : m.actions.get? key = none) :
    ({ m with actions := m.actions.put key { name := key } } : Machine).Furnished where
  rules r rule stored := (furnished.rules r rule stored).congr rfl rfl
  paid := by
    have adds : ({ name := key } : Action).payloadIds =
        ((m.actions.get? key).map Action.payloadIds).getD [] ++ [] := by
      rw [absent]
      rfl
    have same := m.actions.perm_flatMap_put Action.payloadIds adds
    rw [List.append_nil] at same
    exact same.trans furnished.paid
  minted := furnished.minted

theorem change (furnished : m.Furnished) (formed : m.WellFormed) (change : Change m n) :
    n.Furnished := by
  cases change with
  | declare new => exact furnished.declared new
  | spend le => exact furnished.congr rfl rfl rfl rfl le
  | @retract key r fact found =>
    refine furnished.replaced rfl rfl rfl rfl rfl (formed.placed key r found).1 ?_
    intro rule stored
    obtain ⟨known, arity⟩ := furnished.rules r rule stored
    exact ⟨known, arity⟩
  | @assert key r fact db found added =>
    obtain ⟨fixed, rfl⟩ := Database.addFact_ok added
    refine furnished.replaced rfl rfl rfl rfl rfl (formed.placed key r found).1 ?_
    intro rule stored
    obtain ⟨known, arity⟩ := furnished.rules r rule stored
    rcases fixed with none | same
    · rw [none] at arity
      cases arity
    · exact ⟨known, same.symm.trans arity⟩
  | @rule key r rule db found salted known added =>
    obtain ⟨_, fixed, rfl⟩ := Database.addRule_ok added
    refine furnished.replaced rfl rfl rfl rfl rfl (formed.placed key r found).1 ?_
    intro other stored
    rcases List.mem_append.mp stored with old | last
    · obtain ⟨known, arity⟩ := furnished.rules r other old
      rcases fixed with none | same
      · rw [none] at arity
        cases arity
      · exact ⟨known, same.symm.trans arity⟩
    · rw [List.mem_singleton.mp last]
      exact ⟨known, rfl⟩
  | action absent => exact furnished.opened absent
  | payload _ found _ => exact furnished.paying found _ _
  -- The other changes leave relations, actions and payloads alone.
  | _ => exact furnished.congr rfl rfl rfl rfl (Int.le_refl _)

end Furnished

theorem Arises.furnished (arises : m.Arises) : m.Furnished := by
  obtain ⟨verbose, strict, id, evolves⟩ := arises
  suffices m.WellFormed ∧ m.Furnished from this.2
  induction evolves with
  | refl => exact ⟨wellFormed_new verbose strict id, furnished_new verbose strict id⟩
  | tail _ last ih => exact ⟨ih.1.change last, ih.2.change ih.1 last⟩

def AsksRegistered (m : Machine) (rule : Rule) : Prop :=
  ∀ condition ∈ rule.conditions,
    m.relations.get? (m.database.nameOf condition.1) = some condition.1

theorem Knows.asksRegistered (formed : m.WellFormed) {rule : Rule} (known : m.Knows rule) :
    m.AsksRegistered rule := by
  intro condition inside
  obtain ⟨key, found⟩ := known condition.1 (List.mem_map_of_mem inside)
  rw [(formed.placed key condition.1 found).2, found]

/-- An action has a name, and its rules are those of lines that have been loaded. -/
theorem Arises.action_entries (arises : m.Arises) {key : String} {action : Action}
    (found : m.actions.get? key = some action) :
    action.name = key ∧ ∀ rule ∈ action.rules, m.Knows rule ∧ rule.source = none := by
  obtain ⟨verbose, strict, id, evolves⟩ := arises
  obtain ⟨sites, name, entries⟩ := (pays_new verbose strict id key).evolves evolves
  have same : m.actionOf key = action := by rw [actionOf, found, Option.getD_some]
  rw [same] at name entries
  constructor
  · exact name
  · intro rule inside
    obtain ⟨entry, member, rfl⟩ := List.mem_map.mp inside
    obtain ⟨place, here, rfl⟩ := List.getElem_of_mem member
    have enters := entries.get here (entries.length_eq ▸ here)
    exact ⟨enters.compiled.knows, enters.compiled.source⟩

/-- A question with a number of arguments that its relation does not take has no answers. -/
structure FindsNothing (m : Machine) (question : Phrase) : Prop where
  isTrue : ((isTrue question).run m).1 = .ok false
  values : ((values question).run m).1 = .ok none
  solutions : ∀ limit, ((solutions question limit).run m).1 = limited limit []

theorem Furnished.findsNothing (furnished : m.Furnished) (formed : m.WellFormed)
    {question : Phrase} {r : RelationId} (declared : m.relations.get? question.key = some r)
    (differs : (m.database.relation r).arity ≠ some question.args.length) :
    m.FindsNothing question := by
  obtain ⟨found, q, answers, isTrue, values, solutions⟩ :=
    run_question formed.acyclic.layered declared
  have none : found = [] := by
    apply List.eq_nil_iff_forall_not_mem.mpr
    intro s given
    have settled := answers.settled rfl given
    cases answers.sound rfl given (Substitution.holds_reading settled fun _ => "") with
    | query derivable =>
      apply differs
      rw [derivable.length_eq formed.sized fun s rule stored => (furnished.rules s rule stored).arity,
        List.length_map]
  subst none
  exact ⟨isTrue, values, solutions⟩

/-- The tables of a machine fit together. -/
structure Consistent (m : Machine) : Prop where
  relations : ∀ key r, m.relations.get? key = some r →
    r < m.database.relations.length ∧ m.database.nameOf r = key
  /-- There is no relation beside those that are registered. -/
  registered : ∀ r < m.database.relations.length,
    m.relations.get? (m.database.nameOf r) = some r
  actions : ∀ key action, m.actions.get? key = some action → action.name = key
  facts : ∀ r, ∀ fact ∈ (m.database.relation r).facts,
    (m.database.relation r).arity = some fact.length
  rules : ∀ r, ∀ rule ∈ (m.database.relation r).rules,
    (m.database.relation r).arity = some rule.params.length
  blank : ∀ r, (m.database.relation r).arity = none →
    (m.database.relation r).facts = [] ∧ (m.database.relation r).rules = []
  misses : ∀ question r, m.relations.get? question.key = some r →
    (m.database.relation r).arity ≠ some question.args.length → m.FindsNothing question
  relationRules : ∀ r, ∀ rule ∈ (m.database.relation r).rules,
    m.AsksRegistered rule ∧ rule.source = some source
  actionRules : ∀ key action, m.actions.get? key = some action → ∀ rule ∈ action.rules,
    m.AsksRegistered rule ∧ rule.source = none
  /-- An action pairs its rules with payload ids. -/
  paired : ∀ key action, m.actions.get? key = some action →
    action.rules.length = action.payloadIds.length
  distinct : m.payloadIds.Nodup
  payloads : ∀ payload, payload ∈ m.payloadIds ↔ payload ∈ m.payloads.keys
  exclusions : ∀ key group, m.exclusions.get? key = some group → ∀ exclusion ∈ group,
    exclusion.key = key ∧ (∃ r, m.relations.get? key = some r) ∧
      exclusion.bound.length = exclusion.rule.params.length ∧
      m.AsksRegistered exclusion.rule ∧ exclusion.rule.source = none

/-- The tables fit together after every sequence of operations, whether they succeeded or failed. -/
theorem Reachable.consistent (reachable : m.Reachable) : m.Consistent := by
  have formed := reachable.wellFormed
  have furnished := reachable.arises.furnished
  have entries {key : String} {action : Action} (found : m.actions.get? key = some action) :=
    reachable.arises.action_entries found
  constructor
  case relations => exact formed.placed
  case registered => exact formed.keyed
  case actions =>
    intro key action found
    exact (entries found).1
  case facts => exact formed.sized
  case rules =>
    intro r rule stored
    exact (furnished.rules r rule stored).arity
  case blank =>
    intro r none
    constructor
    · apply List.eq_nil_iff_forall_not_mem.mpr
      intro fact stored
      simp [formed.sized r fact stored] at none
    · apply List.eq_nil_iff_forall_not_mem.mpr
      intro rule stored
      simp [(furnished.rules r rule stored).arity] at none
  case misses =>
    intro question r declared differs
    exact furnished.findsNothing formed declared differs
  case relationRules =>
    intro r rule stored
    exact ⟨(furnished.rules r rule stored).known.asksRegistered formed, formed.salted r rule stored⟩
  case actionRules =>
    intro key action found rule inside
    obtain ⟨known, unsalted⟩ := (entries found).2 rule inside
    exact ⟨known.asksRegistered formed, unsalted⟩
  case paired =>
    intro key action _
    simp [Action.rules, Action.payloadIds]
  case distinct => exact furnished.paid.nodup_iff.mpr m.payloads.nodup
  case payloads =>
    intro payload
    exact furnished.paid.mem_iff
  case exclusions =>
    intro key group found exclusion inside
    obtain ⟨same, admits⟩ := formed.excludes key group found exclusion inside
    exact ⟨same, same ▸ admits.declared, admits.flags, admits.known.asksRegistered formed,
      admits.unsalted⟩

/-- The last line would make `near` depend on itself; what stands above it has been loaded. -/
def stoppedText : String :=
  "+ at \"a\" \"b\"\n? at (x) (y)\n* go (x)\n    + at (x) \"c\"\n:: at (x) (y)\n    + near (x)\n" ++
    "        :: near (z)\n            + at (z) (z)"

theorem consistent_stopped :
    ((load stoppedText).run {}).1 = .error (.recursiveRule ["at %s %s", "near %s", "at %s %s"]) ∧
      ((load stoppedText).run {}).2.Consistent :=
  ⟨by decide +kernel, Reachable.consistent ⟨false, false, 0, .load stoppedText {}⟩⟩

end Machine
end Rulebook
