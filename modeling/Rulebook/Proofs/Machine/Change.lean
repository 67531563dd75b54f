import Mathlib.Data.List.Forall2
import Rulebook.Proofs.Database
import Rulebook.Proofs.Machine.Operation
import Rulebook.Proofs.Search.Completeness
import Rulebook.Machine.Perform

/-! How a machine can change. Every operation, also one that fails, is a sequence of the changes
below, so what each of them keeps holds of every machine that operations lead to. -/
namespace Rulebook.Machine

def Knows (m : Machine) (rule : Rule) : Prop :=
  ∀ c ∈ rule.relations, ∃ key, m.relations.get? key = some c

/-- The rule says of the parameters what the conditions among the lines say. -/
structure Compiled (m : Machine) (above : List Line) (params : List Term)
    (source : Option SourceId) (rule : Rule) : Prop where
  params : rule.params = params
  source : rule.source = source
  conditions : List.Forall₂ (fun line condition =>
      m.relations.get? line.phrase.key = some condition.1 ∧ condition.2 = line.phrase.args)
    (conditionsOf above) rule.conditions

theorem Compiled.knows {m : Machine} {above : List Line} {params : List Term}
    {source : Option SourceId} {rule : Rule} (compiled : m.Compiled above params source rule) :
    m.Knows rule := by
  intro c inside
  obtain ⟨condition, member, rfl⟩ := List.mem_map.mp inside
  obtain ⟨place, here, rfl⟩ := List.getElem_of_mem member
  have lengths := compiled.conditions.length_eq
  obtain ⟨found, _⟩ := compiled.conditions.get (lengths ▸ here) here
  exact ⟨_, found⟩

structure Admits (m : Machine) (exclusion : Exclusion) : Prop where
  declared : ∃ r, m.relations.get? exclusion.key = some r
  unsalted : exclusion.rule.source = none
  known : m.Knows exclusion.rule
  flags : exclusion.bound.length = exclusion.rule.params.length

inductive Change : Machine → Machine → Prop where
  | declare {m : Machine} {key : String} : m.relations.get? key = none → Change m (m.declared key)
  | spend {m : Machine} {id : Int} : m.nextId ≤ id → Change m { m with nextId := id }
  | print {m : Machine} {lines : List String} : Change m { m with printed := lines }
  | retract {m : Machine} {key : String} {r : RelationId} {fact : List Term} :
      m.relations.get? key = some r →
      Change m { m with
        database := m.database.removeFact r fact
        history := m.history ++ [.retracted (m.database.nameOf r) (fact.map Term.key)] }
  | assert {m : Machine} {key : String} {r : RelationId} {fact : List Term} {db : Database} :
      m.relations.get? key = some r → m.database.addFact r fact = .ok db →
      Change m { m with
        database := db
        history := m.history ++ [.claimed key (fact.map Term.key)] }
  | rule {m : Machine} {key : String} {r : RelationId} {rule : Rule} {db : Database} :
      m.relations.get? key = some r → rule.source = some source → m.Knows rule →
      m.database.addRule r rule = .ok db → Change m { m with database := db }
  | action {m : Machine} {key : String} : m.actions.get? key = none →
      Change m { m with actions := m.actions.put key { name := key } }
  | payload {m : Machine} {above : List Line} {line : Line} {action : Action} {rule : Rule}
      {lines : List Line} : line.kind = .action → m.actions.get? line.phrase.key = some action →
      m.Compiled above line.phrase.args none rule →
      Change m { m with
        nextId := m.nextId + 1
        actions := m.actions.put line.phrase.key (action.add rule (Naming.payload m.nextId))
        payloads := m.payloads.put (Naming.payload m.nextId) lines }
  | exclusion {m : Machine} {exclusion : Exclusion} : m.Admits exclusion →
      Change m { m with
        exclusions := m.exclusions.put exclusion.key
          (((m.exclusions.get? exclusion.key).getD []) ++ [exclusion]) }
  | perform {m : Machine} {key payload : String} :
      Change m { m with history := m.history ++ [.performed key payload] }
  | enter {m : Machine} {key : String} : key ∉ m.running →
      Change m { m with running := m.running ++ [key] }
  | leave {m : Machine} : Change m { m with running := m.running.dropLast }
  | register {m : Machine} {names : List String} : Change m { m with callbacks := names }

abbrev Evolves : Machine → Machine → Prop := Relation.ReflTransGen Change

def Quiet (m n : Machine) : Prop := Change m n ∧ n.running = m.running

abbrev Works : Machine → Machine → Prop := Relation.ReflTransGen Quiet

/-- What holds of every machine that started without relations. -/
structure WellFormed (m : Machine) : Prop where
  acyclic : m.database.Acyclic
  placed : ∀ key r, m.relations.get? key = some r →
    r < m.database.relations.length ∧ m.database.nameOf r = key
  keyed : ∀ r < m.database.relations.length, m.relations.get? (m.database.nameOf r) = some r
  salted : m.database.Salted source
  sized : ∀ r, ∀ fact ∈ (m.database.relation r).facts,
    (m.database.relation r).arity = some fact.length
  excludes : ∀ key group, m.exclusions.get? key = some group → ∀ exclusion ∈ group,
    exclusion.key = key ∧ m.Admits exclusion

structure Restores (m n : Machine) : Prop where
  evolves : Evolves m n
  running : n.running = m.running

section
variable {m n k : Machine}

theorem Restores.refl (m : Machine) : Restores m m := ⟨.refl, rfl⟩

theorem Restores.trans (first : Restores m n) (second : Restores n k) : Restores m k :=
  ⟨first.evolves.trans second.evolves, second.running.trans first.running⟩

theorem Works.evolves (works : Works m n) : Evolves m n := by
  induction works with
  | refl => exact .refl
  | tail _ last ih => exact ih.tail last.1

theorem Works.running (works : Works m n) : n.running = m.running := by
  induction works with
  | refl => rfl
  | tail _ last ih => exact last.2.trans ih

theorem Works.restores (works : Works m n) : Restores m n := ⟨works.evolves, works.running⟩

theorem Knows.mono {rule : Rule} (known : m.Knows rule)
    (kept : ∀ key r, m.relations.get? key = some r → n.relations.get? key = some r) :
    n.Knows rule := by
  intro c asked
  obtain ⟨key, found⟩ := known c asked
  exact ⟨key, kept key c found⟩

theorem Admits.mono {exclusion : Exclusion} (admits : m.Admits exclusion)
    (kept : ∀ key r, m.relations.get? key = some r → n.relations.get? key = some r) :
    n.Admits exclusion where
  declared := admits.declared.imp fun r => kept exclusion.key r
  unsalted := admits.unsalted
  known := admits.known.mono kept
  flags := admits.flags

/-- Nothing of the rest matters. -/
theorem WellFormed.congr (formed : m.WellFormed) (database : n.database = m.database)
    (relations : n.relations = m.relations) (exclusions : n.exclusions = m.exclusions) :
    n.WellFormed where
  acyclic := database ▸ formed.acyclic
  placed key r found := database ▸ formed.placed key r (relations ▸ found)
  keyed r inside := by
    rw [database, relations]
    exact formed.keyed r (database ▸ inside)
  salted := database ▸ formed.salted
  sized := database ▸ formed.sized
  excludes key group found exclusion inside := by
    obtain ⟨same, admits⟩ := formed.excludes key group (exclusions ▸ found) exclusion inside
    exact ⟨same, admits.mono fun key r found => relations ▸ found⟩

/-- An exclusion under a key is known under it. -/
theorem WellFormed.admits (formed : m.WellFormed) {key : String} {exclusion : Exclusion}
    (registered : exclusion ∈ (m.exclusions.get? key).getD []) :
    exclusion.key = key ∧ m.Admits exclusion := by
  cases found : m.exclusions.get? key with
  | none =>
    rw [found] at registered
    cases registered
  | some group =>
    rw [found] at registered
    exact formed.excludes key group found exclusion registered

/-- A key that nothing declared has no exclusions. -/
theorem WellFormed.no_exclusions (formed : m.WellFormed) {key : String}
    (absent : m.relations.get? key = none) : (m.exclusions.get? key).getD [] = [] := by
  apply List.eq_nil_iff_forall_not_mem.mpr
  intro exclusion registered
  obtain ⟨same, admits⟩ := formed.admits registered
  obtain ⟨r, found⟩ := admits.declared
  rw [same, absent] at found
  cases found

theorem wellFormed_new (verbose strict : Bool) (id : Int) :
    ({ verbose, strict, nextId := id } : Machine).WellFormed where
  acyclic := Database.acyclic_empty
  placed _ _ found := nomatch found
  keyed _ inside := nomatch inside
  salted r rule stored := by
    rw [Database.relation_eq_empty (Nat.zero_le r)] at stored
    cases stored
  sized r fact stored := by
    rw [Database.relation_eq_empty (Nat.zero_le r)] at stored
    cases stored
  excludes _ _ found := nomatch found

namespace WellFormed

theorem declared (formed : m.WellFormed) {key : String} (new : m.relations.get? key = none) :
    (m.declared key).WellFormed := by
  have kept (other : String) (r : RelationId) (found : m.relations.get? other = some r) :
      (m.declared key).relations.get? other = some r := get?_declared_kept new found
  constructor
  case acyclic => exact formed.acyclic.declare key
  case placed =>
    intro other r found
    simp only [Machine.declared, Table.get?_put] at found ⊢
    rw [Database.length_declare, Database.nameOf, Database.relation_declare]
    split at found
    · rename_i same
      cases found
      exact ⟨Nat.lt_succ_self _, by rw [if_pos rfl, same]⟩
    · obtain ⟨inside, named⟩ := formed.placed other r found
      exact ⟨Nat.lt_succ_of_lt inside, by rwa [if_neg (Nat.ne_of_lt inside)]⟩
  case keyed =>
    intro r inside
    rw [Machine.declared, Database.length_declare, Nat.lt_succ_iff_lt_or_eq] at inside
    simp only [Machine.declared, Database.nameOf, Database.relation_declare]
    rcases inside with old | rfl
    · rw [if_neg (Nat.ne_of_lt old)]
      exact kept _ r (formed.keyed r old)
    · rw [if_pos rfl, Table.get?_put, if_pos rfl]
  case salted =>
    intro r rule stored
    simp only [Machine.declared, Database.relation_declare] at stored
    split at stored
    · cases stored
    · exact formed.salted r rule stored
  case sized =>
    intro r fact stored
    simp only [Machine.declared, Database.relation_declare] at stored ⊢
    split at stored
    · cases stored
    · rename_i different
      rw [if_neg different]
      exact formed.sized r fact stored
  case excludes =>
    intro other group found exclusion inside
    obtain ⟨same, admits⟩ := formed.excludes other group found exclusion inside
    exact ⟨same, admits.mono kept⟩

/-- One relation gets other contents. -/
theorem replaced (formed : m.WellFormed) {r : RelationId} {relation : Relation}
    (database : n.database = m.database.set r relation) (relations : n.relations = m.relations)
    (exclusions : n.exclusions = m.exclusions) (declared : r < m.database.relations.length)
    (acyclic : (m.database.set r relation).Acyclic) (name : relation.name = m.database.nameOf r)
    (salted : ∀ rule ∈ relation.rules, rule.source = some source)
    (sized : ∀ fact ∈ relation.facts, relation.arity = some fact.length) : n.WellFormed := by
  have names (s : RelationId) : n.database.nameOf s = m.database.nameOf s := by
    rw [database, Database.nameOf, Database.relation_set declared]
    split
    · rename_i same
      rw [name, same]
    · rfl
  constructor
  case acyclic => rwa [database]
  case placed =>
    intro key s found
    rw [names, database, Database.length_set]
    exact formed.placed key s (relations ▸ found)
  case keyed =>
    intro s inside
    rw [database, Database.length_set] at inside
    rw [names, relations]
    exact formed.keyed s inside
  case salted =>
    intro s rule stored
    rw [database, Database.relation_set declared] at stored
    split at stored
    · exact salted rule stored
    · exact formed.salted s rule stored
  case sized =>
    intro s fact stored
    rw [database, Database.relation_set declared] at stored ⊢
    split at stored
    · rename_i same
      rw [if_pos same]
      exact sized fact stored
    · rename_i different
      rw [if_neg different]
      exact formed.sized s fact stored
  case excludes =>
    intro key group found exclusion inside
    obtain ⟨same, admits⟩ := formed.excludes key group (exclusions ▸ found) exclusion inside
    exact ⟨same, admits.mono fun key s found => relations ▸ found⟩

theorem change (formed : m.WellFormed) (change : Change m n) : n.WellFormed := by
  cases change with
  | declare new => exact formed.declared new
  | @retract key r fact found =>
    obtain ⟨inside, _⟩ := formed.placed key r found
    refine formed.replaced rfl rfl rfl inside (formed.acyclic.set rfl) rfl (formed.salted r) ?_
    exact fun other stored => formed.sized r other (List.mem_of_mem_filter stored)
  | @assert key r fact db found added =>
    obtain ⟨inside, _⟩ := formed.placed key r found
    obtain ⟨arity, rfl⟩ := Database.addFact_ok added
    refine formed.replaced rfl rfl rfl inside (formed.acyclic.set rfl) rfl (formed.salted r) ?_
    intro other stored
    rcases List.mem_append.mp stored with old | new
    · have sized := formed.sized r other old
      rcases arity with none | same
      · rw [none] at sized
        cases sized
      · rwa [same] at sized
    · rw [List.mem_singleton.mp new]
  | @rule key r rule db found salted known added =>
    obtain ⟨inside, _⟩ := formed.placed key r found
    have asked (c : RelationId) (member : c ∈ rule.relations) :
        c < m.database.relations.length := by
      obtain ⟨key, placed⟩ := known c member
      exact (formed.placed key c placed).1
    have acyclic := formed.acyclic.addRule asked added
    obtain ⟨_, arity, rfl⟩ := Database.addRule_ok added
    refine formed.replaced rfl rfl rfl inside acyclic rfl ?_ ?_
    · intro other stored
      rcases List.mem_append.mp stored with old | new
      · exact formed.salted r other old
      · rwa [List.mem_singleton.mp new]
    · intro fact stored
      have sized := formed.sized r fact stored
      rcases arity with none | same
      · rw [none] at sized
        cases sized
      · rwa [same] at sized
  | @exclusion exclusion admits =>
    refine ⟨formed.acyclic, formed.placed, formed.keyed, formed.salted, formed.sized, ?_⟩
    intro key group found other inside
    simp only [Table.get?_put] at found
    split at found
    · rename_i same
      cases found
      rcases List.mem_append.mp inside with old | new
      · obtain ⟨named, admits⟩ := formed.admits old
        exact ⟨named.trans same.symm, admits.mono fun _ _ found => found⟩
      · rw [List.mem_singleton.mp new]
        exact ⟨same.symm, admits.mono fun _ _ found => found⟩
    · obtain ⟨named, admits⟩ := formed.excludes key group found other inside
      exact ⟨named, admits.mono fun _ _ found => found⟩
  -- The other changes leave relations and exclusions alone.
  | _ => exact formed.congr rfl rfl rfl

theorem evolves (formed : m.WellFormed) (evolves : Evolves m n) : n.WellFormed := by
  induction evolves with
  | refl => exact formed
  | tail _ last ih => exact ih.change last

end WellFormed

/-- A machine that changes lead to from a new one; callbacks may find it in the midst of an
operation. -/
def Arises (m : Machine) : Prop := ∃ verbose strict id, Evolves { verbose, strict, nextId := id } m

theorem Arises.wellFormed (arises : m.Arises) : m.WellFormed := by
  obtain ⟨verbose, strict, id, evolves⟩ := arises
  exact (wellFormed_new verbose strict id).evolves evolves

end

end Rulebook.Machine
