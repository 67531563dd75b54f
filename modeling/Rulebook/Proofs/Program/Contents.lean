import Rulebook.Proofs.Machine.Evolution
import Rulebook.Proofs.Program.Meaning

/-! What a machine holds under its keys, and how loading a block adds to it exactly the facts and
rules of the block. -/
namespace Rulebook

theorem Forall₂.exists_right {R : α → β → Prop} {left : List α} {right : List β}
    (all : List.Forall₂ R left right) {b : β} (inside : b ∈ right) : ∃ a ∈ left, R a b := by
  induction all with
  | nil => cases inside
  | cons first _ ih =>
    rcases List.mem_cons.mp inside with rfl | later
    · exact ⟨_, List.mem_cons_self, first⟩
    · obtain ⟨a, member, related⟩ := ih later
      exact ⟨a, List.mem_cons_of_mem _ member, related⟩

namespace Machine
variable {m n : Machine}

/-- The relation of a key; an empty one if the key is not declared. -/
def under (m : Machine) (key : String) : Relation :=
  ((m.relations.get? key).map m.database.relation).getD {}

theorem under_of_found {key : String} {r : RelationId} (found : m.relations.get? key = some r) :
    m.under key = m.database.relation r := by
  rw [under, found, Option.map_some, Option.getD_some]

theorem under_of_absent {key : String} (absent : m.relations.get? key = none) :
    m.under key = {} := by
  rw [under, absent, Option.map_none, Option.getD_none]

/-- The texts stand under the key, by facts and rules. -/
def Derives (m : Machine) (key : String) (values : List String) : Prop :=
  ∃ r, m.relations.get? key = some r ∧ Derivable m.database r values

/-- Two keys with the same place are the same. -/
theorem WellFormed.key_inj (formed : m.WellFormed) {key other : String} {r : RelationId}
    (first : m.relations.get? key = some r) (second : m.relations.get? other = some r) :
    key = other :=
  (formed.placed key r first).2.symm.trans (formed.placed other r second).2

/-- A new relation is empty. -/
theorem under_declared (formed : m.WellFormed) {key : String}
    (absent : m.relations.get? key = none) (other : String) :
    ((m.declared key).under other).facts = (m.under other).facts ∧
      ((m.declared key).under other).rules = (m.under other).rules ∧
      ((m.declared key).under other).arity = (m.under other).arity := by
  have tables : (m.declared key).relations.get? other =
      if other = key then some m.database.relations.length else m.relations.get? other := by
    rw [declared, Table.get?_put]
  split at tables
  · rename_i same
    rw [under_of_found tables, same, under_of_absent absent, declared,
      Database.relation_declare, if_pos rfl]
    exact ⟨rfl, rfl, rfl⟩
  · cases found : m.relations.get? other with
    | none =>
      rw [under_of_absent found, under_of_absent (tables.trans found)]
      exact ⟨rfl, rfl, rfl⟩
    | some r =>
      rw [under_of_found found, under_of_found (tables.trans found), declared,
        Database.relation_declare, if_neg (Nat.ne_of_lt (formed.placed other r found).1)]
      exact ⟨rfl, rfl, rfl⟩

theorem Declares.under (declares : Declares m n) (formed : m.WellFormed) (key : String) :
    (n.under key).facts = (m.under key).facts ∧ (n.under key).rules = (m.under key).rules ∧
      (n.under key).arity = (m.under key).arity := by
  induction declares with
  | refl => exact ⟨rfl, rfl, rfl⟩
  | step absent _ ih =>
    obtain ⟨facts, rules, arity⟩ := under_declared formed absent key
    obtain ⟨later_facts, later_rules, later_arity⟩ := ih (formed.declared absent)
    exact ⟨later_facts.trans facts, later_rules.trans rules, later_arity.trans arity⟩

/-- Changing one relation changes what is under its key. -/
theorem under_set (formed : m.WellFormed) {key : String} {r : RelationId} {relation : Relation}
    (found : m.relations.get? key = some r) (relations : n.relations = m.relations)
    (database : n.database = m.database.set r relation) (other : String) :
    n.under other = if other = key then relation else m.under other := by
  have inside := (formed.placed key r found).1
  split
  · rename_i same
    rw [under_of_found (relations ▸ same ▸ found), database, Database.relation_set inside,
      if_pos rfl]
  · rename_i different
    cases there : m.relations.get? other with
    | none => rw [under_of_absent there, under_of_absent (relations ▸ there)]
    | some s =>
      have apart : s ≠ r := by
        rintro rfl
        exact different (formed.key_inj there found)
      rw [under_of_found there, under_of_found (relations ▸ there), database,
        Database.relation_set_other apart]

theorem under_of_addFact (formed : m.WellFormed) {key : String} {r : RelationId}
    {fact : List Term} {db : Database} (found : m.relations.get? key = some r)
    (added : m.database.addFact r fact = .ok db) (relations : n.relations = m.relations)
    (database : n.database = db) (other : String) :
    n.under other = if other = key then
      { m.under key with arity := some fact.length, facts := (m.under key).facts ++ [fact] }
      else m.under other := by
  obtain ⟨_, same⟩ := Database.addFact_ok added
  rw [under_set formed found relations (database.trans same), under_of_found found]

theorem under_of_addRule (formed : m.WellFormed) {key : String} {r : RelationId} {rule : Rule}
    {db : Database} (found : m.relations.get? key = some r)
    (added : m.database.addRule r rule = .ok db) (relations : n.relations = m.relations)
    (database : n.database = db) (other : String) :
    n.under other = if other = key then
      { m.under key with arity := some rule.params.length, rules := (m.under key).rules ++ [rule] }
      else m.under other := by
  obtain ⟨_, _, same⟩ := Database.addRule_ok added
  rw [under_set formed found relations (database.trans same), under_of_found found]

structure Carries (m : Machine) (rules : List Position) : Prop where
  formed : m.WellFormed
  sound : ∀ key, ∀ rule ∈ (m.under key).rules, ∃ place ∈ rules, place.line.phrase.key = key ∧
    m.Compiled place.above place.line.phrase.args (some source) rule
  complete : ∀ place ∈ rules, ∃ rule ∈ (m.under place.line.phrase.key).rules,
    m.Compiled place.above place.line.phrase.args (some source) rule

/-- The machine holds these facts and the rules of these lines, and nothing else. -/
structure States (m : Machine) (facts : List Phrase) (rules : List Position) : Prop
    extends m.Carries rules where
  free : ∀ key, m.exclusions.get? key = none
  facts : ∀ fact : Phrase, fact.args ∈ (m.under fact.key).facts ↔ fact ∈ facts

theorem Compiled.mono {above : List Line} {params : List Term} {source : Option SourceId}
    {rule : Rule} (compiled : m.Compiled above params source rule)
    (kept : ∀ key r, m.relations.get? key = some r → n.relations.get? key = some r) :
    n.Compiled above params source rule where
  params := compiled.params
  source := compiled.source
  conditions := compiled.conditions.imp fun _ _ found => ⟨kept _ _ found.1, found.2⟩

section Compiling
variable {above : List Line} {params : List Term} {source : Option SourceId} {rule : Rule}

/-- Each condition of the rule is one of the lines above it. -/
theorem Compiled.exists_line (compiled : m.Compiled above params source rule)
    {condition : RelationId × List Term} (inside : condition ∈ rule.conditions) :
    ∃ line ∈ above, line.kind = .condition ∧
      m.relations.get? line.phrase.key = some condition.1 ∧ condition.2 = line.phrase.args := by
  obtain ⟨line, among, same⟩ := Forall₂.exists_right compiled.conditions inside
  obtain ⟨above, kind⟩ := List.mem_filter.mp among
  exact ⟨line, above, beq_iff_eq.mp kind, same⟩

theorem Compiled.exists_condition (compiled : m.Compiled above params source rule) {line : Line}
    (inside : line ∈ above) (kind : line.kind = .condition) :
    ∃ condition ∈ rule.conditions,
      m.relations.get? line.phrase.key = some condition.1 ∧ condition.2 = line.phrase.args :=
  Forall₂.exists_right compiled.conditions.flip
    (List.mem_filter.mpr ⟨inside, beq_iff_eq.mpr kind⟩)

end Compiling

namespace Carries
variable {rules : List Position}

/-- What is new under the keys is new in the list. -/
theorem extend (carries : m.Carries rules) (newRules : List Position) (formed : n.WellFormed)
    (kept : ∀ key r, m.relations.get? key = some r → n.relations.get? key = some r)
    (old : ∀ key, (m.under key).rules ⊆ (n.under key).rules)
    (sound : ∀ key, ∀ rule ∈ (n.under key).rules, rule ∈ (m.under key).rules ∨
      ∃ place ∈ newRules, place.line.phrase.key = key ∧
        n.Compiled place.above place.line.phrase.args (some source) rule)
    (complete : ∀ place ∈ newRules, ∃ rule ∈ (n.under place.line.phrase.key).rules,
      n.Compiled place.above place.line.phrase.args (some source) rule) :
    n.Carries (rules ++ newRules) where
  formed := formed
  sound key rule stored := by
    rcases sound key rule stored with before | ⟨place, inside, named, compiled⟩
    · obtain ⟨place, inside, named, compiled⟩ := carries.sound key rule before
      exact ⟨place, List.mem_append_left _ inside, named, compiled.mono kept⟩
    · exact ⟨place, List.mem_append_right _ inside, named, compiled⟩
  complete place inside := by
    rcases List.mem_append.mp inside with before | new
    · obtain ⟨rule, stored, compiled⟩ := carries.complete place before
      exact ⟨rule, old _ stored, compiled.mono kept⟩
    · exact complete place new

/-- What is under each key stays the same. -/
theorem of_under (carries : m.Carries rules) (formed : n.WellFormed)
    (kept : ∀ key r, m.relations.get? key = some r → n.relations.get? key = some r)
    (same : ∀ key, (n.under key).rules = (m.under key).rules) : n.Carries rules := by
  have extended := carries.extend [] formed kept
    (fun key => by rw [same key]; exact fun _ inside => inside)
    (fun key rule stored => .inl (by rwa [same key] at stored))
    (by simp)
  rwa [List.append_nil] at extended

/-- A fact that is added changes no rules. -/
theorem addFact (carries : m.Carries rules) {key : String} {r : RelationId} {fact : List Term}
    {db : Database} (found : m.relations.get? key = some r)
    (added : m.database.addFact r fact = .ok db) (formed : n.WellFormed)
    (relations : n.relations = m.relations) (database : n.database = db) : n.Carries rules := by
  have under := under_of_addFact carries.formed found added relations database
  refine carries.of_under formed (fun _ _ there => relations ▸ there) fun other => ?_
  rw [under]
  split
  · rename_i same
    rw [same]
  · rfl

/-- A rule that is added is there from then on. -/
theorem addRule (carries : m.Carries rules) {above : List Line} {line : Line} {r : RelationId}
    {rule : Rule} {db : Database} (found : m.relations.get? line.phrase.key = some r)
    (compiled : m.Compiled above line.phrase.args (some source) rule)
    (added : m.database.addRule r rule = .ok db) (formed : n.WellFormed)
    (relations : n.relations = m.relations) (database : n.database = db) :
    n.Carries (rules ++ [⟨above, line⟩]) := by
  have under := under_of_addRule carries.formed found added relations database
  have kept (key : String) (s : RelationId) (there : m.relations.get? key = some s) :
      n.relations.get? key = some s := relations ▸ there
  refine carries.extend _ formed kept ?_ ?_ ?_
  · intro key other stored
    rw [under]
    split
    · rename_i same
      exact List.mem_append_left _ (same ▸ stored)
    · exact stored
  · intro key other stored
    rw [under] at stored
    split at stored
    · rename_i same
      rw [same]
      apply (List.mem_append.mp stored).imp_right
      intro last
      rw [List.mem_singleton.mp last]
      exact ⟨_, List.mem_singleton_self _, rfl, compiled.mono kept⟩
    · exact .inl stored
  · intro place inside
    rw [List.mem_singleton.mp inside]
    refine ⟨rule, ?_, compiled.mono kept⟩
    rw [under, if_pos rfl]
    exact List.mem_append_right _ (List.mem_singleton_self rule)

end Carries

namespace States
variable {facts : List Phrase} {rules : List Position}

theorem of_new (verbose strict : Bool) (id : Int) :
    ({ verbose, strict, nextId := id } : Machine).States [] [] where
  formed := wellFormed_new verbose strict id
  free _ := rfl
  facts _ := by
    rw [under_of_absent rfl]
    simp only [List.not_mem_nil]
  sound key rule stored := by
    rw [under_of_absent rfl] at stored
    cases stored
  complete := by simp

/-- What is under each key stays the same. -/
theorem of_under (states : m.States facts rules) (formed : n.WellFormed)
    (exclusions : n.exclusions = m.exclusions)
    (kept : ∀ key r, m.relations.get? key = some r → n.relations.get? key = some r)
    (same : ∀ key, (n.under key).facts = (m.under key).facts ∧
      (n.under key).rules = (m.under key).rules) : n.States facts rules where
  toCarries := states.toCarries.of_under formed kept fun key => (same key).2
  free := exclusions ▸ states.free
  facts fact := by rw [(same _).1, states.facts]

theorem declares (states : m.States facts rules) (declares : Declares m n) :
    n.States facts rules := by
  refine states.of_under (states.formed.evolves declares.evolves) ?_
    (fun _ _ found => declares.kept found) fun key => ?_
  · rw [declares.same]
  · obtain ⟨facts, rules, _⟩ := declares.under states.formed key
    exact ⟨facts, rules⟩

/-- Nothing but relations and exclusions matters. -/
theorem congr (states : m.States facts rules) (database : n.database = m.database)
    (relations : n.relations = m.relations) (exclusions : n.exclusions = m.exclusions) :
    n.States facts rules := by
  have same (key : String) : n.under key = m.under key := by
    rw [under, under, database, relations]
  exact states.of_under (states.formed.congr database relations exclusions) exclusions
    (fun key r found => relations ▸ found) fun key => by rw [same key]; exact ⟨rfl, rfl⟩

/-- A fact that is asserted is held from then on. -/
theorem assert (states : m.States facts rules) (fact : Phrase) {create : Bool}
    (run : (assert fact.key fact.args create).run m = (.ok ⟨⟩, n)) :
    n.States (facts ++ [fact]) rules := by
  have formed := states.formed.evolves
    (by simpa only [run] using (works_assert fact.key fact.args create m).evolves)
  obtain ⟨r, middle, after, db, first, second, added, rfl⟩ := assert_ok run
  have ready : middle.States facts rules := by
    rcases relationFor_cases first with ⟨_, rfl⟩ | ⟨absent, _, rfl⟩
    · exact states
    · exact states.declares (.step absent (.refl _))
  obtain ⟨_, found⟩ := relationFor_ok first
  rw [ready.free] at second
  cases second
  have under := under_of_addFact (n := middle.asserted fact.key fact.args db)
    ready.formed found added rfl rfl
  refine ⟨ready.toCarries.addFact found added formed rfl rfl, ready.free, fun other => ?_⟩
  rw [under, List.mem_append, List.mem_singleton, ← ready.facts]
  split
  · rename_i same
    rw [same, List.mem_append, List.mem_singleton]
    exact or_congr_right ⟨fun args => congrArg₂ Phrase.mk same args, fun eq => by rw [eq]⟩
  · rename_i different
    refine (or_iff_left fun eq => ?_).symm
    rw [eq] at different
    exact different rfl

/-- A rule that is loaded is held from then on. -/
theorem loadRule (states : m.States facts rules) {above : List Line} {line : Line}
    (run : (loadRule above line).run m = (.ok ⟨⟩, n)) :
    n.States facts (rules ++ [⟨above, line⟩]) := by
  have formed := states.formed.evolves (by simpa only [run] using (works_loadRule above line m).evolves)
  obtain ⟨r, rule, middle, declares, found, compiled, loaded⟩ := run_loadRule above line m
  have ready := states.declares declares
  rw [run] at loaded
  split at loaded
  · cases loaded
  rename_i db added
  have outcome := (Prod.mk.inj loaded).2
  have relations : n.relations = middle.relations := by rw [outcome]; rfl
  have exclusions : n.exclusions = middle.exclusions := by rw [outcome]; rfl
  have database : n.database = db := by rw [outcome]; rfl
  refine ⟨ready.toCarries.addRule found compiled added formed relations database,
    exclusions ▸ ready.free, fun fact => ?_⟩
  rw [under_of_addRule ready.formed found added relations database, ← ready.facts]
  split
  · rename_i same
    rw [same]
  · rfl

/-- An action leaves facts and rules as they are. -/
theorem loadAction (states : m.States facts rules) {above : List Line} {line : Line}
    {payload : List Line} (run : (loadAction above line payload).run m = (.ok ⟨⟩, n)) :
    n.States facts rules := by
  obtain ⟨action, rule, middle, ready, last, first, declares, _, more, loaded, _⟩ :=
    run_loadAction above line payload m
  rw [run] at loaded
  cases loaded
  have opened : middle.States facts rules := by
    rw [run_actionFor] at first
    split at first
    · cases first
      exact states
    · cases first
      exact states.congr rfl rfl rfl
  have paid := (opened.declares declares).congr
    (n := (ready.paying line.phrase.key action rule payload).logged
      ("[action] " ++ line.content ++ " -> " ++ Naming.payload ready.nextId)) rfl rfl rfl
  exact paid.declares more

end States

theorem factsAmong_cons (place : Position) (places : List Position) :
    factsAmong (place :: places) = factsAmong [place] ++ factsAmong places :=
  factsAmong_append [place] places

theorem rulesAmong_cons (place : Position) (places : List Position) :
    rulesAmong (place :: places) = rulesAmong [place] ++ rulesAmong places :=
  rulesAmong_append [place] places

/-- A line that is no claim is neither a fact nor a rule. -/
theorem none_of_other (place : Position) (other : place.line.kind ≠ .claim) :
    factsAmong [place] = [] ∧ rulesAmong [place] = [] := by
  have marked : (place.line.kind == .claim) = false := beq_eq_false_iff_ne.mpr other
  simp [factsAmong, rulesAmong, Position.isFact, Position.isRule, marked]

/-- A claim at the top is a fact. -/
theorem among_top (place : Position) (claim : place.line.kind = .claim)
    (top : place.above.isEmpty = true) :
    factsAmong [place] = [place.line.phrase] ∧ rulesAmong [place] = [] := by
  simp [factsAmong, rulesAmong, Position.isFact, Position.isRule, claim, top]

/-- A claim further down is a rule unless it is under an action. -/
theorem among_nested (place : Position) (claim : place.line.kind = .claim)
    (nested : ¬place.above.isEmpty = true) (clear : ∀ line ∈ place.above, line.kind ≠ .action) :
    factsAmong [place] = [] ∧ rulesAmong [place] = [place] := by
  have passive : place.above.all (·.kind != .action) = true :=
    List.all_eq_true.mpr fun line inside => bne_iff_ne.mpr (clear line inside)
  simp [factsAmong, rulesAmong, Position.isFact, Position.isRule, claim, nested, passive]

mutual

/-- What loading a block adds are the facts and rules among its lines. -/
theorem loadBlock_states {above : List Line} (clear : ∀ line ∈ above, line.kind ≠ .action) :
    (block : Block) → (∀ place ∈ block.places above, place.line.kind ≠ .exclusion) →
    ∀ {m n : Machine} {facts : List Phrase} {rules : List Position}, m.States facts rules →
      (loadBlock above block).run m = (.ok ⟨⟩, n) →
      n.States (facts ++ factsAmong (block.places above)) (rules ++ rulesAmong (block.places above))
  | ⟨line, children⟩, plain, m, n, facts, rules, states, run => by
    rw [Block.places] at plain ⊢
    obtain ⟨here, plain⟩ := List.forall_mem_cons.mp plain
    rw [factsAmong_cons, rulesAmong_cons]
    have below (kind : line.kind ≠ .action) {m : Machine} {facts : List Phrase}
        {rules : List Position}
        (states : m.States facts rules)
        (run : (loadBlocks (line :: above) children).run m = (.ok ⟨⟩, n)) :
        n.States (facts ++ factsAmong (Block.placesOf (line :: above) children))
          (rules ++ rulesAmong (Block.placesOf (line :: above) children)) :=
      loadBlocks_states (List.forall_mem_cons.mpr ⟨kind, clear⟩) children plain states run
    rw [loadBlock] at run
    dsimp only at run
    split at run
    · rename_i action
      have other : (⟨above, line⟩ : Position).line.kind ≠ .claim := by rw [action]; decide
      obtain ⟨no_facts, no_rules⟩ := Block.none_under_action above action children
      rw [no_facts, no_rules, (none_of_other _ other).1, (none_of_other _ other).2]
      simp only [List.append_nil]
      exact states.loadAction run
    · rename_i claim
      have passive : line.kind ≠ .action := by rw [claim]; decide
      split at run
      · rename_i top
        obtain ⟨_, middle, first, rest⟩ := bind_ok run
        have next := below passive (states.assert line.phrase first) rest
        obtain ⟨fact, rule⟩ := among_top ⟨above, line⟩ claim top
        rwa [fact, rule, List.nil_append, ← List.append_assoc]
      · rename_i nested
        obtain ⟨_, middle, first, rest⟩ := bind_ok run
        have next := below passive (states.loadRule first) rest
        obtain ⟨fact, rule⟩ := among_nested ⟨above, line⟩ claim nested clear
        rwa [fact, rule, List.nil_append, ← List.append_assoc]
    · rename_i exclusion
      exact absurd exclusion here
    · rename_i action claim exclusion
      rw [(none_of_other ⟨above, line⟩ claim).1,
        (none_of_other ⟨above, line⟩ claim).2, List.nil_append, List.nil_append]
      exact below action states run

theorem loadBlocks_states {above : List Line} (clear : ∀ line ∈ above, line.kind ≠ .action) :
    (blocks : List Block) → (∀ place ∈ Block.placesOf above blocks, place.line.kind ≠ .exclusion) →
    ∀ {m n : Machine} {facts : List Phrase} {rules : List Position}, m.States facts rules →
      (loadBlocks above blocks).run m = (.ok ⟨⟩, n) →
      n.States (facts ++ factsAmong (Block.placesOf above blocks))
        (rules ++ rulesAmong (Block.placesOf above blocks))
  | [], _, m, n, facts, rules, states, run => by
    cases run
    simpa [Block.placesOf, factsAmong, rulesAmong] using states
  | block :: blocks, plain, m, n, facts, rules, states, run => by
    rw [Block.placesOf] at plain ⊢
    obtain ⟨first_plain, plain⟩ := List.forall_mem_append.mp plain
    rw [loadBlocks] at run
    obtain ⟨_, middle, first, others⟩ := bind_ok run
    have next := loadBlocks_states clear blocks plain
      (loadBlock_states clear block first_plain states first) others
    rwa [factsAmong_append, rulesAmong_append, ← List.append_assoc, ← List.append_assoc]

end

end Machine
end Rulebook
