import Mathlib.Data.List.Forall2
import Rulebook.Proofs.Machine.Evolution
import Rulebook.Proofs.Renaming.Simulation
import Rulebook.Proofs.Table

/-! Machines whose counters are at a distance. Two machines are alike if one is the other renamed;
what they have printed may differ. Each operation takes machines that are alike to machines that are
alike, with results that match, however it ends. -/
namespace Rulebook
variable {π : Renaming}

namespace Naming

/-- No variable that is still to be minted has the name. -/
def Known (next : Int) (name : String) : Prop := ∀ id hint, next ≤ id → name ≠ (fresh id hint).key

theorem Known.mono {next later : Int} (le : next ≤ later) {name : String}
    (known : Known next name) : Known later name :=
  fun id hint bound => known id hint (Int.le_trans le bound)

theorem known_unmarked {name : String} (unmarked : '?' ∉ name.toList) (next : Int) :
    Known next name := by
  rintro id hint _ rfl
  rw [toList_fresh] at unmarked
  exact unmarked List.mem_cons_self

theorem known_fresh {id next : Int} (past : id < next) (hint : String) :
    Known next (fresh id hint).key := by
  intro other tail bound same
  have := (fresh_inj same).1
  omega

end Naming

theorem Term.Plain.known {term : Term} (plain : term.Plain) (next : Int) :
    term.Named (Naming.Known next) :=
  plain.imp fun _ fine => Naming.known_unmarked fine.1 next

/-- Outcomes of the same kind, with results and states that match; a fault is the same but for the
variables that it names. -/
inductive Corresponds {State α β : Type} (π : Renaming) (R : α → β → Prop)
    (St : State → State → Prop) : Except Fault α × State → Except Fault β × State → Prop where
  | ok {a : α} {b : β} {s t : State} : R a b → St s t → Corresponds π R St (.ok a, s) (.ok b, t)
  | error {fault : Fault} {s t : State} : St s t →
      Corresponds π R St (.error fault, s) (.error (fault.rename π), t)

section Sequencing
variable {State α β γ δ : Type} {St : State → State → Prop} {R : α → β → Prop} {Q : γ → δ → Prop}

theorem Corresponds.imp {R' : α → β → Prop} {St' : State → State → Prop}
    {x : Except Fault α × State} {y : Except Fault β × State} (same : Corresponds π R St x y)
    (results : ∀ a b, R a b → R' a b) (states : ∀ s t, St s t → St' s t) :
    Corresponds π R' St' x y := by
  cases same with
  | ok result state => exact .ok (results _ _ result) (states _ _ state)
  | error state => exact .error (states _ _ state)

/-- A fault that names no variable. -/
theorem Corresponds.refused {fault : Fault} (unnamed : fault.rename π = fault) {s t : State}
    (state : St s t) : Corresponds π R St (.error fault, s) (.error fault, t) := by
  have same : Corresponds π R St (.error fault, s) (.error (fault.rename π), t) := .error state
  rwa [unnamed] at same

theorem Corresponds.bind {first : ExceptT Fault (StateM State) α}
    {other : ExceptT Fault (StateM State) β} {next : α → ExceptT Fault (StateM State) γ}
    {then_ : β → ExceptT Fault (StateM State) δ} {s t : State}
    (start : Corresponds π R St (first.run s) (other.run t))
    (more : ∀ a b s t, R a b → St s t →
      Corresponds π Q St ((next a).run s) ((then_ b).run t)) :
    Corresponds π Q St ((first >>= next).run s) ((other >>= then_).run t) := by
  rw [run_bind, run_bind]
  generalize first.run s = here, other.run t = there at start
  cases start with
  | ok result state => exact more _ _ _ _ result state
  | error state => exact .error state

theorem Corresponds.map {first : ExceptT Fault (StateM State) α}
    {other : ExceptT Fault (StateM State) β} {f : α → γ} {g : β → δ} {s t : State}
    (same : Corresponds π R St (first.run s) (other.run t))
    (results : ∀ a b, R a b → Q (f a) (g b)) :
    Corresponds π Q St ((first >>= fun a => pure (f a)).run s)
      ((other >>= fun b => pure (g b)).run t) :=
  same.bind fun a b _ _ result state => .ok (results a b result) state

theorem Corresponds.forM {first : α → ExceptT Fault (StateM State) PUnit}
    {other : β → ExceptT Fault (StateM State) PUnit}
    (each : ∀ a b s t, R a b → St s t → Corresponds π Eq St ((first a).run s) ((other b).run t))
    {items : List α} {others : List β} (related : List.Forall₂ R items others) {s t : State}
    (state : St s t) :
    Corresponds π Eq St ((items.forM first).run s) ((others.forM other).run t) := by
  induction related generalizing s t with
  | nil => exact .ok rfl state
  | cons here _ ih =>
    change Corresponds π Eq St ((first _ >>= fun _ => List.forM _ first).run s)
      ((other _ >>= fun _ => List.forM _ other).run t)
    exact (each _ _ _ _ here state).bind fun _ _ s t _ state => ih state

/-- The same items in turn. -/
theorem Corresponds.forM_same {first other : α → ExceptT Fault (StateM State) PUnit} {items : List α}
    (each : ∀ a ∈ items, ∀ s t, St s t → Corresponds π Eq St ((first a).run s) ((other a).run t))
    {s t : State} (state : St s t) :
    Corresponds π Eq St ((items.forM first).run s) ((items.forM other).run t) := by
  have related : List.Forall₂ (fun a b => a = b ∧ a ∈ items) items items :=
    List.forall₂_same.mpr fun a inside => ⟨rfl, inside⟩
  exact Corresponds.forM (fun a b s t ⟨same, inside⟩ state => same ▸ each a inside s t state)
    related state

end Sequencing

inductive Entry.Matches (π : Renaming) : Entry → Entry → Prop where
  | claimed (key : String) (terms : List Term) : Matches π (.claimed key (terms.map Term.key))
      (.claimed key ((terms.map (Term.rename π)).map Term.key))
  | retracted (key : String) (terms : List Term) : Matches π (.retracted key (terms.map Term.key))
      (.retracted key ((terms.map (Term.rename π)).map Term.key))
  | performed (key payload : String) : Matches π (.performed key payload)
      (.performed key (π.payloads payload))

def Action.rename (π : Renaming) (action : Action) : Action :=
  { action with entries := action.entries.map fun entry => (entry.1, π.payloads entry.2) }

def Action.Plain (action : Action) : Prop :=
  ∀ entry ∈ action.entries, entry.1.Plain ∧ entry.1.source = none

def Line.Plain (line : Line) : Prop :=
  line.kind ≠ .comment → line.kind ≠ .plain → ∀ term ∈ line.phrase.args, term.Plain

instance Line.decidablePlain (line : Line) : Decidable line.Plain :=
  inferInstanceAs (Decidable
    (line.kind ≠ .comment → line.kind ≠ .plain → ∀ term ∈ line.phrase.args, term.Plain))

namespace Machine

/-- The machine with its counter at the distance and what it has minted renamed, beside another
history and other printed lines. -/
def rename (π : Renaming) (m : Machine) (history : List Entry) (printed : List String) : Machine :=
  { m with
    database := m.database.rename π
    nextId := m.nextId + π.distance
    actions := m.actions.mapped (.refl String) (Action.rename π)
    payloads := m.payloads.mapped π.payloads id
    history
    printed }

section
variable (m : Machine) (history : List Entry) (printed : List String)

theorem rename_declared (key : String) :
    (m.declared key).rename π history printed = (m.rename π history printed).declared key := by
  simp only [declared, rename, Database.declare_rename, Database.length_rename]

theorem rename_actions_put (key : String) (action : Action) :
    ({ m with actions := m.actions.put key action } : Machine).rename π history printed =
      let renamed := m.rename π history printed
      { renamed with actions := renamed.actions.put key (action.rename π) } := by
  rw [rename, Table.mapped_put]
  rfl

end

/-- The other machine is the one renamed, up to what has been printed. -/
inductive Alike (π : Renaming) (m : Machine) : Machine → Prop where
  | intro {history : List Entry} {printed : List String} :
      List.Forall₂ (Entry.Matches π) m.history history → Alike π m (m.rename π history printed)

/-- The names in what texts came to are plain, and facts hold no variable that is still to be
minted. -/
structure Tame (m : Machine) : Prop where
  rules : ∀ r, ∀ rule ∈ (m.database.relation r).rules, rule.Regular 1
  facts : ∀ r, ∀ fact ∈ (m.database.relation r).facts, ∀ term ∈ fact,
    term.Named (Naming.Known m.nextId)
  exclusions : ∀ key, ∀ exclusion ∈ (m.exclusions.get? key).getD [], exclusion.rule.Plain
  actions : ∀ key action, m.actions.get? key = some action → action.Plain
  payloads : ∀ id, ∀ line ∈ (m.payloads.get? id).getD [], line.Plain

/-- What operations keep of two machines, once so many ids are used up. -/
structure Twins (π : Renaming) (past : Int) (m n : Machine) : Prop where
  alike : Alike π m n
  tame : m.Tame
  past : past ≤ m.nextId

variable {past : Int} {m n : Machine}

theorem Tame.spend (tame : m.Tame) {id : Int} (le : m.nextId ≤ id) :
    ({ m with nextId := id } : Machine).Tame where
  rules := tame.rules
  facts r fact stored term inside := (tame.facts r fact stored term inside).imp fun _ => .mono le
  exclusions := tame.exclusions
  actions := tame.actions
  payloads := tame.payloads

/-- One relation gets other contents. -/
theorem Tame.replaced (tame : m.Tame) {r : RelationId} {relation : Relation}
    (rules : ∀ rule ∈ relation.rules, rule.Regular 1)
    (facts : ∀ fact ∈ relation.facts, ∀ term ∈ fact, term.Named (Naming.Known m.nextId)) :
    ({ m with database := m.database.set r relation } : Machine).Tame := by
  have other (s : RelationId) : (m.database.set r relation).relation s = relation ∨
      (m.database.set r relation).relation s = m.database.relation s := by
    by_cases declared : r < m.database.relations.length
    · rw [Database.relation_set declared]
      split
      · exact .inl rfl
      · exact .inr rfl
    · have same : m.database.relations.set r relation = m.database.relations :=
        List.set_eq_of_length_le (Nat.le_of_not_lt declared)
      rw [Database.set, same]
      exact .inr rfl
  refine ⟨fun s rule stored => ?_, fun s fact stored => ?_, tame.exclusions, tame.actions,
    tame.payloads⟩
  · rcases other s with same | same <;> rw [same] at stored
    · exact rules rule stored
    · exact tame.rules s rule stored
  · rcases other s with same | same <;> rw [same] at stored
    · exact facts fact stored
    · exact tame.facts s fact stored

theorem Tame.declared (tame : m.Tame) (key : String) : (m.declared key).Tame := by
  refine ⟨fun r rule stored => ?_, fun r fact stored => ?_, tame.exclusions, tame.actions,
    tame.payloads⟩ <;> rw [Machine.declared, Database.relation_declare] at stored <;>
    split at stored
  · cases stored
  · exact tame.rules r rule stored
  · cases stored
  · exact tame.facts r fact stored

theorem Tame.put (tame : m.Tame) {key : String} {action : Action} (plain : action.Plain) :
    ({ m with actions := m.actions.put key action } : Machine).Tame := by
  refine ⟨tame.rules, tame.facts, tame.exclusions, fun other found here => ?_, tame.payloads⟩
  rw [Table.get?_put] at here
  split at here
  · exact Option.some.inj here ▸ plain
  · exact tame.actions other found here

namespace Twins

theorem mono {earlier : Int} (le : earlier ≤ past) (twins : Twins π past m n) :
    Twins π earlier m n :=
  ⟨twins.alike, twins.tame, Int.le_trans le twins.past⟩

/-- All ids that are used up are past. -/
theorem present (twins : Twins π past m n) : Twins π m.nextId m n :=
  ⟨twins.alike, twins.tame, Int.le_refl _⟩

theorem renamed (twins : Twins π past m n) : n = m.rename π n.history n.printed := by
  obtain ⟨⟨_⟩, _, _⟩ := twins
  rfl

theorem nextId (twins : Twins π past m n) : n.nextId = m.nextId + π.distance := by
  rw [twins.renamed]
  rfl

theorem database (twins : Twins π past m n) : n.database = m.database.rename π := by
  rw [twins.renamed]
  rfl

theorem exclusions (twins : Twins π past m n) : n.exclusions = m.exclusions := by
  rw [twins.renamed]
  rfl

theorem strict (twins : Twins π past m n) : n.strict = m.strict := by
  rw [twins.renamed]
  rfl

theorem callbacks (twins : Twins π past m n) : n.callbacks = m.callbacks := by
  rw [twins.renamed]
  rfl

theorem running (twins : Twins π past m n) : n.running = m.running := by
  rw [twins.renamed]
  rfl

theorem payload (twins : Twins π past m n) (key : String) :
    n.payloads.get? (π.payloads key) = m.payloads.get? key := by
  have payloads : n.payloads = m.payloads.mapped π.payloads id := by
    rw [twins.renamed]
    rfl
  rw [payloads, Table.get?_mapped, Option.map_id, id]

theorem history (twins : Twins π past m n) :
    List.Forall₂ (Entry.Matches π) m.history n.history := by
  obtain ⟨⟨happened⟩, _, _⟩ := twins
  exact happened

theorem spend (twins : Twins π past m n) {id : Int} (le : m.nextId ≤ id) :
    Twins π past { m with nextId := id } { n with nextId := id + π.distance } := by
  obtain ⟨⟨history⟩, tame, bound⟩ := twins
  exact ⟨.intro history, tame.spend le, Int.le_trans bound le⟩

theorem logged (twins : Twins π past m n) (message other : String) :
    Twins π past (m.logged message) (n.logged other) := by
  obtain ⟨⟨history⟩, tame, bound⟩ := twins
  exact ⟨.intro history, ⟨tame.rules, tame.facts, tame.exclusions, tame.actions, tame.payloads⟩,
    bound⟩

theorem recorded (twins : Twins π past m n) {entry other : Entry}
    (same : entry.Matches π other) :
    Twins π past { m with history := m.history ++ [entry] }
      { n with history := n.history ++ [other] } := by
  obtain ⟨⟨history⟩, tame, bound⟩ := twins
  exact ⟨.intro (List.rel_append history (.cons same .nil)),
    ⟨tame.rules, tame.facts, tame.exclusions, tame.actions, tame.payloads⟩, bound⟩

theorem replaced (twins : Twins π past m n) {r : RelationId} {relation : Relation}
    (rules : ∀ rule ∈ relation.rules, rule.Regular 1)
    (facts : ∀ fact ∈ relation.facts, ∀ term ∈ fact, term.Named (Naming.Known m.nextId)) :
    Twins π past { m with database := m.database.set r relation }
      { n with database := n.database.set r (relation.rename π) } := by
  obtain ⟨⟨history⟩, tame, bound⟩ := twins
  refine ⟨?_, tame.replaced rules facts, bound⟩
  rw [rename, ← Database.set_rename]
  exact .intro history

end Twins

section Operations
variable (twins : Twins π past m n)
include twins

theorem corresponds_log (message other : String) :
    Corresponds π Eq (Twins π past) ((log message).run m) ((log other).run n) := by
  rw [run_log, run_log]
  exact .ok rfl (twins.logged message other)

theorem corresponds_record {entry other : Entry} (same : entry.Matches π other) :
    Corresponds π Eq (Twins π past) ((record entry).run m) ((record other).run n) := by
  rw [run_record, run_record]
  exact .ok rfl (twins.recorded same)

theorem corresponds_relationFor (key : String) (create : Bool) :
    Corresponds π Eq (Twins π past) ((relationFor key create).run m)
      ((relationFor key create).run n) := by
  rw [run_relationFor, run_relationFor]
  obtain ⟨@⟨history, printed, happened⟩, tame, bound⟩ := twins
  rw [show (m.rename π history printed).relations.get? key = m.relations.get? key from rfl]
  cases m.relations.get? key with
  | some r => exact .ok rfl ⟨.intro happened, tame, bound⟩
  | none =>
    cases create with
    | false => exact .refused rfl ⟨.intro happened, tame, bound⟩
    | true =>
      refine .ok (m.database.length_rename π).symm ⟨?_, tame.declared key, bound⟩
      rw [← rename_declared]
      exact .intro happened

theorem corresponds_actionFor (key : String) (create : Bool) :
    Corresponds π (fun action other => other = action.rename π ∧ action.Plain) (Twins π past)
      ((actionFor key create).run m) ((actionFor key create).run n) := by
  rw [run_actionFor, run_actionFor]
  obtain ⟨@⟨history, printed, happened⟩, tame, bound⟩ := twins
  rw [show (m.rename π history printed).actions.get? key = _ from
    m.actions.get?_mapped (.refl String) (Action.rename π) key]
  cases found : m.actions.get? key with
  | some action => exact .ok ⟨rfl, tame.actions key action found⟩ ⟨⟨happened⟩, tame, bound⟩
  | none =>
    cases create with
    | false => exact .refused rfl ⟨⟨happened⟩, tame, bound⟩
    | true =>
      have plain : ({ name := key } : Action).Plain := nofun
      refine .ok ⟨rfl, plain⟩ ⟨?_, tame.put plain, bound⟩
      have same := m.rename_actions_put (π := π) history printed key { name := key }
      exact same ▸ .intro happened

end Operations

end Machine
end Rulebook
