import Rulebook.Proofs.Cycle
import Rulebook.Proofs.Database
import Rulebook.Proofs.Machine.Operation
import Rulebook.Workbench

/-! The guard against recursion, over any relations, also over such as depend on themselves already.
Its walk comes to an end in one way only, and finds a path just if the rule leads back to its
relation. A rule that is refused leaves no trace. -/
namespace Rulebook

namespace Database
variable {db : Database} {target : RelationId}

/-- A walk has one outcome. -/
theorem Walks.unique {path starts seen : List RelationId} {one other : Walk}
    (first : Walks db target path starts seen one)
    (second : Walks db target path starts seen other) : one = other := by
  induction first generalizing other with
  | ended =>
    cases second
    rfl
  | arrives =>
    cases second with
    | arrives => rfl
    | passes apart => exact absurd rfl apart
    | leads apart => exact absurd rfl apart
    | returns apart => exact absurd rfl apart
  | passes apart old _ ih =>
    cases second with
    | arrives => exact absurd rfl apart
    | passes _ _ rest => exact ih rest
    | leads _ new => exact absurd old new
    | returns _ new => exact absurd old new
  | leads apart new _ ih =>
    cases second with
    | arrives => exact absurd rfl apart
    | passes _ old => exact absurd old new
    | leads _ _ below => exact ih below
    | returns _ _ below => cases ih below
  | returns apart new _ _ below later =>
    cases second with
    | arrives => exact absurd rfl apart
    | passes _ old => exact absurd old new
    | leads _ _ found => cases below found
    | returns _ _ missed rest =>
      cases below missed
      exact later rest

theorem LeadsBack.reaches {starts inner : List RelationId}
    (leads : LeadsBack db target starts inner) :
    ∃ c ∈ starts, Relation.ReflTransGen db.Depends c target := by
  obtain ⟨c, inside, head⟩ := leads.start
  refine ⟨c, inside, ?_⟩
  cases inner with
  | nil =>
    cases head
    exact .refl
  | cons next inner =>
    cases head
    exact (reaches_of_chain leads.chain).to_reflTransGen

/-- What the search for a cycle tells. The walk ends, in the one outcome that is reported; there is
none if nothing that the rule asks leads back, and else a way back from what the rule asks. -/
structure TellsCycles (db : Database) (target : RelationId) (rule : Rule) : Prop where
  ends : ∃ outcome, (∀ other, Walks db target [target] rule.relations [] other ↔ other = outcome) ∧
    db.findCycle target rule = outcome.path?
  none_iff : db.findCycle target rule = none ↔
    ¬∃ c ∈ rule.relations, Relation.ReflTransGen db.Depends c target
  path : ∀ path, db.findCycle target rule = some path →
    ∃ inner, path = target :: (inner ++ [target]) ∧ LeadsBack db target rule.relations inner

theorem tellsCycles (db : Database) (target : RelationId) (rule : Rule) :
    db.TellsCycles target rule where
  ends := by
    obtain ⟨outcome, walks, same⟩ := walks_findCycle db target rule
    refine ⟨outcome, fun other => ⟨fun again => again.unique walks, ?_⟩, same⟩
    rintro rfl
    exact walks
  none_iff := by
    constructor
    · rintro none ⟨c, asked, reaches⟩
      exact not_reaches_of_findCycle none asked reaches
    · intro apart
      by_contra found
      obtain ⟨path, found⟩ := Option.ne_none_iff_exists'.mp found
      obtain ⟨inner, _, leads⟩ := leadsBack_of_findCycle found
      exact apart leads.reaches
  path _ found := leadsBack_of_findCycle found

/-- A rule past the guard makes no relation depend on itself. -/
theorem not_reaches_of_addRule {next : Database} {r : RelationId} {rule : Rule}
    (acyclic : ∀ s, ¬Relation.TransGen db.Depends s s) (declared : r < db.relations.length)
    (added : db.addRule r rule = .ok next) (s : RelationId) :
    ¬Relation.TransGen next.Depends s s := by
  obtain ⟨guarded, _⟩ := addRule_ok added
  obtain ⟨rank, ranks⟩ := exists_ranks acyclic
  have depends (x c : RelationId) (edge : next.Depends x c) :
      db.Depends x c ∨ x = r ∧ c ∈ rule.relations := by
    obtain ⟨other, stored, asked⟩ := List.mem_flatMap.mp edge
    rcases (mem_addRule declared added).mp stored with old | ⟨here, rfl⟩
    · exact .inl (List.mem_flatMap.mpr ⟨other, old, asked⟩)
    · exact .inr ⟨here, asked⟩
  obtain ⟨raised, higher⟩ := ranks_of_asked ranks
    (fun c asked => not_reaches_of_findCycle guarded asked) depends
  exact fun cycle => Nat.lt_irrefl _ (higher.lt_of_reaches cycle)

end Database

namespace Workbench
variable {w : Workbench} {relation name : String} {r : RelationId} {id : RuleId}

theorem run_held {table : Table α} {value : α} (found : table.get? name = some value)
    (w : Workbench) : (held table name).run w = (.ok value, w) := by
  rw [held, found]
  rfl

/-- A rule is put into the database, and its place is noted; or nothing happens. -/
theorem run_addRule (known : w.relations.get? relation = some r)
    (made : w.rules.get? name = some id) :
    (addRule relation name).run w =
      match w.database.addRule r (w.ruleAt id) with
      | .error fault => (.error fault, w)
      | .ok database =>
        (.ok (database.relation r).rules.length,
          { w with
            database
            uses := w.uses ++ [(id, r, (w.database.relation r).rules.length)] }) := by
  have first : (relationId relation).run w = (.ok r, w) :=
    (run_bind_ok (run_get w)).trans (run_held known w)
  have second : (ruleId name).run w = (.ok id, w) :=
    (run_bind_ok (run_get w)).trans (run_held made w)
  rw [addRule, run_bind_ok first, run_bind_ok second, run_bind_ok (run_get w)]
  dsimp only
  cases w.database.addRule r (w.ruleAt id) <;> rfl

/-- What comes of adding a rule to a relation. It fails on a cycle, and where there is none, on the
number of parameters; then the workbench is as it was. Or the rule comes last in its relation and
fixes the number of arguments. -/
structure Guarded (w : Workbench) (r : RelationId) (rule : Rule) (outcome : Except Fault Nat)
    (after : Workbench) : Prop where
  recursive : (∃ names, outcome = .error (.recursiveRule names)) ↔
    ∃ path, w.database.findCycle r rule = some path
  named : ∀ path, w.database.findCycle r rule = some path →
    outcome = .error (.recursiveRule (path.map w.database.nameOf))
  misfit : (∃ what given name takes, outcome = .error (.arity what given name takes)) ↔
    w.database.findCycle r rule = none ∧
      ∃ takes, (w.database.relation r).arity = some takes ∧ rule.params.length ≠ takes
  reason : ∀ fault, outcome = .error fault →
    (∃ names, fault = .recursiveRule names) ∨
      ∃ given name takes, fault = .arity .rule given name takes
  untouched : ∀ fault, outcome = .error fault → after = w
  added : ∀ count, outcome = .ok count →
    after.database.relation r = { w.database.relation r with
      arity := some rule.params.length
      rules := (w.database.relation r).rules ++ [rule] } ∧
    count = (w.database.relation r).rules.length + 1 ∧
    (∀ s ≠ r, after.database.relation s = w.database.relation s) ∧
    ((∀ s, ¬Relation.TransGen w.database.Depends s s) →
      ∀ s, ¬Relation.TransGen after.database.Depends s s)

/-- A refused rule is refused for one of two reasons, and nothing is changed. -/
theorem guarded_error {rule : Rule} {fault : Fault}
    (refused : w.database.addRule r rule = .error fault) : w.Guarded r rule (.error fault) w := by
  have kept (other : Fault) (_ : Except.error (ε := Fault) (α := Nat) fault = .error other) :
      w = w := rfl
  rcases Database.addRule_error refused with ⟨path, found, rfl⟩ | ⟨none, takes, fixed, differ, rfl⟩
  · refine ⟨⟨fun _ => ⟨path, found⟩, fun _ => ⟨_, rfl⟩⟩, fun other again => ?_, ⟨?_, ?_⟩, ?_, kept,
      nofun⟩
    · rw [Option.some.inj (found.symm.trans again)]
    · rintro ⟨_, _, _, _, same⟩
      cases same
    · rintro ⟨none, _⟩
      cases found.symm.trans none
    · rintro _ ⟨⟩
      exact .inl ⟨_, rfl⟩
  · refine ⟨⟨?_, ?_⟩, fun other found => ?_, ⟨fun _ => ⟨none, takes, fixed, differ⟩,
      fun _ => ⟨_, _, _, _, rfl⟩⟩, ?_, kept, nofun⟩
    · rintro ⟨_, same⟩
      cases same
    · rintro ⟨_, found⟩
      cases none.symm.trans found
    · cases none.symm.trans found
    · rintro _ ⟨⟩
      exact .inr ⟨_, _, _, rfl⟩

/-- A rule that is taken comes last, and changes no other relation. -/
theorem guarded_ok {rule : Rule} {next : Database} (declared : r < w.database.relations.length)
    (added : w.database.addRule r rule = .ok next) {after : Workbench}
    (here : after.database = next) :
    w.Guarded r rule (.ok (next.relation r).rules.length) after := by
  obtain ⟨none, arity, same⟩ := Database.addRule_ok added
  refine ⟨⟨nofun, ?_⟩, fun path found => ?_, ⟨nofun, ?_⟩, nofun, nofun, fun count counted => ?_⟩
  · rintro ⟨path, found⟩
    cases none.symm.trans found
  · cases none.symm.trans found
  · rintro ⟨_, takes, fixed, differ⟩
    rcases arity with free | fits
    · cases free.symm.trans fixed
    · exact absurd (Option.some.inj (fits.symm.trans fixed)) differ
  · rw [here]
    have relation : next.relation r = { w.database.relation r with
        arity := some rule.params.length
        rules := (w.database.relation r).rules ++ [rule] } := by
      rw [same, Database.relation_set declared, if_pos rfl]
    refine ⟨relation, ?_, fun s other => ?_, fun acyclic s => ?_⟩
    · cases counted
      rw [relation, List.length_append, List.length_singleton]
    · rw [same, Database.relation_set_other other]
    · exact Database.not_reaches_of_addRule acyclic declared added s

/-- Over any relations, the search for a cycle is exact, and a rule is added whole or not at all. -/
theorem addRule_guarded (known : w.relations.get? relation = some r)
    (made : w.rules.get? name = some id) (declared : r < w.database.relations.length) :
    w.database.TellsCycles r (w.ruleAt id) ∧
      w.Guarded r (w.ruleAt id) ((addRule relation name).run w).1
        ((addRule relation name).run w).2 := by
  refine ⟨Database.tellsCycles _ _ _, ?_⟩
  rw [run_addRule known made]
  cases outcome : w.database.addRule r (w.ruleAt id) with
  | error fault => exact guarded_error outcome
  | ok next => exact guarded_ok declared outcome rfl

/-- A ring of relations: the rule of `b` asked nothing yet when it was added. -/
def tangled : Workbench :=
  ((do
    makeRelation "a"
    makeRelation "b"
    makeRelation "c"
    let _ ← makeRule "twice" [.var "x"] [("b", [.var "x"]), ("b", [.var "y"])] none
    let _ ← makeRule "later" [.var "x"] [] none
    let _ ← makeRule "back" [.var "x"] [("a", [.var "x"])] none
    let _ ← addRule "a" "twice"
    let _ ← addRule "b" "later"
    let _ ← addCondition "later" "b" [.var "x"]
    let _ ← addCondition "later" "a" [.var "x"]
    let _ ← addCondition "later" "c" [.var "x"] : WorkbenchM Unit).run {}).2

/-- The walk gets through the ring, and finds the way out of it that leads back. -/
theorem addRule_guarded_tangled :
    tangled.relations.get? "c" = some 2 ∧ tangled.rules.get? "back" = some 2 ∧
      2 < tangled.database.relations.length ∧ tangled.database.Depends 1 1 ∧
      tangled.database.TellsCycles 2 (tangled.ruleAt 2) ∧
      (addRule "c" "back").run tangled =
        (.error (.recursiveRule ["c", "a", "b", "c"]), tangled) := by
  have known : tangled.relations.get? "c" = some 2 := by decide +kernel
  have made : tangled.rules.get? "back" = some 2 := by decide +kernel
  have declared : 2 < tangled.database.relations.length := by decide +kernel
  have ring : tangled.database.Depends 1 1 := by
    unfold Database.Depends
    decide +kernel
  obtain ⟨tells, guarded⟩ := addRule_guarded known made declared
  have refused := guarded.named [2, 0, 1, 2] (by decide +kernel)
  exact ⟨known, made, declared, ring, tells, Prod.ext refused (guarded.untouched _ refused)⟩

end Workbench
end Rulebook
