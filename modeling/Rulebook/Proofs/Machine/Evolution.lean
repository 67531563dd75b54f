import Rulebook.Proofs.Machine.Loading
import Rulebook.Proofs.Program.Sites

/-! Every operation is a sequence of changes, however it ends. The parts of an operation that come
after a failure are not run, so it is enough to follow each part that succeeds. -/
namespace Rulebook

section Sequencing
variable {State α β : Type} {R : State → State → Prop}

/-- A relation that holds over each part of a sequence holds over the sequence. -/
theorem bind_related (trans : ∀ {a b c}, R a b → R b c → R a c)
    {first : ExceptT Fault (StateM State) α} {next : α → ExceptT Fault (StateM State) β} {s : State}
    (start : R s (first.run s).2)
    (more : ∀ a t, first.run s = (.ok a, t) → R t ((next a).run t).2) :
    R s ((first >>= next).run s).2 := by
  rw [run_bind]
  split
  · rename_i a t same
    rw [same] at start
    exact trans start (more a t same)
  · rename_i fault t same
    rwa [same] at start

/-- A relation that holds over each operation holds over all in turn. -/
theorem forM_related (refl : ∀ a, R a a) (trans : ∀ {a b c}, R a b → R b c → R a c)
    {operation : β → ExceptT Fault (StateM State) PUnit}
    (each : ∀ b s, R s ((operation b).run s).2) (items : List β) (s : State) :
    R s ((items.forM operation).run s).2 := by
  induction items generalizing s with
  | nil => exact refl s
  | cons b items ih =>
    change R s ((operation b >>= fun _ => items.forM operation).run s).2
    exact bind_related (R := R) trans (each b s) fun _ t _ => ih t

end Sequencing

namespace Machine
variable {m n : Machine}

theorem works_bind {first : MachineM α} {next : α → MachineM β}
    (start : Works m (first.run m).2)
    (more : ∀ a n, first.run m = (.ok a, n) → Works n ((next a).run n).2) :
    Works m ((first >>= next).run m).2 :=
  bind_related Relation.ReflTransGen.trans start more

theorem Change.kept (change : Change m n) {key : String} {r : RelationId}
    (found : m.relations.get? key = some r) : n.relations.get? key = some r := by
  cases change with
  | declare new => exact get?_declared_kept new found
  | _ => exact found

/-- A declared relation keeps its place. -/
theorem Evolves.kept (evolves : Evolves m n) {key : String} {r : RelationId}
    (found : m.relations.get? key = some r) : n.relations.get? key = some r := by
  induction evolves with
  | refl => exact found
  | tail _ last ih => exact last.kept ih

theorem Change.strict (change : Change m n) : n.strict = m.strict := by
  cases change <;> rfl

/-- A machine stays as strict as it is. -/
theorem Evolves.strict (evolves : Evolves m n) : n.strict = m.strict := by
  induction evolves with
  | refl => rfl
  | tail _ last ih => exact last.strict.trans ih

/-- Ids are used up in order. -/
theorem Change.nextId_le (change : Change m n) : m.nextId ≤ n.nextId := by
  cases change with
  | spend le => exact le
  | payload =>
    dsimp only
    omega
  | _ => exact Int.le_refl _

theorem Evolves.nextId_le (evolves : Evolves m n) : m.nextId ≤ n.nextId := by
  induction evolves with
  | refl => exact Int.le_refl _
  | tail _ last ih => exact Int.le_trans ih last.nextId_le

theorem works_forM {operation : β → MachineM PUnit} {key : String} {r : RelationId}
    (one : ∀ b n, n.relations.get? key = some r → Works n ((operation b).run n).2)
    (found : m.relations.get? key = some r) (items : List β) :
    Works m ((items.forM operation).run m).2 := by
  induction items generalizing m with
  | nil => exact .refl
  | cons b items ih =>
    refine works_bind (one b m found) fun _ n run => ih ?_
    have first := one b m found
    rw [run] at first
    exact first.evolves.kept found

theorem works_logged (m : Machine) (message : String) : Works m (m.logged message) :=
  .single ⟨.print, rfl⟩

theorem works_retracted {key : String} {r : RelationId} (found : m.relations.get? key = some r)
    (fact : List Term) : Works m (m.retracted r fact) := by
  rw [retracted, Database.nameOf_removeFact]
  exact .tail (works_logged m _) ⟨.retract found, rfl⟩

theorem works_asserted {key : String} {r : RelationId} {fact : List Term} {db : Database}
    (found : m.relations.get? key = some r) (added : m.database.addFact r fact = .ok db) :
    Works m (m.asserted key fact db) :=
  .tail (works_logged m _) ⟨.assert found added, rfl⟩

theorem works_relationFor (key : String) (create : Bool) (m : Machine) :
    Works m ((relationFor key create).run m).2 := by
  rw [run_relationFor]
  cases found : m.relations.get? key with
  | some r => exact .refl
  | none =>
    cases create with
    | true => exact .single ⟨.declare found, rfl⟩
    | false => exact .refl

theorem relationFor_ok {key : String} {create : Bool} {r : RelationId}
    (run : (relationFor key create).run m = (.ok r, n)) :
    Works m n ∧ n.relations.get? key = some r := by
  rcases relationFor_cases run with ⟨found, rfl⟩ | ⟨new, rfl, rfl⟩
  · exact ⟨.refl, found⟩
  · exact ⟨.single ⟨.declare new, rfl⟩, get?_declared m key⟩

theorem works_actionFor (key : String) (create : Bool) (m : Machine) :
    Works m ((actionFor key create).run m).2 := by
  rw [run_actionFor]
  cases found : m.actions.get? key with
  | some action => exact .refl
  | none =>
    cases create with
    | true => exact .single ⟨.action found, rfl⟩
    | false => exact .refl

/-- Registering a callback adds to the callbacks, and changes nothing else. -/
theorem run_addCallback (name : String) (m : Machine) :
    ∃ callbacks, m.callbacks ⊆ callbacks ∧
      (addCallback name).run m = (.ok ⟨⟩, { m with callbacks }) := by
  rw [addCallback, run_modify]
  split
  · exact ⟨m.callbacks, List.Subset.refl _, rfl⟩
  · exact ⟨m.callbacks ++ [name], List.subset_append_left _ _, rfl⟩

theorem works_addCallback (name : String) (m : Machine) :
    Works m ((addCallback name).run m).2 := by
  obtain ⟨_, _, run⟩ := run_addCallback name m
  rw [run]
  exact .single ⟨.register, rfl⟩

theorem works_spend (m : Machine) {id : Int} (le : m.nextId ≤ id) :
    Works m { m with nextId := id } :=
  .single ⟨.spend le, rfl⟩

/-- The operation uses up ids and does nothing else. -/
def Spends (operation : MachineM α) : Prop :=
  ∀ m, ∃ id, m.nextId ≤ id ∧ (operation.run m).2 = { m with nextId := id }

section Searching

theorem Spends.works {operation : MachineM α} (spends : Spends operation) (m : Machine) :
    Works m (operation.run m).2 := by
  obtain ⟨id, le, same⟩ := spends m
  rw [same]
  exact works_spend m le

theorem spends_pure (a : α) : Spends (pure a) := fun m => ⟨m.nextId, Int.le_refl _, rfl⟩

theorem Spends.bind {first : MachineM α} {next : α → MachineM β} (start : Spends first)
    (more : ∀ a, Spends (next a)) : Spends (first >>= next) := by
  intro m
  obtain ⟨id, le, same⟩ := start m
  rw [run_bind]
  match run : first.run m with
  | (.error fault, n) =>
    rw [run] at same
    exact ⟨id, le, same⟩
  | (.ok a, n) =>
    rw [run] at same
    obtain ⟨last, after, whole⟩ := more a n
    dsimp only at same whole ⊢
    subst same
    exact ⟨last, Int.le_trans le after, whole⟩

theorem spends_relationFor (key : String) : Spends (relationFor key false) := by
  intro m
  rw [run_relationFor]
  refine ⟨m.nextId, Int.le_refl _, ?_⟩
  split <;> rfl

theorem spends_harvest (wanted : Option Nat) (search : Search) :
    Spends (harvest wanted search) := by
  intro m
  rw [run_harvest]
  exact ⟨_, (Search.harvest_before wanted search ⟨[m.nextId], []⟩).2 source, rfl⟩

theorem spends_answers (goal : Goal) : Spends (answers goal) :=
  (spends_harvest none _).bind fun _ => spends_pure _

theorem spends_firstAnswer (goal : Goal) : Spends (firstAnswer goal) :=
  (spends_harvest (some 1) _).bind fun _ => spends_pure _

theorem spends_goalOf (question : Phrase) : Spends (goalOf question) :=
  (spends_relationFor question.key).bind fun _ => spends_pure _

theorem spends_isTrue (question : Phrase) : Spends (isTrue question) :=
  (spends_goalOf question).bind fun goal => (spends_firstAnswer goal).bind fun _ => spends_pure _

theorem spends_values (question : Phrase) : Spends (values question) :=
  (spends_goalOf question).bind fun goal => (spends_firstAnswer goal).bind fun _ => spends_pure _

theorem spends_ask (question : Phrase) : Spends (ask question) :=
  (spends_goalOf question).bind fun _ => spends_pure _

theorem spends_pull (wanted : Option Nat) (cursor : Cursor) : Spends (pull wanted cursor) :=
  (spends_harvest wanted cursor.search).bind fun _ => spends_pure _

theorem spends_solutions (question : Phrase) (limit : Option Int) :
    Spends (solutions question limit) := by
  refine (spends_ask question).bind fun cursor => ?_
  cases limit with
  | none => exact (spends_pull none cursor).bind fun _ => spends_pure _
  | some limit =>
    refine Spends.bind (fun m => ⟨m.nextId, Int.le_refl _, ?_⟩) fun wanted =>
      (spends_pull (some wanted) cursor).bind fun _ => spends_pure _
    cases Search.wantedOf limit <;> rfl

end Searching

section Claiming

theorem le_masked (id : Int) (terms : List Term) (flags : List Bool) :
    id ≤ (masked id terms flags).2 := by
  fun_induction masked id terms flags with
  | case1 id term terms flags args next below ih =>
    rwa [below] at ih
  | case2 id term terms flags args next below ih =>
    rw [below] at ih
    dsimp only at ih ⊢
    omega
  | case3 => exact Int.le_refl _

theorem works_exclude {key : String} {r : RelationId} (terms : List Term) (exclusion : Exclusion)
    (m : Machine) (found : m.relations.get? key = some r) :
    Works m ((exclude r terms exclusion).run m).2 := by
  refine works_bind ?_ fun args n run => ?_
  · rw [run_exclusionArgs]
    exact .single ⟨.spend (le_masked m.nextId terms exclusion.bound), rfl⟩
  have first : n.relations.get? key = some r := by
    rw [run_exclusionArgs] at run
    cases run
    exact found
  apply works_bind .refl
  intro k m run
  cases run
  have second := (spends_answers
    (.all [exclusion.rule.goal args "", (n.database.relation r).factsGoal args])).works n
  apply works_bind second
  intro found m run
  rw [run] at second
  refine works_forM (fun fact m found => ?_) (second.evolves.kept first) _
  rw [run_retract]
  exact works_retracted found fact

theorem works_assert (key : String) (terms : List Term) (create : Bool) (m : Machine) :
    Works m ((assert key terms create).run m).2 := by
  rw [run_assert]
  split
  · rename_i fault n run
    have first := works_relationFor key create m
    rwa [run] at first
  rename_i r n run
  obtain ⟨first, found⟩ := relationFor_ok run
  have group := works_forM
    (fun exclusion m found => works_exclude terms exclusion m found) found
    ((n.exclusions.get? key).getD [])
  split
  · rename_i fault k more
    rw [more] at group
    exact first.trans group
  rename_i _ k more
  rw [more] at group
  split
  · exact first.trans group
  · rename_i db added
    exact (first.trans group).trans (works_asserted (group.evolves.kept found) added)

theorem works_claim (fact : Phrase) (m : Machine) : Works m ((claim fact).run m).2 := by
  apply works_bind .refl
  intro k n run
  cases run
  exact works_assert fact.key fact.args _ m

/-- What a machine has been told to do, whatever its relations hold. -/
structure Program where
  verbose : Bool
  strict : Bool
  actions : Table Action
  payloads : Table (List Line)
  exclusions : Table (List Exclusion)
  callbacks : List String
  running : List String

def program (m : Machine) : Program :=
  ⟨m.verbose, m.strict, m.actions, m.payloads, m.exclusions, m.callbacks, m.running⟩

def SameProgram (m n : Machine) : Prop := n.program = m.program

theorem SameProgram.trans {k : Machine} (first : SameProgram m n) (second : SameProgram n k) :
    SameProgram m k :=
  Eq.trans second first

theorem sameProgram_relationFor (key : String) (create : Bool) (m : Machine) :
    SameProgram m ((relationFor key create).run m).2 := by
  rw [run_relationFor]
  split
  · rfl
  · split <;> rfl

/-- What holds where ids are used up and where a fact is taken back holds over an exclusion. -/
theorem related_exclude {R : Machine → Machine → Prop} (refl : ∀ m, R m m)
    (trans : ∀ {m n k}, R m n → R n k → R m k) (spent : ∀ m id, R m { m with nextId := id })
    (gone : ∀ m r fact, R m (m.retracted r fact)) (r : RelationId) (terms : List Term)
    (exclusion : Exclusion) (m : Machine) : R m ((exclude r terms exclusion).run m).2 := by
  refine bind_related (R := R) trans ?_ fun args n _ => ?_
  · rw [run_exclusionArgs]
    exact spent m _
  refine bind_related (R := R) trans (refl n) fun k n _ => ?_
  refine bind_related (R := R) trans ?_ fun found n _ => ?_
  · refine bind_related (R := R) trans ?_ fun _ n _ => refl n
    rw [run_harvest]
    exact spent n _
  · refine forM_related refl trans (fun fact m => ?_) _ n
    rw [run_retract]
    exact gone m r fact

theorem sameProgram_exclude (r : RelationId) (terms : List Term) (exclusion : Exclusion)
    (m : Machine) : SameProgram m ((exclude r terms exclusion).run m).2 :=
  related_exclude (R := SameProgram) (fun _ => rfl) SameProgram.trans (fun _ _ => rfl)
    (fun _ _ _ => rfl) r terms exclusion m

theorem sameProgram_assert (key : String) (terms : List Term) (create : Bool) (m : Machine) :
    SameProgram m ((assert key terms create).run m).2 := by
  have excluded (r : RelationId) (group : List Exclusion) (m : Machine) :
      SameProgram m ((group.forM (exclude r terms)).run m).2 :=
    forM_related (R := SameProgram) (fun _ => rfl) SameProgram.trans (sameProgram_exclude r terms)
      group m
  have found := sameProgram_relationFor key create m
  rw [run_assert]
  split
  · rename_i first
    rwa [first] at found
  rename_i r n first
  rw [first] at found
  have group := excluded r ((n.exclusions.get? key).getD []) n
  split
  · rename_i second
    rw [second] at group
    exact found.trans group
  · rename_i second
    rw [second] at group
    split <;> exact found.trans group

def SameKeys (m n : Machine) : Prop := n.relations = m.relations

theorem SameKeys.trans {k : Machine} (first : SameKeys m n) (second : SameKeys n k) :
    SameKeys m k :=
  Eq.trans second first

/-- A fact that is asserted under a declared key brings no key. -/
theorem sameKeys_assert (key : String) (terms : List Term) (m : Machine) :
    SameKeys m ((assert key terms false).run m).2 := by
  have group (r : RelationId) (group : List Exclusion) (m : Machine) :
      SameKeys m ((group.forM (exclude r terms)).run m).2 :=
    forM_related (R := SameKeys) (fun _ => rfl) SameKeys.trans
      (related_exclude (R := SameKeys) (fun _ => rfl) SameKeys.trans (fun _ _ => rfl)
        (fun _ _ _ => rfl) r terms) group m
  rw [run_assert, run_relationFor]
  cases m.relations.get? key with
  | none => rfl
  | some r =>
    have excluded := group r ((m.exclusions.get? key).getD []) m
    dsimp only
    split
    · rename_i second
      rwa [second] at excluded
    · rename_i second
      rw [second] at excluded
      split <;> exact excluded

end Claiming

section Loading

theorem works_loadRule (above : List Line) (line : Line) (m : Machine) :
    Works m ((loadRule above line).run m).2 := by
  obtain ⟨r, rule, n, declares, found, compiled, run⟩ := run_loadRule above line m
  rw [run]
  split
  · exact declares.works
  · rename_i db added
    have ruled := Relation.ReflTransGen.tail declares.works
      ⟨.rule found compiled.source compiled.knows added, rfl⟩
    exact ruled.trans (works_logged _ _)

theorem works_loadExclusion (above : List Line) (line : Line) (m : Machine) :
    Works m ((loadExclusion above line).run m).2 := by
  obtain ⟨exclusion, n, declares, admits, _, _, run⟩ := run_loadExclusion above line m
  rw [run]
  exact (Relation.ReflTransGen.tail declares.works ⟨.exclusion admits, rfl⟩).trans (works_logged _ _)

theorem actionFor_ok {key : String} {create : Bool} {action : Action}
    (run : (actionFor key create).run m = (.ok action, n)) :
    Works m n ∧ n.actions.get? key = some action := by
  have works := works_actionFor key create m
  rw [run] at works
  refine ⟨works, ?_⟩
  rw [run_actionFor] at run
  split at run
  · rename_i found
    cases run
    exact found
  · split at run
    · cases run
      rw [Table.get?_put, if_pos rfl]
    · cases run

theorem works_loadAction (above : List Line) {line : Line} (kind : line.kind = .action)
    (payload : List Line) (m : Machine) : Works m ((loadAction above line payload).run m).2 := by
  obtain ⟨action, rule, middle, n, last, first, declares, compiled, more, run, _⟩ :=
    run_loadAction above line payload m
  rw [run]
  obtain ⟨works, found⟩ := actionFor_ok first
  have still : n.actions.get? line.phrase.key = some action := by rwa [declares.same]
  have paid : Works n (n.paying line.phrase.key action rule payload) :=
    .single ⟨.payload kind still compiled, rfl⟩
  have started := (works.trans declares.works).trans paid
  exact (started.trans (works_logged _ _)).trans more.works

theorem works_loadSite (site : Site) (m : Machine) : Works m ((loadSite site).run m).2 := by
  unfold loadSite
  split
  · rename_i action
    exact works_loadAction site.above action site.payload m
  · split
    · exact works_assert _ _ true m
    · exact works_loadRule site.above site.line m
  · exact works_loadExclusion site.above site.line m
  · exact .refl

theorem works_loadSites (sites : List Site) (m : Machine) :
    Works m ((sites.forM loadSite).run m).2 :=
  forM_related (fun _ => .refl) Relation.ReflTransGen.trans works_loadSite sites m

theorem works_load (text : String) (m : Machine) : Works m ((load text).run m).2 := by
  rw [load_eq]
  exact works_loadSites _ m

theorem works_loadAt (text : String) (paths : List (List Int)) (m : Machine) :
    Works m ((loadAt text paths).run m).2 := by
  unfold loadAt
  cases paths.mapM (blockAt text) with
  | error fault => exact .refl
  | ok found =>
    apply works_bind .refl
    intro blocks n run
    cases run
    refine forM_related (R := Works) (fun _ => .refl) Relation.ReflTransGen.trans
      (fun ⟨above, block⟩ m => ?_) found m
    dsimp only
    rw [loadBlock_eq]
    exact works_loadSites _ m

end Loading
end Machine
end Rulebook
