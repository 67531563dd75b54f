import Rulebook.Proofs.Machine.Change

/-! What loading a line and asserting a fact do, each as one equation. Reading conditions only
declares relations, and it never fails; a rule may be refused, an exclusion and an action are
not. -/
namespace Rulebook.Machine

inductive Declares : Machine → Machine → Prop where
  | refl (m : Machine) : Declares m m
  | step {m n : Machine} {key : String} : m.relations.get? key = none →
      Declares (m.declared key) n → Declares m n

namespace Declares
variable {m n k : Machine}

theorem trans (first : Declares m n) (second : Declares n k) : Declares m k := by
  induction first with
  | refl => exact second
  | step new _ ih => exact .step new (ih second)

theorem works (declares : Declares m n) : Works m n := by
  induction declares with
  | refl => exact .refl
  | step new _ ih => exact .head ⟨.declare new, rfl⟩ ih

theorem evolves (declares : Declares m n) : Evolves m n := declares.works.evolves

theorem same (declares : Declares m n) :
    n = { m with database := n.database, relations := n.relations } := by
  induction declares with
  | refl => rfl
  | step _ _ ih => exact ih

theorem kept (declares : Declares m n) {key : String} {r : RelationId}
    (found : m.relations.get? key = some r) : n.relations.get? key = some r := by
  induction declares with
  | refl => exact found
  | step absent _ ih => exact ih (get?_declared_kept absent found)

theorem relationFor (key : String) (m : Machine) :
    ∃ r n, (relationFor key true).run m = (.ok r, n) ∧ Declares m n ∧
      n.relations.get? key = some r := by
  rw [run_relationFor]
  cases found : m.relations.get? key with
  | some r => exact ⟨r, m, rfl, .refl m, found⟩
  | none => exact ⟨_, _, rfl, .step found (.refl _), get?_declared m key⟩

end Declares

theorem run_conditions (lines : List Line) (m : Machine) :
    ∃ conditions n, (lines.mapM fun line => do
        return (← relationFor line.phrase.key true, line.phrase.args) :
          MachineM (List (RelationId × List Term))).run m = (.ok conditions, n) ∧ Declares m n ∧
      List.Forall₂ (fun line condition =>
        n.relations.get? line.phrase.key = some condition.1 ∧ condition.2 = line.phrase.args)
        lines conditions := by
  induction lines generalizing m with
  | nil => exact ⟨[], m, rfl, .refl m, .nil⟩
  | cons line lines ih =>
    obtain ⟨r, middle, first, declares, found⟩ := Declares.relationFor line.phrase.key m
    obtain ⟨conditions, n, others, more, all⟩ := ih middle
    refine ⟨(r, line.phrase.args) :: conditions, n, ?_, declares.trans more,
      .cons ⟨more.kept found, rfl⟩ all⟩
    rw [List.mapM_cons]
    have head : (do return (← relationFor line.phrase.key true, line.phrase.args) :
        MachineM (RelationId × List Term)).run m = (.ok (r, line.phrase.args), middle) :=
      (run_bind_ok first).trans rfl
    exact (run_bind_ok head).trans ((run_bind_ok others).trans rfl)

theorem run_ruleUnder (above : List Line) (params : List Term) (source : Option SourceId)
    (m : Machine) :
    ∃ rule n, (ruleUnder above params source).run m = (.ok rule, n) ∧ Declares m n ∧
      n.Compiled above params source rule := by
  obtain ⟨conditions, n, run, declares, all⟩ := run_conditions (conditionsOf above) m
  exact ⟨{ params, conditions, source }, n, (run_bind_ok run).trans rfl, declares, rfl, rfl, all⟩

theorem run_loadRule (above : List Line) (line : Line) (m : Machine) :
    ∃ r rule n, Declares m n ∧ n.relations.get? line.phrase.key = some r ∧
      n.Compiled above line.phrase.args (some source) rule ∧
      (loadRule above line).run m =
        match n.database.addRule r rule with
        | .error fault => (.error fault, n)
        | .ok db => (.ok ⟨⟩, { n with database := db }.logged ("[rule] " ++ line.content ++ " (" ++
            toString rule.conditions.length ++ " conditions)")) := by
  obtain ⟨r, middle, first, declares, found⟩ := Declares.relationFor line.phrase.key m
  obtain ⟨rule, n, second, more, compiled⟩ :=
    run_ruleUnder above line.phrase.args (some source) middle
  refine ⟨r, rule, n, declares.trans more, more.kept found, compiled, ?_⟩
  unfold loadRule
  refine (run_bind_ok first).trans ((run_bind_ok second).trans ?_)
  rw [run_bind, run_get]
  dsimp only
  cases n.database.addRule r rule with
  | error fault => rfl
  | ok db =>
    dsimp only
    rw [run_bind, run_modify]
    dsimp only
    rw [run_log]

def excluding (m : Machine) (exclusion : Exclusion) : Machine :=
  { m with exclusions :=
      m.exclusions.put exclusion.key (((m.exclusions.get? exclusion.key).getD []) ++ [exclusion]) }

theorem run_loadExclusion (above : List Line) (line : Line) (m : Machine) :
    ∃ exclusion n, Declares m n ∧ n.Admits exclusion ∧ exclusion.key = line.phrase.key ∧
      n.Compiled above line.phrase.args none exclusion.rule ∧
      (loadExclusion above line).run m =
        (.ok ⟨⟩, (n.excluding exclusion).logged ("[exclusion] " ++ line.content)) := by
  obtain ⟨r, middle, first, declares, found⟩ := Declares.relationFor line.phrase.key m
  obtain ⟨rule, n, second, more, compiled⟩ := run_ruleUnder above line.phrase.args none middle
  let named := (conditionsOf above).flatMap fun condition => condition.phrase.args.map Term.key
  let exclusion : Exclusion :=
    { key := line.phrase.key, rule
      bound := line.phrase.args.map fun term => named.contains term.key }
  have admits : n.Admits exclusion := {
    declared := ⟨r, more.kept found⟩
    unsalted := compiled.source
    known := compiled.knows
    flags := by rw [List.length_map, compiled.params] }
  refine ⟨exclusion, n, declares.trans more, admits, rfl, compiled, ?_⟩
  unfold loadExclusion
  refine (run_bind_ok first).trans ((run_bind_ok second).trans ?_)
  dsimp only
  rw [run_bind, run_modify]
  dsimp only
  rw [run_log]
  rfl

def paying (m : Machine) (key : String) (action : Action) (rule : Rule) (payload : List Line) :
    Machine :=
  { m with
    nextId := m.nextId + 1
    actions := m.actions.put key (action.add rule (Naming.payload m.nextId))
    payloads := m.payloads.put (Naming.payload m.nextId) payload }

theorem run_declareAll (lines : List Line) (m : Machine) :
    ∃ n, (lines.forM fun line => do
        let _ ← relationFor line.phrase.key true : MachineM Unit).run m = (.ok ⟨⟩, n) ∧
      Declares m n ∧ ∀ line ∈ lines, ∃ r, n.relations.get? line.phrase.key = some r := by
  induction lines generalizing m with
  | nil => exact ⟨m, rfl, .refl m, nofun⟩
  | cons line lines ih =>
    obtain ⟨r, middle, first, declares, found⟩ := Declares.relationFor line.phrase.key m
    obtain ⟨n, others, more, all⟩ := ih middle
    have head : (do let _ ← relationFor line.phrase.key true : MachineM Unit).run m =
        (.ok ⟨⟩, middle) := (run_bind_ok first).trans rfl
    exact ⟨n, (run_bind_ok head).trans others, declares.trans more,
      List.forall_mem_cons.mpr ⟨⟨r, more.kept found⟩, all⟩⟩

theorem run_loadAction (above : List Line) (line : Line) (payload : List Line) (m : Machine) :
    ∃ action rule middle n last,
      (actionFor line.phrase.key true).run m = (.ok action, middle) ∧ Declares middle n ∧
      n.Compiled above line.phrase.args none rule ∧
      Declares ((n.paying line.phrase.key action rule payload).logged
        ("[action] " ++ line.content ++ " -> " ++ Naming.payload n.nextId)) last ∧
      (loadAction above line payload).run m = (.ok ⟨⟩, last) ∧
      ∀ claim ∈ payload, claim.kind = .claim →
        ∃ r, last.relations.get? claim.phrase.key = some r := by
  obtain ⟨action, middle, first⟩ : ∃ action middle,
      (actionFor line.phrase.key true).run m = (.ok action, middle) := by
    rw [run_actionFor]
    cases m.actions.get? line.phrase.key with
    | some action => exact ⟨action, m, rfl⟩
    | none => exact ⟨_, _, rfl⟩
  obtain ⟨rule, n, second, declares, compiled⟩ :=
    run_ruleUnder above line.phrase.args none middle
  obtain ⟨last, third, more, all⟩ := run_declareAll (payload.filter (·.kind == .claim))
    ((n.paying line.phrase.key action rule payload).logged
      ("[action] " ++ line.content ++ " -> " ++ Naming.payload n.nextId))
  refine ⟨action, rule, middle, n, last, first, declares, compiled, more, ?_,
    fun claim inside kind => all claim (List.mem_filter.mpr ⟨inside, beq_iff_eq.mpr kind⟩)⟩
  unfold loadAction
  refine (run_bind_ok first).trans ((run_bind_ok second).trans ?_)
  rw [run_bind, run_mintId]
  dsimp only
  rw [run_bind, run_modify]
  dsimp only
  rw [run_bind, run_log]
  exact third

def asserted (m : Machine) (key : String) (fact : List Term) (db : Database) : Machine :=
  let after := { m with database := db }
  { after.logged ("[claim] " ++ key ++ " " ++ factText fact) with
    history := m.history ++ [.claimed key (fact.map Term.key)] }

theorem run_assert (key : String) (terms : List Term) (create : Bool) (m : Machine) :
    (assert key terms create).run m =
      match (relationFor key create).run m with
      | (.error fault, n) => (.error fault, n)
      | (.ok r, n) =>
        match (((n.exclusions.get? key).getD []).forM (exclude r terms)).run n with
        | (.error fault, n) => (.error fault, n)
        | (.ok _, n) =>
          match n.database.addFact r terms with
          | .error fault => (.error fault, n)
          | .ok db => (.ok ⟨⟩, n.asserted key terms db) := by
  unfold assert
  rw [run_bind]
  match (relationFor key create).run m with
  | (.error fault, n) => rfl
  | (.ok r, n) =>
    dsimp only
    rw [run_bind, run_get]
    dsimp only
    rw [run_bind]
    match (((n.exclusions.get? key).getD []).forM (exclude r terms)).run n with
    | (.error fault, n) => rfl
    | (.ok _, n) =>
      dsimp only
      rw [run_bind, run_get]
      dsimp only
      match n.database.addFact r terms with
      | .error fault => rfl
      | .ok db =>
        dsimp only
        rw [run_bind, run_modify]
        dsimp only
        rw [run_bind, run_log]
        dsimp only
        rw [run_record]
        rfl

theorem assert_ok {key : String} {terms : List Term} {create : Bool} {m n : Machine}
    (run : (assert key terms create).run m = (.ok ⟨⟩, n)) :
    ∃ r middle after db, (relationFor key create).run m = (.ok r, middle) ∧
      (((middle.exclusions.get? key).getD []).forM (exclude r terms)).run middle =
        (.ok ⟨⟩, after) ∧
      after.database.addFact r terms = .ok db ∧ n = after.asserted key terms db := by
  rw [run_assert] at run
  split at run
  · cases run
  rename_i r middle first
  split at run
  · cases run
  rename_i after second
  split at run
  · cases run
  rename_i db added
  cases run
  exact ⟨r, middle, after, db, first, second, added, rfl⟩

/-- Where a relation is found, it was there, or it is the new one. -/
theorem relationFor_cases {key : String} {create : Bool} {r : RelationId} {m n : Machine}
    (run : (relationFor key create).run m = (.ok r, n)) :
    m.relations.get? key = some r ∧ n = m ∨
      m.relations.get? key = none ∧ r = m.database.relations.length ∧ n = m.declared key := by
  rw [run_relationFor] at run
  split at run
  · rename_i found
    cases run
    exact .inl ⟨found, rfl⟩
  · rename_i new
    split at run
    · cases run
      exact .inr ⟨new, rfl, rfl⟩
    · cases run

end Rulebook.Machine
