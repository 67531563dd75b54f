import Rulebook.Proofs.Program.Payloads
import Rulebook.Proofs.Machine.Running

/-! Performing ends, however the actions call each other. What a performing does is told once more
without a bound on its depth: a derivation of `Finishes` is a whole performing, and every search in
it has ended. There is a derivation for every action, as each nested performing has one action fewer
that is not running yet, and each payload is a list of lines. The facts that its claims add and
retract decide which derivation it is. -/
namespace Rulebook.Machine
variable {host : Type} {m n : Machine}

/-- What is to be done: an action, or the lines that are left of a payload. -/
inductive Task where
  | perform (action : Action) (args : List Term)
  | payload (s : Substitution) (lines : List Line)

def Task.run (call : String → List (Option String) → HostM host Unit) (depth : Nat) :
    Task → HostM host Bool
  | .perform action args => performWithin call depth action args
  | .payload s lines => do
    lines.forM (dispatch call (performWithin call depth) s)
    return true

/-- The task comes to its end with the outcome, and no more than so many performings are inside each
other on the way. -/
inductive Finishes (call : String → List (Option String) → HostM host Unit) :
    Nat → Task → Machine × host → Except Fault Bool × Machine × host → Prop where
  | refused {depth : Nat} {action : Action} {args : List Term} {m : Machine} {h : host} :
      action.name ∈ m.running →
      Finishes call (depth + 1) (.perform action args) (m, h)
        (.error (.recursiveAction (m.chainTo action.name)), (m, h))
  | idle {depth : Nat} {action : Action} {args : List Term} {m n : Machine} {h : host} :
      action.name ∉ m.running → (choosePayload action args).run m = (.ok none, n) →
      Finishes call (depth + 1) (.perform action args) (m, h) (.ok false, (n, h))
  | fired {depth : Nat} {action : Action} {args : List Term} {payload : String}
      {s : Substitution} {m n k : Machine} {h g : host} {result : Except Fault Bool} :
      action.name ∉ m.running → (choosePayload action args).run m = (.ok (some (payload, s)), n) →
      Finishes call depth (.payload s ((n.payloads.get? payload).getD []))
        (n.entered action.name, h) (result, (k, g)) →
      Finishes call (depth + 1) (.perform action args) (m, h) (result, (k.left, g))
  | done {depth : Nat} {s : Substitution} {t : Machine × host} :
      Finishes call depth (.payload s []) t (.ok true, t)
  | line {depth : Nat} {s : Substitution} {line : Line} {lines : List Line}
      {nested : Action → List Term → HostM host Bool} {t u : Machine × host}
      {outcome : Except Fault Bool × Machine × host} :
      line.kind ≠ .action → (dispatch call nested s line).run t = (.ok ⟨⟩, u) →
      Finishes call depth (.payload s lines) u outcome →
      Finishes call depth (.payload s (line :: lines)) t outcome
  | lineFailed {depth : Nat} {s : Substitution} {line : Line} {lines : List Line}
      {nested : Action → List Term → HostM host Bool} {t u : Machine × host} {fault : Fault} :
      line.kind ≠ .action → (line.kind = .claim → fault ≠ .endlessSearch) →
      (dispatch call nested s line).run t = (.error fault, u) →
      Finishes call depth (.payload s (line :: lines)) t (.error fault, u)
  | undeclared {depth : Nat} {s : Substitution} {line : Line} {lines : List Line} {m : Machine}
      {h : host} : line.kind = .action → m.actions.get? line.phrase.key = none →
      Finishes call depth (.payload s (line :: lines)) (m, h)
        (.error (.undeclaredAction line.phrase.key), (m, h))
  | nested {depth : Nat} {s : Substitution} {line : Line} {lines : List Line} {action : Action}
      {args : List Term} {m n : Machine} {h : host} {u : Machine × host} {found : Bool}
      {outcome : Except Fault Bool × Machine × host} :
      line.kind = .action → m.actions.get? line.phrase.key = some action →
      (resolveFresh s line.phrase.args {}).run m = (.ok args, n) →
      Finishes call depth (.perform action args) (n, h) (.ok found, u) →
      Finishes call depth (.payload s lines) u outcome →
      Finishes call depth (.payload s (line :: lines)) (m, h) outcome
  | nestedFailed {depth : Nat} {s : Substitution} {line : Line} {lines : List Line}
      {action : Action} {args : List Term} {m n : Machine} {h : host} {u : Machine × host}
      {fault : Fault} :
      line.kind = .action → m.actions.get? line.phrase.key = some action →
      (resolveFresh s line.phrase.args {}).run m = (.ok args, n) →
      Finishes call depth (.perform action args) (n, h) (.error fault, u) →
      Finishes call depth (.payload s (line :: lines)) (m, h) (.error fault, u)

section Evaluating
variable {call : String → List (Option String) → HostM host Unit}

/-- A line that names no action performs none. -/
theorem dispatch_other {line : Line} (kind : line.kind ≠ .action) (s : Substitution)
    (first second : Action → List Term → HostM host Bool) :
    dispatch call first s line = dispatch call second s line := by
  unfold dispatch
  split
  · rfl
  · rfl
  · contradiction
  · rfl

theorem run_dispatch_undeclared {line : Line} (kind : line.kind = .action)
    (absent : m.actions.get? line.phrase.key = none) (s : Substitution)
    (nested : Action → List Term → HostM host Bool) (h : host) :
    (dispatch call nested s line).run (m, h) =
      (.error (.undeclaredAction line.phrase.key), (m, h)) := by
  unfold dispatch
  rw [kind]
  dsimp only
  rw [run_bind, run_machine, run_actionFor, absent]
  rfl

theorem run_dispatch_nested {line : Line} {action : Action} {args : List Term} {s : Substitution}
    (kind : line.kind = .action) (declared : m.actions.get? line.phrase.key = some action)
    (resolved : (resolveFresh s line.phrase.args {}).run m = (.ok args, n))
    (nested : Action → List Term → HostM host Bool) (h : host) :
    (dispatch call nested s line).run (m, h) =
      match (nested action args).run (n, h) with
      | (.ok _, u) => (.ok ⟨⟩, u)
      | (.error fault, u) => (.error fault, u) := by
  unfold dispatch
  rw [kind]
  dsimp only
  rw [run_bind, run_machine, run_actionFor, declared]
  dsimp only
  rw [run_bind, run_machine, resolved]
  dsimp only
  rw [run_bind]
  match (nested action args).run (n, h) with
  | (.ok _, u) => rfl
  | (.error fault, u) => rfl

/-- The first line of a payload, and the others if it succeeds. -/
theorem run_payload_cons (depth : Nat) (s : Substitution) (line : Line) (lines : List Line)
    (t : Machine × host) :
    ((Task.payload s (line :: lines)).run call depth).run t =
      match (dispatch call (performWithin call depth) s line).run t with
      | (.ok _, u) => ((Task.payload s lines).run call depth).run u
      | (.error fault, u) => (.error fault, u) := by
  change ((dispatch call (performWithin call depth) s line >>= fun _ =>
    lines.forM (dispatch call (performWithin call depth) s)) >>= fun _ => pure true).run t = _
  rw [run_bind, run_bind]
  match (dispatch call (performWithin call depth) s line).run t with
  | (.ok _, u) => exact (run_bind _ _ u).symm
  | (.error fault, u) => rfl

/-- An action that has chosen a payload comes to what the payload comes to. -/
theorem run_action_chosen {action : Action} {args : List Term} {payload : String}
    {s : Substitution} (free : action.name ∉ m.running)
    (chosen : (choosePayload action args).run m = (.ok (some (payload, s)), n)) (depth : Nat)
    (h : host) :
    ((Task.perform action args).run call (depth + 1)).run (m, h) =
      (((Task.payload s ((n.payloads.get? payload).getD [])).run call depth).run
        (n.entered action.name, h)).map id fun t => (t.1.left, t.2) := by
  let lines := ((n.payloads.get? payload).getD []).forM (dispatch call (performWithin call depth) s)
  have inside : (payloadRun call depth payload s n).run (n.entered action.name, h) =
      (lines.run (n.entered action.name, h)).map id fun t => (t.1.left, t.2) := rfl
  have whole : ((Task.payload s ((n.payloads.get? payload).getD [])).run call depth).run
      (n.entered action.name, h) =
        (lines >>= fun _ => pure true).run (n.entered action.name, h) := rfl
  rw [Task.run, run_performWithin, if_neg free, chosen, whole, run_bind]
  dsimp only
  rw [inside]
  match lines.run (n.entered action.name, h) with
  | (.ok _, t) => rfl
  | (.error fault, t) => rfl

/-- A task that finishes comes to the same at every greater depth. -/
theorem Finishes.run {depth : Nat} {task : Task} {t : Machine × host}
    {outcome : Except Fault Bool × Machine × host} (finishes : Finishes call depth task t outcome)
    {bound : Nat} (le : depth ≤ bound) : (task.run call bound).run t = outcome := by
  induction finishes generalizing bound with
  | refused running =>
    obtain ⟨bound, rfl⟩ := Nat.exists_eq_add_of_le' (Nat.one_le_of_lt le)
    exact run_performWithin_running running bound _ _
  | idle free chosen =>
    obtain ⟨bound, rfl⟩ := Nat.exists_eq_add_of_le' (Nat.one_le_of_lt le)
    rw [Task.run, run_performWithin, if_neg free, chosen]
  | fired free chosen _ ih =>
    obtain ⟨bound, rfl⟩ := Nat.exists_eq_add_of_le' (Nat.one_le_of_lt le)
    rw [run_action_chosen free chosen, ih (Nat.le_of_succ_le_succ le)]
    rfl
  | done => rfl
  | line kind dispatched _ ih =>
    rw [run_payload_cons, dispatch_other kind, dispatched]
    exact ih le
  | lineFailed kind _ dispatched => rw [run_payload_cons, dispatch_other kind, dispatched]
  | undeclared kind absent => rw [run_payload_cons, run_dispatch_undeclared kind absent]
  | nested kind declared resolved _ _ first others =>
    have performed := first le
    rw [Task.run] at performed
    rw [run_payload_cons, run_dispatch_nested kind declared resolved, performed]
    exact others le
  | nestedFailed kind declared resolved _ first =>
    have performed := first le
    rw [Task.run] at performed
    rw [run_payload_cons, run_dispatch_nested kind declared resolved, performed]

end Evaluating

section Keeping
variable {call : String → List (Option String) → HostM host Unit}

/-- The callbacks leave the machine alone. They may read it, use what the host keeps, and fail. -/
def Apart (call : String → List (Option String) → HostM host Unit) : Prop :=
  ∀ name values m h, ((call name values).run (m, h)).2.1 = m

/-- Changes that end with what was running, and with the same actions. -/
structure Keeps (m n : Machine) : Prop where
  restores : Restores m n
  actions : SameActions m n

theorem Keeps.trans {k : Machine} (first : Keeps m n) (second : Keeps n k) : Keeps m k :=
  ⟨first.restores.trans second.restores, first.actions.trans second.actions⟩

/-- The callbacks keep what is running and the actions, as those do that leave the machine alone. -/
def Sparing (call : String → List (Option String) → HostM host Unit) : Prop :=
  ∀ name values m h, Keeps m ((call name values).run (m, h)).2.1

theorem Apart.sparing (apart : Apart call) : Sparing call := by
  intro name values m h
  rw [apart]
  exact ⟨.refl m, rfl⟩

theorem Sparing.grows (sparing : Sparing call) (name : String) (values : List (Option String)) :
    Grows (call name values) :=
  fun m h => (sparing name values m h).restores

theorem keeps_choosePayload (action : Action) (args : List Term) (m : Machine) :
    Keeps m ((choosePayload action args).run m).2 :=
  ⟨(works_choosePayload action args m).restores, (sameProgram_choosePayload action args m).actions⟩

theorem keeps_resolveFresh (s : Substitution) (terms : List Term) (m : Machine) :
    Keeps m ((resolveFresh s terms {}).run m).2 := by
  refine ⟨(works_resolveFresh s terms m).restores, ?_⟩
  obtain ⟨args, id, run, _⟩ := run_resolveFresh s terms no_renamings m
  rw [run]
  rfl

/-- A line that performs no action keeps the actions. -/
theorem keeps_dispatch (sparing : Sparing call) {line : Line} (kind : line.kind ≠ .action)
    (nested : Action → List Term → HostM host Bool) (s : Substitution) (m : Machine) (h : host) :
    Keeps m ((dispatch call nested s line).run (m, h)).2.1 := by
  constructor
  · rw [dispatch_other kind s nested fun _ _ => pure false]
    exact grows_dispatch sparing.grows (fun _ _ => grows_pure false) s line m h
  unfold dispatch
  split
  · rw [run_bind, run_machine]
    cases line.callbackName with
    | error fault => rfl
    | ok name =>
      change SameActions m ((get >>= _ : HostM host Unit).run (m, h)).2.1
      rw [run_bind, run_get]
      dsimp only
      split
      · rfl
      · exact (sparing _ _ m h).actions
  · refine bind_related (R := SameActions) SameActions.trans
      (keeps_resolveFresh s line.phrase.args m).actions fun args n _ => ?_
    exact bind_related (R := SameActions) SameActions.trans rfl fun _ n _ =>
      (sameProgram_assert line.phrase.key args _ n).actions
  · contradiction
  · rfl

/-- Whatever a task does, the same actions are declared afterwards, and the same are running. -/
theorem Finishes.keeps (sparing : Sparing call) {depth : Nat} {task : Task} {t : Machine × host}
    {outcome : Except Fault Bool × Machine × host} (finishes : Finishes call depth task t outcome) :
    Keeps t.1 outcome.2.1 := by
  have chosen {action : Action} {args : List Term} {m n : Machine}
      {found : Option (String × Substitution)}
      (run : (choosePayload action args).run m = (.ok found, n)) : Keeps m n := by
    have keeps := keeps_choosePayload action args m
    rwa [run] at keeps
  have dispatched {nested : Action → List Term → HostM host Bool} {s : Substitution} {line : Line}
      {t u : Machine × host} {result : Except Fault PUnit} (kind : line.kind ≠ .action)
      (run : (dispatch call nested s line).run t = (result, u)) : Keeps t.1 u.1 := by
    have keeps := keeps_dispatch sparing kind nested s t.1 t.2
    rwa [run] at keeps
  have resolves {s : Substitution} {terms args : List Term} {m n : Machine}
      (run : (resolveFresh s terms {}).run m = (.ok args, n)) : Keeps m n := by
    have keeps := keeps_resolveFresh s terms m
    rwa [run] at keeps
  induction finishes with
  | refused | done | undeclared => exact ⟨.refl _, rfl⟩
  | idle _ run => exact chosen run
  | @fired _ action _ _ _ _ n k _ _ _ free run _ ih =>
    have before := chosen run
    have inside : Evolves n (n.entered action.name) :=
      .single (.enter (before.restores.running ▸ free))
    refine before.trans ⟨⟨(inside.trans ih.restores.evolves).tail .leave, ?_⟩, ih.actions⟩
    exact (congrArg List.dropLast ih.restores.running).trans List.dropLast_concat
  | line kind run _ ih => exact (dispatched kind run).trans ih
  | lineFailed kind _ run => exact dispatched kind run
  | nested _ _ run _ _ first others => exact ((resolves run).trans first).trans others
  | nestedFailed _ _ run _ first => exact (resolves run).trans first

end Keeping

section Descending
variable {call : String → List (Option String) → HostM host Unit}

/-- An action has the name that it is declared under. -/
theorem Arises.name_eq (arises : m.Arises) {key : String} {action : Action}
    (declared : m.actions.get? key = some action) : action.name = key := by
  obtain ⟨verbose, strict, id, evolves⟩ := arises
  obtain ⟨_, pays⟩ := (pays_new verbose strict id key).evolves evolves
  have name := pays.name
  rwa [actionOf, declared] at name

theorem Arises.evolves (arises : m.Arises) (evolves : Evolves m n) : n.Arises := by
  obtain ⟨verbose, strict, id, first⟩ := arises
  exact ⟨verbose, strict, id, first.trans evolves⟩

def waiting (m : Machine) : List String := m.actions.keys.filter (· ∉ m.running)

/-- An action that begins to run waits no more. -/
theorem waiting_entered {key : String} (declared : key ∈ m.actions.keys)
    (free : key ∉ m.running) : (m.entered key).waiting.length < m.waiting.length := by
  have fewer : (m.entered key).waiting = m.waiting.filter (· ≠ key) := by
    unfold waiting entered
    rw [List.filter_filter]
    refine List.filter_congr fun other _ => ?_
    simp [and_comm]
  rw [fewer]
  refine List.length_filter_lt_length_iff_exists.mpr ⟨key, ?_, by simp⟩
  exact List.mem_filter.mpr ⟨declared, by simpa using free⟩

/-- What keeps the actions keeps those that wait. -/
theorem Keeps.waiting (keeps : Keeps m n) : n.waiting = m.waiting := by
  unfold Machine.waiting
  rw [keeps.actions, keeps.restores.running]

/-- A claim line gives no search up. -/
theorem dispatch_claim_ne_endlessSearch (formed : m.WellFormed) {line : Line}
    (kind : line.kind = .claim) (nested : Action → List Term → HostM host Bool)
    (s : Substitution) (h : host) :
    ((dispatch call nested s line).run (m, h)).1 ≠ .error .endlessSearch := by
  obtain ⟨args, id, resolved, le, _⟩ := run_resolveFresh s line.phrase.args no_renamings m
  have kept : ({ m with nextId := id } : Machine).WellFormed :=
    formed.evolves (works_spend m le).evolves
  unfold dispatch
  rw [kind]
  dsimp only
  rw [run_machine, run_bind, resolved]
  exact assert_ne_endlessSearch kept line.phrase.key args _

/-- The lines of a payload come to an end where each action that they name does. -/
theorem exists_finishes_payload (sparing : Sparing call) {depth : Nat}
    (performs : ∀ m action args h, m.Arises → m.waiting.length < depth →
      action.name ∈ m.actions.keys →
      ∃ outcome, Finishes call depth (.perform action args) (m, h) outcome)
    (s : Substitution) (lines : List Line) (arises : m.Arises) (less : m.waiting.length < depth)
    (h : host) : ∃ outcome, Finishes call depth (.payload s lines) (m, h) outcome := by
  induction lines generalizing m h with
  | nil => exact ⟨_, .done⟩
  | cons line lines ih =>
    -- What is left is done on a machine with the same actions waiting.
    have others {u : Machine × host} (keeps : Keeps m u.1) :
        ∃ outcome, Finishes call depth (.payload s lines) u outcome :=
      ih (arises.evolves keeps.restores.evolves) (keeps.waiting ▸ less) u.2
    by_cases kind : line.kind = .action
    · cases declared : m.actions.get? line.phrase.key with
      | none => exact ⟨_, .undeclared kind declared⟩
      | some action =>
        obtain ⟨args, id, resolved, _⟩ := run_resolveFresh s line.phrase.args no_renamings m
        have keeps := keeps_resolveFresh s line.phrase.args m
        rw [resolved] at keeps
        have listed : action.name ∈ m.actions.keys := by
          rw [arises.name_eq declared, ← Table.isSome_get?_iff, declared]
          rfl
        obtain ⟨⟨result, u⟩, first⟩ := performs { m with nextId := id } action args h
          (arises.evolves keeps.restores.evolves) less listed
        cases result with
        | error fault => exact ⟨_, .nestedFailed kind declared resolved first⟩
        | ok found =>
          obtain ⟨outcome, rest⟩ := others (keeps.trans (first.keeps sparing))
          exact ⟨outcome, .nested kind declared resolved first rest⟩
    · let nested : Action → List Term → HostM host Bool := fun _ _ => pure false
      have keeps := keeps_dispatch sparing kind nested s m h
      match run : (dispatch call nested s line).run (m, h) with
      | (.ok _, u) =>
        rw [run] at keeps
        obtain ⟨outcome, rest⟩ := others keeps
        exact ⟨outcome, .line kind run rest⟩
      | (.error fault, u) =>
        refine ⟨_, .lineFailed kind ?_ run⟩
        rintro claim rfl
        have never : ((dispatch call nested s line).run (m, h)).1 ≠ _ :=
          dispatch_claim_ne_endlessSearch arises.wellFormed claim nested s h
        rw [run] at never
        exact never rfl

/-- A declared action comes to an end. No more performings are inside each other than actions wait,
and one that is refused. -/
theorem exists_finishes_action (sparing : Sparing call) {depth : Nat} {action : Action}
    (args : List Term) (h : host) (arises : m.Arises) (less : m.waiting.length < depth)
    (declared : action.name ∈ m.actions.keys) :
    ∃ outcome, Finishes call depth (.perform action args) (m, h) outcome := by
  induction depth generalizing m action args h with
  | zero => cases less
  | succ depth ih =>
    by_cases running : action.name ∈ m.running
    · exact ⟨_, .refused running⟩
    have keeps := keeps_choosePayload action args m
    obtain ⟨found, n, chosen⟩ := choosePayload_ends arises.wellFormed.acyclic.layered action args
    rw [chosen] at keeps
    cases found with
    | none => exact ⟨_, .idle running chosen⟩
    | some found =>
      have listed : action.name ∈ n.actions.keys := by rwa [keeps.actions]
      have free : action.name ∉ n.running := by rwa [keeps.restores.running]
      have fewer := waiting_entered listed free
      rw [keeps.waiting] at fewer
      have inside : (n.entered action.name).Arises :=
        arises.evolves (keeps.restores.evolves.tail (.enter free))
      obtain ⟨⟨result, k, g⟩, payload⟩ := exists_finishes_payload sparing
        (fun m action args h arises less declared => ih args h arises less declared) found.2
        ((n.payloads.get? found.1).getD []) inside (by omega) h
      exact ⟨_, .fired running chosen payload⟩

theorem run_perform (phrase : Phrase) (m : Machine) (h : host) :
    (perform call phrase).run (m, h) =
      (performTo (m.actions.size + 1) call phrase).run (m, h) := by
  unfold perform
  rw [run_bind]
  rfl

theorem run_performTo_undeclared {phrase : Phrase} (absent : m.actions.get? phrase.key = none)
    (depth : Nat) (h : host) :
    (performTo depth call phrase).run (m, h) =
      (.error (.undeclaredAction phrase.key), (m, h)) := by
  unfold performTo
  rw [run_bind, run_machine, run_actionFor, absent]
  rfl

theorem run_perform_undeclared {phrase : Phrase} (absent : m.actions.get? phrase.key = none)
    (h : host) :
    (perform call phrase).run (m, h) = (.error (.undeclaredAction phrase.key), (m, h)) := by
  rw [run_perform, run_performTo_undeclared absent]

/-- One more depth than there are actions is enough for an action to finish. -/
theorem Sparing.exists_finishes (sparing : Sparing call) (arises : m.Arises) {phrase : Phrase}
    {action : Action} (declared : m.actions.get? phrase.key = some action) (h : host) :
    ∃ outcome, Finishes call (m.actions.size + 1) (.perform action phrase.args) (m, h) outcome ∧
      ∀ depth, m.actions.size < depth → (performTo depth call phrase).run (m, h) = outcome := by
  have listed : action.name ∈ m.actions.keys := by
    rw [arises.name_eq declared, ← Table.isSome_get?_iff, declared]
    rfl
  have few : m.waiting.length < m.actions.size + 1 := by
    apply Nat.lt_succ_of_le
    have filtered := List.length_filter_le (fun key => decide (key ∉ m.running)) m.actions.keys
    rwa [Table.keys, List.length_map] at filtered
  obtain ⟨outcome, finishes⟩ := exists_finishes_action sparing phrase.args h arises few listed
  refine ⟨outcome, finishes, fun depth deep => ?_⟩
  rw [run_performTo declared]
  exact finishes.run deep

theorem exists_finishes_declared (arises : m.Arises) (apart : Apart call) {phrase : Phrase}
    {action : Action} (declared : m.actions.get? phrase.key = some action) (h : host) :
    ∃ outcome, Finishes call (m.actions.size + 1) (.perform action phrase.args) (m, h) outcome ∧
      ∀ depth, m.actions.size < depth → (performTo depth call phrase).run (m, h) = outcome :=
  apart.sparing.exists_finishes arises declared h

/-- Performing ends on every machine that operations lead to, if the callbacks leave the machine
alone: with the outcome of a performing without a bound, in which no more actions nest than are
declared, and one that is refused. -/
theorem perform_ends (reachable : m.Reachable) (apart : Apart call) (phrase : Phrase) (h : host) :
    (m.actions.get? phrase.key = none ∧
      (perform call phrase).run (m, h) = (.error (.undeclaredAction phrase.key), (m, h))) ∨
    ∃ action outcome, m.actions.get? phrase.key = some action ∧
      Finishes call (m.actions.size + 1) (.perform action phrase.args) (m, h) outcome ∧
      (perform call phrase).run (m, h) = outcome ∧
      ∀ depth, m.actions.size < depth → (performTo depth call phrase).run (m, h) = outcome := by
  cases declared : m.actions.get? phrase.key with
  | none => exact .inl ⟨rfl, run_perform_undeclared declared h⟩
  | some action =>
    obtain ⟨outcome, finishes, same⟩ := exists_finishes_declared reachable.arises apart declared h
    have run := (run_perform phrase m h).trans (same _ (Nat.lt_succ_self _))
    exact .inr ⟨action, outcome, rfl, finishes, run, same⟩

/-- Two actions that perform each other; the second has a payload only after the claim of the
first. -/
def pingText : String := "* ping\n    + served\n    * pong\n:: served\n    * pong\n        * ping"

/-- The performing of `ping` ends in the refusal of a second one, with the claim made. -/
theorem perform_ends_ping :
    let m := ((load pingText).run {}).2
    (∃ action outcome, m.actions.get? "ping" = some action ∧
      Finishes (fun _ _ => pure ()) (m.actions.size + 1) (.perform action []) (m, ()) outcome ∧
      outcome.1 = .error (.recursiveAction ["ping", "pong", "ping"]) ∧
      outcome.2.1.history = [.performed "ping" "payload-0", .claimed "served" [],
        .performed "pong" "payload-1"]) ∧
    m.actions.size = 2 := by
  have reachable : ((load pingText).run {}).2.Reachable := ⟨false, false, 0, .load pingText {}⟩
  have apart : Apart fun _ _ => (pure () : HostM Unit Unit) := fun _ _ _ _ => rfl
  refine ⟨?_, by decide +kernel⟩
  rcases perform_ends reachable apart ⟨"ping", []⟩ () with
    ⟨absent, _⟩ | ⟨action, outcome, declared, finishes, run, _⟩
  · have there : (((load pingText).run {}).2.actions.get? "ping").isSome := by decide +kernel
    rw [absent] at there
    cases there
  · refine ⟨action, outcome, declared, finishes, ?_⟩
    rw [← run]
    decide +kernel

end Descending
end Rulebook.Machine
