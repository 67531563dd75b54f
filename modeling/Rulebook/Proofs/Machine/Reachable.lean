import Rulebook.Proofs.Machine.Evolution

/-! The machines that operations lead to, from a new one on. An operation leads on also when it
fails. What a host's callbacks do is left open, as long as they change the machine by its
operations only. -/
namespace Rulebook
namespace Machine

/-- One machine comes from the other by operations. -/
inductive Leads : Machine → Machine → Prop where
  | refl (m : Machine) : Leads m m
  | trans {m n k : Machine} : Leads m n → Leads n k → Leads m k
  | load (text : String) (m : Machine) : Leads m ((load text).run m).2
  | loadFile (contents : String) (m : Machine) : Leads m ((loadFile contents).run m).2
  | loadAt (text : String) (paths : List (List Int)) (m : Machine) :
      Leads m ((loadAt text paths).run m).2
  | claim (fact : Phrase) (m : Machine) : Leads m ((claim fact).run m).2
  | isTrue (question : Phrase) (m : Machine) : Leads m ((isTrue question).run m).2
  | values (question : Phrase) (m : Machine) : Leads m ((values question).run m).2
  | pull (wanted : Option Nat) (cursor : Cursor) (m : Machine) :
      Leads m ((pull wanted cursor).run m).2
  | mintId (m : Machine) : Leads m (mintId.run m).2
  | addCallback (name : String) (m : Machine) : Leads m ((addCallback name).run m).2
  | perform {host : Type} (depth : Nat) {call : String → List (Option String) → HostM host Unit}
      (phrase : Phrase) (m : Machine) (h : host) :
      (∀ name values m h, Leads m ((call name values).run (m, h)).2.1) →
      Leads m ((performTo depth call phrase).run (m, h)).2.1

/-- A machine that operations lead to from a new one. -/
def Reachable (m : Machine) : Prop :=
  ∃ verbose strict id, Leads { verbose, strict, nextId := id } m

/-- A host operation that changes the machine by its operations only. -/
def Grows {host : Type} (operation : HostM host α) : Prop :=
  ∀ m h, Restores m (operation.run (m, h)).2.1

section Performing
variable {host : Type} {m n : Machine}

theorem Grows.bind {first : HostM host α} {next : α → HostM host β} (start : Grows first)
    (more : ∀ a, Grows (next a)) : Grows (first >>= next) := by
  intro m h
  exact bind_related (R := fun s t : Machine × host => Restores s.1 t.1) (s := (m, h))
    Restores.trans (start m h) fun a t _ => more a t.1 t.2

theorem grows_pure (a : α) : Grows (pure a : HostM host α) := fun m _ => .refl m

theorem grows_throw (fault : Fault) : Grows (throw fault : HostM host α) := fun m _ => .refl m

theorem grows_get : Grows (get : HostM host (Machine × host)) := fun m _ => .refl m

theorem run_machine (operation : MachineM α) (m : Machine) (h : host) :
    (HostM.machine operation : HostM host α).run (m, h) =
      ((operation.run m).1, ((operation.run m).2, h)) := rfl

theorem run_afterwards (operation : HostM host α) (change : Machine → Machine)
    (s : Machine × host) :
    (HostM.afterwards operation change).run s =
      ((operation.run s).1, (change (operation.run s).2.1, (operation.run s).2.2)) := rfl

theorem grows_machine {operation : MachineM α} (works : ∀ m, Works m (operation.run m).2) :
    Grows (HostM.machine operation : HostM host α) := fun m _ => (works m).restores

theorem grows_forM {operation : β → HostM host PUnit} (one : ∀ b, Grows (operation b))
    (items : List β) : Grows (items.forM operation) := by
  induction items with
  | nil => exact grows_pure _
  | cons b items ih => exact (one b).bind fun _ => ih

/-- What resolving makes of a term: the literal that it stands for, or a fresh variable. -/
def Resolves (s : Substitution) (term arg : Term) : Prop :=
  match s.walk term with
  | .lit value => arg = .lit value
  | .var name => ∃ id, arg = Naming.fresh id name

section Resolving
variable {s : Substitution} {term : Term} {terms args : List Term} {given : Table Term}
  {name : String} {m n : Machine}

theorem run_resolveFresh_literal {value : String} (reached : s.walk term = .lit value)
    (run : (resolveFresh s terms given).run m = (.ok args, n)) :
    (resolveFresh s (term :: terms) given).run m = (.ok (.lit value :: args), n) := by
  rw [resolveFresh, reached]
  exact (run_bind_ok run).trans rfl

/-- A variable gets what its name was given before. -/
theorem run_resolveFresh_known {new : Term} (reached : s.walk term = .var name)
    (found : given.get? name = some new)
    (run : (resolveFresh s terms given).run m = (.ok args, n)) :
    (resolveFresh s (term :: terms) given).run m = (.ok (new :: args), n) := by
  rw [resolveFresh, reached]
  dsimp only
  rw [found]
  exact (run_bind_ok run).trans rfl

/-- A name that was given nothing before gets a fresh variable. -/
theorem run_resolveFresh_fresh (reached : s.walk term = .var name) (absent : given.get? name = none)
    (run : (resolveFresh s terms (given.put name (Naming.fresh m.nextId name))).run
      { m with nextId := m.nextId + 1 } = (.ok args, n)) :
    (resolveFresh s (term :: terms) given).run m =
      (.ok (Naming.fresh m.nextId name :: args), n) := by
  rw [resolveFresh, reached]
  dsimp only
  rw [absent]
  dsimp only
  rw [run_bind, run_mintVariable]
  exact (run_bind_ok run).trans rfl

end Resolving

/-- Resolving uses up ids, and none where nothing is open. -/
theorem run_resolveFresh (s : Substitution) (terms : List Term) {renamed : Table Term}
    (known : ∀ name new, renamed.get? name = some new → ∃ id, new = Naming.fresh id name)
    (m : Machine) :
    ∃ args id, (resolveFresh s terms renamed).run m = (.ok args, { m with nextId := id }) ∧
      m.nextId ≤ id ∧ ((∀ term ∈ terms, (s.walk term).isLiteral) → id = m.nextId) ∧
      List.Forall₂ (Resolves s) terms args := by
  induction terms generalizing renamed m with
  | nil => exact ⟨[], m.nextId, rfl, Int.le_refl _, fun _ => rfl, .nil⟩
  | cons term terms ih =>
    cases reached : s.walk term with
    | lit value =>
      obtain ⟨args, id, run, le, closed, all⟩ := ih known m
      refine ⟨.lit value :: args, id, run_resolveFresh_literal reached run, le, fun literal => ?_,
        .cons ?_ all⟩
      · exact closed fun term inside => literal term (List.mem_cons_of_mem _ inside)
      · rw [Resolves, reached]
    | var name =>
      have opened : ¬∀ other ∈ term :: terms, (s.walk other).isLiteral = true := by
        intro literal
        have here := literal term List.mem_cons_self
        rw [reached] at here
        cases here
      cases found : renamed.get? name with
      | some new =>
        obtain ⟨args, id, run, le, _, all⟩ := ih known m
        refine ⟨new :: args, id, run_resolveFresh_known reached found run, le,
          fun literal => absurd literal opened, .cons ?_ all⟩
        rw [Resolves, reached]
        exact known name new found
      | none =>
        let new := Naming.fresh m.nextId name
        have more (other : String) (value : Term)
            (there : (renamed.put name new).get? other = some value) :
            ∃ id, value = Naming.fresh id other := by
          rw [Table.get?_put] at there
          split at there
          · rename_i same
            cases there
            exact ⟨m.nextId, by rw [same]⟩
          · exact known other value there
        obtain ⟨args, id, run, le, _, all⟩ := ih more { m with nextId := m.nextId + 1 }
        dsimp only at le
        refine ⟨new :: args, id, run_resolveFresh_fresh reached found run, by omega,
          fun literal => absurd literal opened, .cons ?_ all⟩
        rw [Resolves, reached]
        exact ⟨m.nextId, rfl⟩

theorem no_renamings (name : String) (new : Term)
    (found : ({} : Table Term).get? name = some new) : ∃ id, new = Naming.fresh id name :=
  nomatch found

theorem works_resolveFresh (s : Substitution) (terms : List Term) (m : Machine) :
    Works m ((resolveFresh s terms {}).run m).2 := by
  obtain ⟨args, id, run, le, _, _⟩ := run_resolveFresh s terms no_renamings m
  rw [run]
  exact works_spend m le

theorem before_branches (args : List Term) (out : Term) (entries : List (Rule × String))
    (p : Progress) : p.Before (Action.branches args out entries p).2 := by
  induction entries generalizing p with
  | nil => exact .refl p
  | cons entry entries ih => exact (entry.1.before_use args p).trans (ih _)

/-- A machine whose action has found no rule that holds. -/
def idled (m : Machine) (action : Action) : Machine :=
  m.logged ("[action] " ++ action.name ++ ": no rule holds")

def chosen (m : Machine) (action : Action) (payload : String) : Machine :=
  { m.logged ("[action] " ++ action.name ++ " -> " ++ payload) with
    history := m.history ++ [.performed action.name payload] }

/-- Choosing a payload searches for the first answer under a variable that stands for the
payload. -/
theorem run_choosePayload (action : Action) (args : List Term) (m : Machine) :
    (choosePayload action args).run m =
      let out := Naming.fresh m.nextId "outcome"
      let opened := action.goal args out ⟨[m.nextId + 1], []⟩
      match (firstAnswer opened.1).run { m with nextId := opened.2.nextId source } with
      | (.error fault, n) => (.error fault, n)
      | (.ok none, n) => (.ok none, n.idled action)
      | (.ok (some s), n) =>
        (.ok (some ((s.walk out).key, s)), n.chosen action (s.walk out).key) := by
  unfold choosePayload
  rw [run_bind, run_mintVariable]
  dsimp only
  rw [run_bind, run_get]
  dsimp only
  rw [run_bind, run_set]
  dsimp only
  rw [run_bind]
  generalize (firstAnswer _).run _ = found
  match found with
  | (.error fault, n) => rfl
  | (.ok none, n) =>
    dsimp only
    rw [run_bind, run_log]
    rfl
  | (.ok (some s), n) =>
    dsimp only
    rw [run_bind, run_log]
    dsimp only
    rw [run_bind, run_record]
    rfl

/-- Choosing a payload uses up an id first. -/
theorem works_choice (action : Action) (args : List Term) (m : Machine) :
    Works { m with nextId := m.nextId + 1 } ((choosePayload action args).run m).2 := by
  rw [run_choosePayload]
  let opened := action.goal args (Naming.fresh m.nextId "outcome") ⟨[m.nextId + 1], []⟩
  have spent : Works { m with nextId := m.nextId + 1 }
      { m with nextId := opened.2.nextId source } :=
    works_spend { m with nextId := m.nextId + 1 } ((before_branches args
      (Naming.fresh m.nextId "outcome") action.entries ⟨[m.nextId + 1], []⟩).2 source)
  have searched := spent.trans ((spends_firstAnswer opened.1).works _)
  dsimp only
  split <;> rename_i found <;> rw [found] at searched
  · exact searched
  · exact searched.trans (works_logged _ _)
  · exact (searched.trans (works_logged _ _)).tail ⟨.perform, rfl⟩

/-- Apart from ids and what is printed, choosing a payload changes the history only, by saying what
is performed. -/
theorem choosePayload_changes (action : Action) (args : List Term) (m : Machine) :
    ∃ id printed entries, (∀ entry ∈ entries, ∃ key payload, entry = .performed key payload) ∧
      ((choosePayload action args).run m).2 =
        { m with nextId := id, printed, history := m.history ++ entries } := by
  rw [run_choosePayload]
  let opened := action.goal args (Naming.fresh m.nextId "outcome") ⟨[m.nextId + 1], []⟩
  obtain ⟨id, _, spent⟩ := spends_firstAnswer opened.1 { m with nextId := opened.2.nextId source }
  dsimp only
  split <;> rename_i found <;> rw [found] at spent <;> subst spent
  · exact ⟨id, m.printed, [], nofun, by rw [List.append_nil]⟩
  · exact ⟨id, _, [], nofun, by rw [List.append_nil]; rfl⟩
  · exact ⟨id, _, [_], by simp, rfl⟩

theorem sameProgram_choosePayload (action : Action) (args : List Term) (m : Machine) :
    SameProgram m ((choosePayload action args).run m).2 := by
  obtain ⟨_, _, _, _, same⟩ := choosePayload_changes action args m
  rw [same]
  rfl

theorem works_choosePayload (action : Action) (args : List Term) (m : Machine) :
    Works m ((choosePayload action args).run m).2 :=
  (works_spend m (by omega)).trans (works_choice action args m)

theorem grows_dispatch {call : String → List (Option String) → HostM host Unit}
    (calls : ∀ name values, Grows (call name values))
    {nested : Action → List Term → HostM host Bool}
    (grows : ∀ action args, Grows (nested action args))
    (s : Substitution) (line : Line) : Grows (dispatch call nested s line) := by
  unfold dispatch
  split
  · refine (grows_machine fun m => ?_).bind fun name => grows_get.bind fun state => ?_
    · cases line.callbackName <;> exact .refl
    · split
      · exact grows_throw _
      · exact calls _ _
  · refine grows_machine fun m => works_bind (works_resolveFresh s _ m) fun args n _ => ?_
    apply works_bind .refl
    intro k n run
    cases run
    exact works_assert line.phrase.key args _ _
  · apply (grows_machine (works_actionFor line.phrase.key false)).bind
    intro action
    apply (grows_machine (works_resolveFresh s line.phrase.args)).bind
    intro args
    exact (grows action args).bind fun _ => grows_pure _
  · exact grows_pure _

theorem run_refuseRunning (name : String) (m : Machine) :
    (refuseRunning name).run m =
      (if name ∈ m.running then
        .error (.recursiveAction (m.running.dropWhile (· != name) ++ [name])) else .ok ⟨⟩, m) := by
  unfold refuseRunning
  rw [run_bind, run_get]
  dsimp only
  split <;> rfl

def entered (m : Machine) (name : String) : Machine := { m with running := m.running ++ [name] }

def left (m : Machine) : Machine := { m with running := m.running.dropLast }

def payloadRun (call : String → List (Option String) → HostM host Unit) (depth : Nat)
    (payload : String) (s : Substitution) (m : Machine) : HostM host Unit :=
  HostM.afterwards
    (((m.payloads.get? payload).getD []).forM (dispatch call (performWithin call depth) s)) left

/-- Performing refuses an action that is running, before anything else; otherwise it chooses a
payload and runs it inside the action. -/
theorem run_performWithin (call : String → List (Option String) → HostM host Unit) (depth : Nat)
    (action : Action) (args : List Term) (m : Machine) (h : host) :
    (performWithin call (depth + 1) action args).run (m, h) =
      if action.name ∈ m.running then
        (.error (.recursiveAction (m.running.dropWhile (· != action.name) ++ [action.name])), (m, h))
      else
        match (choosePayload action args).run m with
        | (.error fault, n) => (.error fault, (n, h))
        | (.ok none, n) => (.ok false, (n, h))
        | (.ok (some (payload, s)), n) =>
          match (payloadRun call depth payload s n).run (n.entered action.name, h) with
          | (.error fault, t) => (.error fault, t)
          | (.ok _, t) => (.ok true, t) := by
  rw [performWithin, run_bind, run_machine, run_refuseRunning]
  by_cases running : action.name ∈ m.running
  · rw [if_pos running, if_pos running]
  · rw [if_neg running, if_neg running]
    dsimp only
    rw [run_bind, run_machine]
    match (choosePayload action args).run m with
    | (.error fault, n) => rfl
    | (.ok none, n) => rfl
    | (.ok (some (payload, s)), n) =>
      dsimp only
      rw [run_bind, run_machine, run_modify]
      dsimp only
      rw [run_bind, run_get]
      dsimp only
      rw [run_bind]
      generalize same : (payloadRun call depth payload s n).run (n.entered action.name, h) = outcome
      unfold payloadRun left entered at same
      rw [same]
      obtain ⟨result, t⟩ := outcome
      cases result <;> rfl

theorem run_performTo {call : String → List (Option String) → HostM host Unit} {action : Action}
    {phrase : Phrase} (declared : m.actions.get? phrase.key = some action) (depth : Nat) (h : host) :
    (performTo depth call phrase).run (m, h) =
      (performWithin call depth action phrase.args).run (m, h) := by
  unfold performTo
  rw [run_bind, run_machine, run_actionFor, declared]

/-- Leaving an action takes the stack back to where it was, whatever was run inside. -/
theorem restores_payloadRun {call : String → List (Option String) → HostM host Unit} {depth : Nat}
    (dispatches : ∀ s line, Grows (dispatch call (performWithin call depth) s line))
    (payload : String) (s : Substitution) {name : String} (free : name ∉ m.running) (h : host) :
    Restores m ((payloadRun call depth payload s m).run (m.entered name, h)).2.1 := by
  have inside := grows_forM (dispatches s) ((m.payloads.get? payload).getD []) (m.entered name) h
  refine ⟨.tail (.head (.enter free) inside.evolves) .leave, ?_⟩
  exact (congrArg List.dropLast inside.running).trans List.dropLast_concat

theorem grows_performWithin {call : String → List (Option String) → HostM host Unit}
    (calls : ∀ name values, Grows (call name values)) (depth : Nat) (action : Action)
    (args : List Term) : Grows (performWithin call depth action args) := by
  induction depth generalizing action args with
  | zero => exact grows_throw _
  | succ depth ih =>
    intro m h
    rw [run_performWithin]
    split
    · exact .refl m
    rename_i free
    have chosen := (works_choosePayload action args m).restores
    match run : (choosePayload action args).run m with
    | (.error fault, n) => rwa [run] at chosen
    | (.ok none, n) => rwa [run] at chosen
    | (.ok (some (payload, s)), n) =>
      rw [run] at chosen
      have ran := chosen.trans (restores_payloadRun (fun s line => grows_dispatch calls ih s line)
        payload s (chosen.running ▸ free) h)
      dsimp only
      split <;> rename_i last <;> rwa [last] at ran

theorem grows_performTo {call : String → List (Option String) → HostM host Unit}
    (calls : ∀ name values, Grows (call name values)) (depth : Nat) (phrase : Phrase) :
    Grows (performTo depth call phrase) :=
  (grows_machine (works_actionFor phrase.key false)).bind fun action =>
    grows_performWithin calls depth action phrase.args

end Performing

section Leading
variable {m n : Machine}

/-- What was running before an operation is what is running after it. -/
theorem Leads.restores (leads : Leads m n) : Restores m n := by
  induction leads with
  | refl m => exact .refl m
  | trans _ _ first second => exact first.trans second
  | load text m => exact (works_load text m).restores
  | loadFile contents m => exact (works_load _ m).restores
  | loadAt text paths m => exact (works_loadAt text paths m).restores
  | claim fact m => exact (works_claim fact m).restores
  | isTrue question m => exact ((spends_isTrue question).works m).restores
  | values question m => exact ((spends_values question).works m).restores
  | pull wanted cursor m => exact ((spends_pull wanted cursor).works m).restores
  | mintId m => exact (works_spend m (by omega)).restores
  | addCallback name m => exact (works_addCallback name m).restores
  | perform depth phrase m h _ ih => exact grows_performTo ih depth phrase m h

theorem Leads.evolves (leads : Leads m n) : Evolves m n := leads.restores.evolves

theorem Reachable.arises (reachable : Reachable m) : m.Arises := by
  obtain ⟨verbose, strict, id, leads⟩ := reachable
  exact ⟨verbose, strict, id, leads.evolves⟩

theorem Reachable.wellFormed (reachable : Reachable m) : m.WellFormed := reachable.arises.wellFormed

theorem Reachable.leads (reachable : Reachable m) (leads : Leads m n) : Reachable n := by
  obtain ⟨verbose, strict, id, first⟩ := reachable
  exact ⟨verbose, strict, id, first.trans leads⟩

end Leading
end Machine
end Rulebook
