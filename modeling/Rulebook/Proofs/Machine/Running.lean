import Rulebook.Proofs.Machine.Termination

/-! The stack of running actions. An action is refused exactly when it is running, before anything
is searched, recorded or changed; so no name is on the stack twice. However a performing ends, and
whatever callbacks do with the machine, it leaves the stack as it found it. -/
namespace Rulebook
namespace Machine
variable {host : Type} {m n : Machine}

/-- The running actions from this one on, and then the action again. -/
def chainTo (m : Machine) (name : String) : List String :=
  m.running.dropWhile (· != name) ++ [name]

/-- Choosing a payload uses up an id, whatever comes of it. -/
theorem choosePayload_spends (action : Action) (args : List Term) (m : Machine) :
    m.nextId < ((choosePayload action args).run m).2.nextId := by
  have spent := (works_choice action args m).evolves.nextId_le
  dsimp only at spent
  omega

section Refusing
variable {call : String → List (Option String) → HostM host Unit} {action : Action}

/-- An action line performs its action on what its tokens stand for. Only ids are used up before
that, and none if every token is resolved. -/
theorem run_dispatch_action (s : Substitution) {line : Line} (kind : line.kind = .action)
    (declared : m.actions.get? line.phrase.key = some action) (h : host)
    (nested : Action → List Term → HostM host Bool) :
    ∃ args id, m.nextId ≤ id ∧
      ((∀ term ∈ line.phrase.args, (s.walk term).isLiteral) → id = m.nextId) ∧
      List.Forall₂ (Resolves s) line.phrase.args args ∧
      (dispatch call nested s line).run (m, h) =
        (nested action args >>= fun _ => pure ⟨⟩).run ({ m with nextId := id }, h) := by
  obtain ⟨args, id, run, le, closed, all⟩ :=
    run_resolveFresh s line.phrase.args no_renamings m
  refine ⟨args, id, le, closed, all, ?_⟩
  unfold dispatch
  rw [kind]
  dsimp only
  rw [run_bind, run_machine, run_actionFor, declared]
  dsimp only
  rw [run_bind, run_machine, run]

/-- A running action is refused with the stack from it on, and all is as before. -/
theorem run_performWithin_running (running : action.name ∈ m.running) (depth : Nat)
    (args : List Term) (h : host) : (performWithin call (depth + 1) action args).run (m, h) =
      (.error (.recursiveAction (m.chainTo action.name)), (m, h)) := by
  rw [run_performWithin, if_pos running]
  rfl

/-- Performing an action that is not running uses up an id, also where it fails further down. -/
theorem performWithin_spends (calls : ∀ name values, Grows (call name values))
    (free : action.name ∉ m.running) (depth : Nat) (args : List Term) (h : host) :
    m.nextId < ((performWithin call (depth + 1) action args).run (m, h)).2.1.nextId := by
  rw [run_performWithin, if_neg free]
  have spent := choosePayload_spends action args m
  have chosen := (works_choosePayload action args m).running
  match run : (choosePayload action args).run m with
  | (.error fault, n) => rwa [run] at spent
  | (.ok none, n) => rwa [run] at spent
  | (.ok (some (payload, s)), n) =>
    rw [run] at spent chosen
    have ran := restores_payloadRun
      (fun s line => grows_dispatch calls (grows_performWithin calls depth) s line)
      payload s (chosen ▸ free) h
    have later := Int.lt_of_lt_of_le spent ran.evolves.nextId_le
    dsimp only
    split <;> rename_i last <;> rwa [last] at later

/-- An action is refused, with nothing used up, exactly when it is running. -/
theorem refused_iff_running (calls : ∀ name values, Grows (call name values)) (depth : Nat)
    (args : List Term) (h : host) :
    (performWithin call (depth + 1) action args).run (m, h) =
        (.error (.recursiveAction (m.chainTo action.name)), (m, h)) ↔
      action.name ∈ m.running := by
  constructor
  · intro refused
    by_contra free
    have spent := performWithin_spends calls free depth args h
    rw [refused] at spent
    exact Int.lt_irrefl _ spent
  · exact fun running => run_performWithin_running running depth args h

/-- An action line is refused exactly when its action is running. -/
theorem line_refused_iff_running (calls : ∀ name values, Grows (call name values)) (depth : Nat)
    (s : Substitution) {line : Line} (kind : line.kind = .action)
    (declared : m.actions.get? line.phrase.key = some action) (h : host) :
    ∃ id, m.nextId ≤ id ∧
      ((∀ term ∈ line.phrase.args, (s.walk term).isLiteral) → id = m.nextId) ∧
      ((dispatch call (performWithin call (depth + 1)) s line).run (m, h) =
          (.error (.recursiveAction (m.chainTo action.name)), ({ m with nextId := id }, h)) ↔
        action.name ∈ m.running) := by
  obtain ⟨args, id, le, closed, _, run⟩ :=
    run_dispatch_action s kind declared h (performWithin call (depth + 1))
  refine ⟨id, le, closed, ?_⟩
  have refused : _ ↔ action.name ∈ ({ m with nextId := id } : Machine).running :=
    refused_iff_running calls depth args h
  rw [run, run_bind]
  constructor
  · intro same
    refine refused.mp ?_
    match outcome : (performWithin call (depth + 1) action args).run ({ m with nextId := id }, h) with
    | (.error fault, t) =>
      rw [outcome] at same
      obtain ⟨same, rfl⟩ := Prod.mk.inj same
      cases same
      rfl
    | (.ok _, t) =>
      rw [outcome] at same
      cases same
  · intro running
    rw [refused.mpr running]
    rfl

/-- Choosing a payload does not refuse the action. -/
theorem choosePayload_ne_recursiveAction (action : Action) (args : List Term) (m : Machine)
    (chain : List String) :
    ((choosePayload action args).run m).1 ≠ .error (.recursiveAction chain) := by
  by_cases layered : m.database.isLayered
  · obtain ⟨found, n, run⟩ := choosePayload_ends layered action args
    rw [run]
    intro same
    cases same
  · -- Over relations that depend on themselves the search is given up.
    have paused (goal : Goal) (id : Int) :
        ((firstAnswer goal).run { m with nextId := id }).1 = .error .endlessSearch := by
      rw [firstAnswer, run_bind, run_harvest]
      unfold Search.harvest
      rw [dif_neg layered]
    rw [run_choosePayload]
    let opened := action.goal args (Naming.fresh m.nextId "outcome") ⟨[m.nextId + 1], []⟩
    have given := paused opened.1 (opened.2.nextId source)
    dsimp only
    split <;> rename_i found <;> rw [found] at given
    · cases given
      intro same
      cases same
    · cases given
    · cases given

/-- Operations one after the other fail only where one of them does. -/
theorem forM_error {operation : β → HostM host PUnit} (grows : ∀ b, Grows (operation b))
    {items : List β} {fault : Fault} {m : Machine} {h : host} {t : Machine × host}
    (run : (items.forM operation).run (m, h) = (.error fault, t)) :
    ∃ b ∈ items, ∃ k, k.1.running = m.running ∧ (operation b).run k = (.error fault, t) := by
  induction items generalizing m h with
  | nil => cases run
  | cons b items ih =>
    change (operation b >>= fun _ => items.forM operation).run (m, h) = _ at run
    rw [run_bind] at run
    have kept := (grows b m h).running
    match first : (operation b).run (m, h) with
    | (.error other, u) =>
      rw [first] at run
      exact ⟨b, List.mem_cons_self, (m, h), rfl, first.trans run⟩
    | (.ok _, (n, g)) =>
      rw [first] at run kept
      obtain ⟨c, inside, k, same, failed⟩ := ih run
      exact ⟨c, List.mem_cons_of_mem _ inside, k, same.trans kept, failed⟩

/-- An action that is not running is refused nothing itself: where its performing ends in a
refusal, a line of its payload did, inside the action. -/
theorem refused_within (calls : ∀ name values, Grows (call name values))
    (free : action.name ∉ m.running) {depth : Nat} {args : List Term} {h : host}
    {chain : List String} {t : Machine × host}
    (run : (performWithin call (depth + 1) action args).run (m, h) =
      (.error (.recursiveAction chain), t)) :
    ∃ payload s n, (choosePayload action args).run m = (.ok (some (payload, s)), n) ∧
      ∃ line ∈ (n.payloads.get? payload).getD [], ∃ k : Machine × host,
        k.1.running = m.running ++ [action.name] ∧
        ((dispatch call (performWithin call depth) s line).run k).1 =
          .error (.recursiveAction chain) := by
  rw [run_performWithin, if_neg free] at run
  have kept := (works_choosePayload action args m).running
  have other := choosePayload_ne_recursiveAction action args m chain
  match found : (choosePayload action args).run m with
  | (.error fault, n) =>
    rw [found] at run other
    cases run
    exact absurd rfl other
  | (.ok none, n) =>
    rw [found] at run
    cases run
  | (.ok (some (payload, s)), n) =>
    rw [found] at run kept
    refine ⟨payload, s, n, rfl, ?_⟩
    have inside : (payloadRun call depth payload s n).run (n.entered action.name, h) =
        ((((n.payloads.get? payload).getD []).forM
            (dispatch call (performWithin call depth) s)).run (n.entered action.name, h)).map id
          fun k => (k.1.left, k.2) := rfl
    match lines : (((n.payloads.get? payload).getD []).forM
        (dispatch call (performWithin call depth) s)).run (n.entered action.name, h) with
    | (.error fault, u) =>
      dsimp only at run
      rw [inside, lines] at run
      cases run
      obtain ⟨line, member, k, same, failed⟩ := forM_error
        (fun line => grows_dispatch calls (grows_performWithin calls depth) s line) lines
      refine ⟨line, member, k, same.trans ?_, congrArg Prod.fst failed⟩
      change n.running ++ [action.name] = _
      rw [kept]
    | (.ok _, u) =>
      dsimp only at run
      rw [inside, lines] at run
      cases run

end Refusing

section Watching
variable {call other : String → List (Option String) → HostM host Unit}

def AgreeWhereDistinct (call other : String → List (Option String) → HostM host Unit) : Prop :=
  ∀ name values m h, m.running.Nodup →
    (other name values).run (m, h) = (call name values).run (m, h)

/-- Operations that agree wherever no action is running twice, one after the other. -/
theorem forM_agree {first second : β → HostM host PUnit}
    (grows : ∀ b, Grows (first b))
    (agree : ∀ b m h, m.running.Nodup → (second b).run (m, h) = (first b).run (m, h))
    (items : List β) (distinct : m.running.Nodup) (h : host) :
    (items.forM second).run (m, h) = (items.forM first).run (m, h) := by
  induction items generalizing m h with
  | nil => rfl
  | cons b items ih =>
    change (second b >>= fun _ => items.forM second).run (m, h) =
      (first b >>= fun _ => items.forM first).run (m, h)
    rw [run_bind, run_bind, agree b m h distinct]
    have kept := (grows b m h).running
    match run : (first b).run (m, h) with
    | (.error fault, t) => rfl
    | (.ok _, (n, k)) =>
      rw [run] at kept
      exact ih (kept.symm ▸ distinct) k

theorem dispatch_agree (agree : AgreeWhereDistinct call other)
    {first second : Action → List Term → HostM host Bool}
    (nested : ∀ action args m h, m.running.Nodup →
      (second action args).run (m, h) = (first action args).run (m, h))
    (s : Substitution) (line : Line) (distinct : m.running.Nodup) (h : host) :
    (dispatch other second s line).run (m, h) = (dispatch call first s line).run (m, h) := by
  unfold dispatch
  split
  · rw [run_bind, run_bind, run_machine]
    cases line.callbackName with
    | error fault => rfl
    | ok name =>
      change (get >>= _ : HostM host Unit).run (m, h) = (get >>= _ : HostM host Unit).run (m, h)
      rw [run_bind, run_bind, run_get]
      dsimp only
      split
      · rfl
      · exact agree name _ m h distinct
  · rfl
  · rw [run_bind, run_bind, run_machine, run_actionFor]
    cases m.actions.get? line.phrase.key with
    | none => rfl
    | some action =>
      obtain ⟨args, id, run, _⟩ := run_resolveFresh s line.phrase.args no_renamings m
      dsimp only
      rw [run_bind, run_bind, run_machine, run]
      dsimp only
      rw [run_bind, run_bind, nested action args { m with nextId := id } h distinct]
  · rfl

/-- Performing calls no callback where an action is running twice. -/
theorem performWithin_agree (calls : ∀ name values, Grows (call name values))
    (agree : AgreeWhereDistinct call other) (depth : Nat) (action : Action) (args : List Term)
    (distinct : m.running.Nodup) (h : host) :
    (performWithin other depth action args).run (m, h) =
      (performWithin call depth action args).run (m, h) := by
  induction depth generalizing action args m h with
  | zero => rfl
  | succ depth ih =>
    rw [run_performWithin, run_performWithin]
    split
    · rfl
    rename_i free
    have kept := (works_choosePayload action args m).running
    match run : (choosePayload action args).run m with
    | (.error fault, n) => rfl
    | (.ok none, n) => rfl
    | (.ok (some (payload, s)), n) =>
      rw [run] at kept
      have inside : (n.entered action.name).running.Nodup := by
        change (n.running ++ [action.name]).Nodup
        rw [kept, List.nodup_append]
        refine ⟨distinct, List.nodup_singleton _, ?_⟩
        intro name member last there same
        rw [List.mem_singleton.mp there] at same
        exact free (same ▸ member)
      have lines := forM_agree
        (fun line => grows_dispatch calls (grows_performWithin calls depth) s line)
        (fun line k h distinct => dispatch_agree agree (fun action args k h distinct =>
          ih action args distinct h) s line distinct h)
        ((n.payloads.get? payload).getD []) inside h
      have whole : (payloadRun other depth payload s n).run (n.entered action.name, h) =
          (payloadRun call depth payload s n).run (n.entered action.name, h) :=
        congrArg (fun outcome : Except Fault PUnit × Machine × host =>
          (outcome.1, (outcome.2.1.left, outcome.2.2))) lines
      dsimp only
      rw [whole]

end Watching

section Stack
variable {call : String → List (Option String) → HostM host Unit}

/-- What performing does to the stack of running actions, whatever the callbacks do. -/
structure KeepsStack (call : String → List (Option String) → HostM host Unit) : Prop where
  /-- However a performing ends, the stack is what it was. -/
  restored : ∀ depth phrase m h, ((performTo depth call phrase).run (m, h)).2.1.running = m.running
  /-- Nothing depends on what callbacks would do where an action is running twice. -/
  distinct : ∀ depth phrase m h other, m.running.Nodup → AgreeWhereDistinct call other →
    (performTo depth other phrase).run (m, h) = (performTo depth call phrase).run (m, h)
  /-- An action is refused, and all else is left alone, exactly when it is running. -/
  refused : ∀ depth phrase action m h, m.actions.get? phrase.key = some action →
    ((performTo (depth + 1) call phrase).run (m, h) =
        (.error (.recursiveAction (m.chainTo action.name)), (m, h)) ↔ action.name ∈ m.running)
  /-- A line that names the action is refused likewise. It only uses up ids for its open tokens. -/
  lineRefused : ∀ depth s line action m h, line.kind = .action →
    m.actions.get? line.phrase.key = some action →
    ∃ id, m.nextId ≤ id ∧
      ((∀ term ∈ line.phrase.args, (s.walk term).isLiteral) → id = m.nextId) ∧
      ((dispatch call (performWithin call (depth + 1)) s line).run (m, h) =
          (.error (.recursiveAction (m.chainTo action.name)), ({ m with nextId := id }, h)) ↔
        action.name ∈ m.running)
  /-- Any other refusal comes out of a line of the payload, inside the action. -/
  within : ∀ depth phrase action m h chain, m.actions.get? phrase.key = some action →
    action.name ∉ m.running →
    ((performTo (depth + 1) call phrase).run (m, h)).1 = .error (.recursiveAction chain) →
    ∃ payload s n, (choosePayload action phrase.args).run m = (.ok (some (payload, s)), n) ∧
      ∃ line ∈ (n.payloads.get? payload).getD [], ∃ k : Machine × host,
        k.1.running = m.running ++ [action.name] ∧
        ((dispatch call (performWithin call depth) s line).run k).1 =
          .error (.recursiveAction chain)
  /-- Between operations nothing is running, also after some of them failed. -/
  idle : ∀ m : Machine, m.Reachable → m.running = []

theorem Reachable.idle (reachable : m.Reachable) : m.running = [] := by
  obtain ⟨verbose, strict, id, leads⟩ := reachable
  exact leads.restores.running

/-- The stack of running actions is exact and always restored, for callbacks that use the machine
and fail as they like. -/
theorem keepsStack (calls : ∀ name values m h, Leads m ((call name values).run (m, h)).2.1) :
    KeepsStack call := by
  have grows (name : String) (values : List (Option String)) : Grows (call name values) :=
    fun m h => (calls name values m h).restores
  constructor
  case restored => exact fun depth phrase m h => (grows_performTo grows depth phrase m h).running
  case distinct =>
    intro depth phrase m h other distinct agree
    cases declared : m.actions.get? phrase.key with
    | some action =>
      rw [run_performTo declared, run_performTo declared]
      exact performWithin_agree grows agree depth action phrase.args distinct h
    | none =>
      unfold performTo
      rw [run_bind, run_bind, run_machine, run_actionFor, declared]
      rfl
  case refused =>
    intro depth phrase action m h declared
    rw [run_performTo declared]
    exact refused_iff_running grows depth phrase.args h
  case lineRefused =>
    intro depth s line action m h kind declared
    exact line_refused_iff_running grows depth s kind declared h
  case within =>
    intro depth phrase action m h chain declared free failed
    rw [run_performTo declared] at failed
    exact refused_within grows free (Prod.ext failed rfl)
  case idle => exact fun m reachable => reachable.idle

/-- A callback that performs an action again, lets it fail, claims a fact and fails. -/
def reentrant (name : String) (_ : List (Option String)) : HostM Unit Unit := do
  let _ ← HostM.outcome (performTo 2 (fun _ _ => pure ()) ⟨"A %s", [.lit "a"]⟩)
  HostM.machine (claim ⟨"p %s", [.lit "a"]⟩)
  throw (.unregisteredCallback name)

theorem keepsStack_reentrant :
    (∀ name values m h, Leads m ((reentrant name values).run (m, h)).2.1) ∧
      KeepsStack reentrant := by
  have calls (name : String) (values : List (Option String)) (m : Machine) (h : Unit) :
      Leads m ((reentrant name values).run (m, h)).2.1 := by
    have performed : Leads m
        ((performTo 2 (fun _ _ => pure ()) ⟨"A %s", [.lit "a"]⟩).run (m, h)).2.1 :=
      .perform 2 ⟨"A %s", [.lit "a"]⟩ m h fun _ _ m _ => .refl m
    refine performed.trans ?_
    have claimed := Leads.claim ⟨"p %s", [.lit "a"]⟩
      ((performTo 2 (fun _ _ => pure ()) ⟨"A %s", [.lit "a"]⟩).run (m, h)).2.1
    unfold reentrant
    rw [run_bind]
    change Leads _ ((HostM.machine (claim ⟨"p %s", [.lit "a"]⟩) >>= fun _ =>
      throw (.unregisteredCallback name) : HostM Unit Unit).run
        ((performTo 2 (fun _ _ => pure ()) ⟨"A %s", [.lit "a"]⟩).run (m, h)).2).2.1
    rw [run_bind, run_machine]
    split <;> rename_i same <;> obtain ⟨_, rfl⟩ := Prod.mk.inj same <;> exact claimed
  exact ⟨calls, keepsStack calls⟩

/-- The payload of this action performs it again, on a variable that nothing binds. -/
def selfText : String := "* A (x)\n    * A (y)"

/-- The refusal of a line with an open token comes after an id is used up for it. -/
theorem open_token_spends_id :
    let m := ((load selfText).run {}).2.entered "A %s"
    let line : Line := ⟨.action, "    * A (y)", "A (y)", 4, ⟨"A %s", [.var "y"]⟩⟩
    (m.payloads.get? "payload-0").getD [] = [line] ∧
      (m.actions.get? "A %s").map (·.name) = some "A %s" ∧ "A %s" ∈ m.running ∧
      ((dispatch reentrant (performWithin reentrant 1) .empty line).run (m, ())).1 =
        .error (.recursiveAction ["A %s", "A %s"]) ∧
      ((dispatch reentrant (performWithin reentrant 1) .empty line).run (m, ())).2.1.nextId =
        m.nextId + 1 := by
  decide +kernel

end Stack

end Machine
end Rulebook
