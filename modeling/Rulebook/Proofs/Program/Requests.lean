import Rulebook.Proofs.Program.Dispatching

/-! Runs of a machine from outside: one request after the other, whatever became of the ones before.
Between requests, and also while one is carried out, the machine is seen in the states that the run
passes. -/
namespace Rulebook

namespace HostM
variable {host α : Type}

/-- An operation that neither reads nor changes the machine. -/
def aside (operation : ExceptT Fault (StateM host) α) : HostM host α :=
  fun (m, h) => let (result, h) := operation.run h; (result, (m, h))

end HostM

namespace Machine
variable {host : Type} {call : String → List (Option String) → HostM host Unit} {m n : Machine}

abbrev asides (act : String → List (Option String) → ExceptT Fault (StateM host) Unit)
    (name : String) (values : List (Option String)) : HostM host Unit :=
  HostM.aside (act name values)

theorem apart_asides {act : String → List (Option String) → ExceptT Fault (StateM host) Unit} :
    Apart (asides act) := fun _ _ _ _ => rfl

inductive Request where
  | load (text : String)
  | claim (fact : Phrase)
  | isTrue (question : Phrase)
  | values (question : Phrase)
  | solutions (question : Phrase) (limit : Option Int)
  | ask (question : Phrase)
  | pull (wanted : Option Nat) (cursor : Cursor)
  | perform (action : Phrase)
  | register (callback : String)

inductive Reply where
  | done
  | truth (holds : Bool)
  | values (found : Option (List (Option String)))
  | solutions (found : List (List (Option String)))
  | opened (cursor : Cursor)
  | pulled (found : List (List (Option String))) (rest : Cursor)

def Request.run (call : String → List (Option String) → HostM host Unit) :
    Request → HostM host Reply
  | load text => do HostM.machine (Machine.load text); return .done
  | claim fact => do HostM.machine (Machine.claim fact); return .done
  | isTrue question => do return .truth (← HostM.machine (Machine.isTrue question))
  | values question => do return .values (← HostM.machine (Machine.values question))
  | solutions question limit => do
    return .solutions (← HostM.machine (Machine.solutions question limit))
  | ask question => do return .opened (← HostM.machine (Machine.ask question))
  | pull wanted cursor => do
    let (found, rest) ← HostM.machine (Machine.pull wanted cursor)
    return .pulled found rest
  | perform action => do return .truth (← Machine.perform call action)
  | register callback => do HostM.machine (addCallback callback); return .done

/-- The replies to requests, each made of what the one before has left, and what the last leaves. -/
def runAll (call : String → List (Option String) → HostM host Unit) :
    List Request → Machine × host → List (Except Fault Reply) × Machine × host
  | [], t => ([], t)
  | request :: requests, t =>
    let (reply, t) := (request.run call).run t
    let (replies, t) := runAll call requests t
    (reply :: replies, t)

/-- The machine is in this state while a request is carried out, or after it. -/
inductive Request.Passes (call : String → List (Option String) → HostM host Unit) :
    Request → Machine × host → Machine → Prop where
  /-- Some of the lines of a text have been loaded. -/
  | loading {text : String} {before after : List Site} {t : Machine × host} :
      sitesOfText text = before ++ after →
      Passes call (.load text) t ((before.forM loadSite).run t.1).2
  /-- A line of a payload is dispatched. -/
  | performing {phrase : Phrase} {action : Action} {m : Machine} {h : host} {s : Substitution}
      {line : Line} {u : Machine × host} : m.actions.get? phrase.key = some action →
      Dispatches call (m.actions.size + 1) (.perform action phrase.args) (m, h) s line u →
      Passes call (.perform phrase) (m, h) u.1
  | after {request : Request} {t : Machine × host} :
      Passes call request t ((request.run call).run t).2.1

/-- The machine is in this state at some time of a run. -/
inductive Passed (call : String → List (Option String) → HostM host Unit) :
    List Request → Machine × host → Machine → Prop where
  | start {requests : List Request} {t : Machine × host} : Passed call requests t t.1
  | here {request : Request} {requests : List Request} {t : Machine × host} {k : Machine} :
      request.Passes call t k → Passed call (request :: requests) t k
  | later {request : Request} {requests : List Request} {t : Machine × host} {k : Machine} :
      Passed call requests ((request.run call).run t).2 k →
      Passed call (request :: requests) t k

/-- What requests do to a machine keeps the property, as long as the facts are as they should be
before and after each fact and rule that is loaded, and each claim. -/
structure Upholds (call : String → List (Option String) → HostM host Unit)
    (facts : Database → Prop) (kept : Machine → Prop) : Prop extends Maintains call facts kept where
  load : ∀ (site : Site) {m : Machine}, kept m → facts m.database →
    facts ((loadSite site).run m).2.database → kept ((loadSite site).run m).2
  register : ∀ (name : String) {m : Machine}, kept m → kept ((addCallback name).run m).2

section Keeping
variable {facts : Database → Prop} {kept : Machine → Prop} {t : Machine × host} {k : Machine}

theorem after_reply (operation : HostM host α) (reply : α → Reply) (t : Machine × host) :
    ((do return reply (← operation) : HostM host Reply).run t).2 = (operation.run t).2 := by
  rw [run_bind]
  match operation.run t with
  | (.ok _, u) => rfl
  | (.error fault, u) => rfl

/-- The sites that come first leave what the whole text leaves, if one of them fails. -/
theorem run_sites_concat (sites : List Site) (site : Site) (m : Machine) :
    (((sites ++ [site]).forM loadSite).run m).2 = ((sites.forM loadSite).run m).2 ∨
      (((sites ++ [site]).forM loadSite).run m).2 =
        ((loadSite site).run ((sites.forM loadSite).run m).2).2 := by
  induction sites generalizing m with
  | nil =>
    refine .inr ?_
    change ((loadSite site >>= fun _ => pure ⟨⟩ : MachineM PUnit).run m).2 = _
    rw [run_bind]
    match (loadSite site).run m with
    | (.ok _, n) => rfl
    | (.error fault, n) => rfl
  | cons first sites ih =>
    change ((loadSite first >>= fun _ => (sites ++ [site]).forM loadSite).run m).2 =
        ((loadSite first >>= fun _ => sites.forM loadSite).run m).2 ∨
      ((loadSite first >>= fun _ => (sites ++ [site]).forM loadSite).run m).2 = ((loadSite site).run
        ((loadSite first >>= fun _ => sites.forM loadSite).run m).2).2
    rw [run_bind, run_bind]
    match (loadSite first).run m with
    | (.ok _, n) => exact ih n
    | (.error fault, n) => exact .inl rfl

/-- What is kept is kept at every line that is loaded. -/
theorem Upholds.sites (upholds : Upholds call facts kept) {text : String} (start : kept t.1)
    (fine : ∀ k, (Request.load text).Passes call t k → facts k.database) (sites : List Site)
    {rest : List Site} (split : sitesOfText text = sites ++ rest) :
    kept ((sites.forM loadSite).run t.1).2 := by
  induction sites using List.reverseRecOn generalizing rest with
  | nil => exact start
  | append_singleton sites site ih =>
    have earlier : sitesOfText text = sites ++ (site :: rest) := by
      rw [split, List.append_assoc]
      rfl
    rcases run_sites_concat sites site t.1 with same | same
    · rw [same]
      exact ih earlier
    · have after := fine _ (.loading split)
      rw [same] at after ⊢
      exact upholds.load site (ih earlier) (fine _ (.loading earlier)) after

/-- What is kept is kept at any time of a request. -/
theorem Upholds.request (upholds : Upholds call facts kept) {request : Request} (start : kept t.1)
    (first : facts t.1.database) (fine : ∀ k, request.Passes call t k → facts k.database)
    (passes : request.Passes call t k) : kept k := by
  obtain ⟨m, h⟩ := t
  have asked {α : Type} {operation : MachineM α} (spends : Spends operation) (reply : α → Reply) :
      kept ((do return reply (← HostM.machine operation) : HostM host Reply).run (m, h)).2.1 := by
    obtain ⟨id, le, same⟩ := spends m
    rw [after_reply, run_machine, same]
    exact upholds.spend le start
  have performing {phrase : Phrase} {action : Action}
      (declared : m.actions.get? phrase.key = some action)
      (fine : ∀ k, (Request.perform phrase).Passes call (m, h) k → facts k.database) :
      Throughout call kept (m.actions.size + 1) (.perform action phrase.args) (m, h) := by
    refine upholds.task start ⟨fun s line u dispatched => fine _ (.performing declared dispatched), ?_⟩
    have ended := fine _ .after
    rw [Request.run, after_reply, run_perform, run_performTo declared] at ended
    exact ended
  cases passes with
  | loading split => exact upholds.sites start fine _ split
  | performing declared dispatched => exact (performing declared fine).dispatched _ _ _ dispatched
  | after =>
    cases request with
    | load text =>
      have all := upholds.sites start fine (sitesOfText text) (List.append_nil _).symm
      rwa [Request.run, after_reply, run_machine, load_eq]
    | claim fact =>
      have after := fine _ .after
      rw [Request.run, after_reply, run_machine] at after ⊢
      exact upholds.claim fact.key fact.args start first after
    | isTrue question => exact asked (spends_isTrue question) .truth
    | values question => exact asked (spends_values question) .values
    | solutions question limit => exact asked (spends_solutions question limit) .solutions
    | ask question => exact asked (spends_ask question) .opened
    | pull wanted cursor =>
      exact asked (spends_pull wanted cursor) fun found => .pulled found.1 found.2
    | perform phrase =>
      rw [Request.run, after_reply, run_perform]
      cases declared : m.actions.get? phrase.key with
      | none =>
        rw [run_performTo_undeclared declared]
        exact start
      | some action =>
        rw [run_performTo declared]
        exact (performing declared fine).ended
    | register callback =>
      rw [Request.run, after_reply, run_machine]
      exact upholds.register callback start

/-- What is kept is kept at any time of a run. -/
theorem Upholds.passed (upholds : Upholds call facts kept) {requests : List Request}
    (start : kept t.1) (fine : ∀ k, Passed call requests t k → facts k.database)
    (passed : Passed call requests t k) : kept k := by
  induction passed with
  | start => exact start
  | here passes => exact upholds.request start (fine _ .start) (fun k passes => fine k (.here passes)) passes
  | later _ ih =>
    refine ih (upholds.request start (fine _ .start) (fun k passes => fine k (.here passes)) .after)
      fun k passed => fine k (.later passed)

/-- A run passes the state that it ends with. -/
theorem passed_ended (requests : List Request) (t : Machine × host) :
    Passed call requests t (runAll call requests t).2.1 := by
  induction requests generalizing t with
  | nil => exact .start
  | cons request requests ih => exact .later (ih _)

theorem runAll_cons (request : Request) (requests : List Request) (t : Machine × host) :
    runAll call (request :: requests) t =
      let first := (request.run call).run t
      let others := runAll call requests first.2
      (first.1 :: others.1, others.2) := rfl

/-- Requests make changes only, if the callbacks do. -/
theorem upholds_evolves (calls : ∀ name values, Grows (call name values)) (m : Machine) :
    Upholds call (fun _ => True) (Evolves m) where
  toMaintains := maintains_evolves calls m
  load site _ evolves _ _ := evolves.trans (works_loadSite site _).evolves
  register name _ evolves := evolves.trans (works_addCallback name _).evolves

end Keeping
end Machine
end Rulebook
