import Rulebook.Proofs.Machine.Reachable
import Rulebook.Proofs.Renaming.Choice
import Rulebook.Proofs.Renaming.Claim

/-! Performing on machines whose counters are at a distance. The same rule comes first, so the same
payload is run, and its tokens come to the same literals and to renamed variables. -/
namespace Rulebook
variable {π : Renaming}

namespace Machine
variable {past : Int} {m n : Machine}

section Choosing

/-- The variable for the payload is not in a rule. -/
theorem use_avoids {id : Int} {hint : String} {rule : Rule} {sources : Nat}
    (regular : rule.Regular sources) {args : List Term}
    (named : ∀ term ∈ args, term.Named (· ≠ (Naming.fresh id hint).key)) (p : Progress) :
    (rule.use args p).1.Named (· ≠ (Naming.fresh id hint).key) := by
  unfold Rule.use
  split
  · exact regular.plain.goal_named
      (fun name fine => Naming.known_unmarked fine.1 id id hint (Int.le_refl _)) named
  · exact rule.goal_named named fun name same => Naming.fresh_ne_salt _ _ _ _ same.symm

/-- Two ways to have chosen a payload, which give the same payload and resolve the tokens of texts
alike. -/
def Chooses (π : Renaming) (one other : String × Substitution) : Prop :=
  other.1 = π.payloads one.1 ∧
    ∀ term : Term, term.Plain → other.2.walk term = (one.2.walk term).rename π

def answered (action : Action) (out : Term) :
    Except Fault (Option Substitution) × Machine →
      Except Fault (Option (String × Substitution)) × Machine
  | (.error fault, m) => (.error fault, m)
  | (.ok none, m) => (.ok none, m.idled action)
  | (.ok (some s), m) => (.ok (some ((s.walk out).key, s)), m.chosen action (s.walk out).key)

theorem corresponds_answered {out : String} (action : Action)
    (avoids : ∀ term : Term, term.Plain → term.Named (· ≠ out))
    {here there : Except Fault (Option Substitution) × Machine}
    (first : Corresponds π (Option.Rel (Search.Chosen π out)) (Twins π past) here there) :
    Corresponds π (Option.Rel (Chooses π)) (Twins π past) (answered action (.var out) here)
      (answered (action.rename π) (.var (π.names out)) there) := by
  cases first with
  | error twins => exact .error twins
  | ok answer twins =>
    cases answer with
    | none => exact .ok .none (twins.logged _ _)
    | some chosen =>
      cases chosen with
      | @paid s payload free =>
        have same : ((s.paid out payload).walk (.var out)).key = payload := by
          rw [Substitution.walk_out]
          rfl
        have renamed : (((s.rename π).paid (π.names out) (π.payloads payload)).walk
            (.var (π.names out))).key = π.payloads payload := by
          rw [Substitution.walk_out]
          rfl
        rw [answered, answered, same, renamed]
        refine .ok (.some ⟨rfl, fun term plain => ?_⟩)
          ((twins.logged _ _).recorded (.performed action.name payload))
        have walked : ((s.rename π).paid (π.names out) (π.payloads payload)).walk (term.rename π) =
            ((s.paid out payload).walk term).rename π := Substitution.walk_paid free (avoids term plain)
        rwa [plain.rename] at walked

theorem corresponds_choosePayload (twins : Twins π past m n) {action : Action}
    (plain : action.Plain) {args : List Term}
    (known : ∀ term ∈ args, term.Named (Naming.Known past)) :
    Corresponds π (Option.Rel (Chooses π)) (Twins π past) ((choosePayload action args).run m)
      ((choosePayload (action.rename π) (args.map (Term.rename π))).run n) := by
  let out := (Naming.fresh m.nextId "outcome").key
  have unhinted : π.names "outcome" = "outcome" := π.plain (by decide) (by decide)
  have out' : Naming.fresh n.nextId "outcome" = .var (π.names out) := by
    have fresh := Term.fresh_rename π m.nextId "outcome"
    rw [unhinted, ← twins.nextId] at fresh
    exact fresh.symm
  have avoids {next : Int} (le : next ≤ m.nextId) {term : Term}
      (known : term.Named (Naming.Known next)) : term.Named (· ≠ out) :=
    known.imp fun name fine => fine m.nextId "outcome" le
  have named : ∀ term ∈ args, term.Named (· ≠ out) :=
    fun term inside => avoids twins.past (known term inside)
  have spent : Twins π past { m with nextId := m.nextId + 1 } { n with nextId := n.nextId + 1 } := by
    have later : m.nextId ≤ m.nextId + 1 := by omega
    have spent := twins.spend later
    rwa [show m.nextId + 1 + π.distance = n.nextId + 1 by rw [twins.nextId]; omega] at spent
  have inStep (_ : m.database.isLayered) : Search.InStep π m.database 1 (Search.Choice π out)
      (Search.Chosen π out) := by
    refine Search.inStep_choice twins.tame.rules (Search.kept_avoiding ?_ ?_)
    · exact fun r fact stored term inside =>
        avoids (Int.le_refl _) (twins.tame.facts r fact stored term inside)
    · exact fun named rule stored => use_avoids (twins.tame.rules _ rule stored) named _
  have related := Search.choice_of_entries (π := π) (fun entry inside => (plain entry inside).1)
    fun entry inside => (plain entry inside).1.goal_named
      (fun name fine => Naming.known_unmarked fine.1 m.nextId m.nextId "outcome" (Int.le_refl _))
      named
  have first := corresponds_firstAnswer spent inStep related
  have unsalted : ∀ entry ∈ (action.rename π).entries, entry.1.source = none := by
    intro entry inside
    obtain ⟨other, member, rfl⟩ := List.mem_map.mp inside
    exact (plain other member).2
  rw [run_choosePayload, run_choosePayload]
  simp only [out', Action.goal_unsalted unsalted,
    Action.goal_unsalted fun entry inside => (plain entry inside).2]
  exact corresponds_answered action
    (fun term plain => avoids (Int.le_refl _) (plain.known m.nextId)) first

end Choosing

section Resolving

/-- Tokens are resolved alike: to the same literals, and to variables that each machine mints for
itself. None of them is still to be minted. -/
theorem exists_resolved {s t : Substitution} {terms : List Term}
    (walks : ∀ term ∈ terms, t.walk term = (s.walk term).rename π) (given : Table Term)
    (past : ∀ name new, given.get? name = some new → new.Named (Naming.Known m.nextId))
    (distance : n.nextId = m.nextId + π.distance) :
    ∃ args id, m.nextId ≤ id ∧ (∀ arg ∈ args, arg.Named (Naming.Known id)) ∧
      (resolveFresh s terms given).run m = (.ok args, { m with nextId := id }) ∧
      (resolveFresh t terms (given.mapped π.names (Term.rename π))).run n =
        (.ok (args.map (Term.rename π)), { n with nextId := id + π.distance }) := by
  induction terms generalizing given m n with
  | nil => exact ⟨[], m.nextId, Int.le_refl _, nofun, rfl, by rw [← distance]; rfl⟩
  | cons term terms ih =>
    obtain ⟨here, later⟩ := List.forall_mem_cons.mp walks
    cases reached : s.walk term with
    | lit value =>
      rw [reached] at here
      obtain ⟨args, id, le, known, run, run'⟩ := ih later _ past distance
      exact ⟨.lit value :: args, id, le, List.forall_mem_cons.mpr ⟨trivial, known⟩,
        run_resolveFresh_literal reached run, run_resolveFresh_literal here run'⟩
    | var name =>
      rw [reached] at here
      have kept := given.get?_mapped π.names (Term.rename π) name
      cases found : given.get? name with
      | some new =>
        rw [found] at kept
        obtain ⟨args, id, le, known, run, run'⟩ := ih later _ past distance
        have old : new.Named (Naming.Known id) := (past name new found).imp fun _ => .mono le
        exact ⟨new :: args, id, le, List.forall_mem_cons.mpr ⟨old, known⟩,
          run_resolveFresh_known reached found run, run_resolveFresh_known here kept run'⟩
      | none =>
        rw [found] at kept
        let new := Naming.fresh m.nextId name
        have minted : new.Named (Naming.Known (m.nextId + 1)) :=
          Naming.known_fresh (by omega) name
        have more (other : String) (value : Term)
            (there : (given.put name new).get? other = some value) :
            value.Named (Naming.Known (m.nextId + 1)) := by
          rw [Table.get?_put] at there
          split at there
          · exact Option.some.inj there ▸ minted
          · exact (past other value there).imp fun _ => .mono (by omega)
        have fresh : new.rename π = Naming.fresh n.nextId (π.names name) := by
          rw [distance]
          exact Term.fresh_rename π m.nextId name
        obtain ⟨args, id, le, known, run, run'⟩ := ih (m := { m with nextId := m.nextId + 1 })
          (n := { n with nextId := n.nextId + 1 }) later _ more (by dsimp only; omega)
        dsimp only at le
        rw [Table.mapped_put, fresh] at run'
        have both := run_resolveFresh_fresh here kept run'
        rw [← fresh] at both
        exact ⟨new :: args, id, by omega, List.forall_mem_cons.mpr
          ⟨minted.imp fun _ => .mono le, known⟩, run_resolveFresh_fresh reached found run, both⟩

end Resolving

section Hosting
variable {host : Type} {H : host → host → Prop}

def Beside (π : Renaming) (past : Int) (H : host → host → Prop) (s t : Machine × host) : Prop :=
  Twins π past s.1 t.1 ∧ H s.2 t.2

theorem corresponds_machine {R : α → β → Prop} {operation : MachineM α} {other : MachineM β}
    {h g : host} (same : Corresponds π R (Twins π past) (operation.run m) (other.run n))
    (hosts : H h g) :
    Corresponds π R (Beside π past H) ((HostM.machine operation : HostM host α).run (m, h))
      ((HostM.machine other : HostM host β).run (n, g)) := by
  rw [run_machine, run_machine]
  generalize operation.run m = here, other.run n = there at same
  cases same with
  | ok result twins => exact .ok result ⟨twins, hosts⟩
  | error twins => exact .error ⟨twins, hosts⟩

theorem corresponds_afterwards {R : α → β → Prop} {operation : HostM host α}
    {other : HostM host β} {s t : Machine × host}
    (same : Corresponds π R (Beside π past H) (operation.run s) (other.run t))
    {change : Machine → Machine}
    (kept : ∀ m n, Twins π past m n → Twins π past (change m) (change n)) :
    Corresponds π R (Beside π past H) ((HostM.afterwards operation change).run s)
      ((HostM.afterwards other change).run t) := by
  rw [run_afterwards, run_afterwards]
  generalize operation.run s = here, other.run t = there at same
  cases same with
  | ok result states => exact .ok result ⟨kept _ _ states.1, states.2⟩
  | error states => exact .error ⟨kept _ _ states.1, states.2⟩

end Hosting

theorem Twins.entered (twins : Twins π past m n) (name : String) :
    Twins π past (m.entered name) (n.entered name) := by
  obtain ⟨⟨history⟩, tame, bound⟩ := twins
  exact ⟨.intro history, ⟨tame.rules, tame.facts, tame.exclusions, tame.actions, tame.payloads⟩,
    bound⟩

theorem Twins.left (twins : Twins π past m n) : Twins π past m.left n.left := by
  obtain ⟨⟨history⟩, tame, bound⟩ := twins
  exact ⟨.intro history, ⟨tame.rules, tame.facts, tame.exclusions, tame.actions, tame.payloads⟩,
    bound⟩

section Dispatching
variable {host : Type} {H : host → host → Prop}
variable {call : String → List (Option String) → HostM host Unit}

def CallsAlike (π : Renaming) (H : host → host → Prop)
    (call : String → List (Option String) → HostM host Unit) : Prop :=
  ∀ name values past s t, Beside π past H s t →
    Corresponds π Eq (Beside π past H) ((call name values).run s) ((call name values).run t)

/-- Performing does the same to twins, for arguments without variables that are still to be
minted. -/
def PerformsAlike (π : Renaming) (H : host → host → Prop)
    (perform : Action → List Term → HostM host Bool) : Prop :=
  ∀ action args past s t, action.Plain → (∀ term ∈ args, term.Named (Naming.Known past)) →
    Beside π past H s t →
    Corresponds π Eq (Beside π past H) ((perform action args).run s)
      ((perform (action.rename π) (args.map (Term.rename π))).run t)

theorem Beside.mono {earlier : Int} (le : earlier ≤ past) {s t : Machine × host}
    (beside : Beside π past H s t) : Beside π earlier H s t :=
  ⟨beside.1.mono le, beside.2⟩

theorem corresponds_addCallback (twins : Twins π past m n) (name : String) :
    Corresponds π Eq (Twins π past) ((addCallback name).run m) ((addCallback name).run n) := by
  rw [addCallback, run_modify, run_modify, twins.callbacks]
  refine .ok rfl ?_
  split
  · exact twins
  · obtain ⟨⟨history⟩, tame, bound⟩ := twins
    exact ⟨.intro history, ⟨tame.rules, tame.facts, tame.exclusions, tame.actions, tame.payloads⟩,
      bound⟩

/-- A callback's name, or that there is none, is read off the line. -/
theorem callbackName_unnamed (line : Line) (fault : Fault)
    (refused : line.callbackName = .error fault) : fault.rename π = fault := by
  unfold Line.callbackName at refused
  dsimp only at refused
  split at refused
  · cases refused
  · cases refused
    rfl

/-- The tokens of a line are resolved by each machine for itself; then the ids that this took are
past. -/
theorem exists_resolvedFor (twins : Twins π past m n) {s t : Substitution} {terms : List Term}
    (walks : ∀ term ∈ terms, t.walk term = (s.walk term).rename π) :
    ∃ args id, past ≤ id ∧ (∀ arg ∈ args, arg.Named (Naming.Known id)) ∧
      (resolveFresh s terms {}).run m = (.ok args, { m with nextId := id }) ∧
      (resolveFresh t terms {}).run n =
        (.ok (args.map (Term.rename π)), { n with nextId := id + π.distance }) ∧
      Twins π id { m with nextId := id } { n with nextId := id + π.distance } := by
  obtain ⟨args, id, le, known, run, run'⟩ :=
    exists_resolved walks {} nofun twins.nextId
  exact ⟨args, id, Int.le_trans twins.past le, known, run, run', (twins.spend le).present⟩

theorem corresponds_dispatch (calls : CallsAlike π H call)
    {nested : Action → List Term → HostM host Bool} (nests : PerformsAlike π H nested)
    {s t : Substitution} (walks : ∀ term : Term, term.Plain → t.walk term = (s.walk term).rename π)
    {line : Line} (plain : line.Plain) {here there : Machine × host}
    (beside : Beside π past H here there) :
    Corresponds π Eq (Beside π past H) ((dispatch call nested s line).run here)
      ((dispatch call nested t line).run there) := by
  obtain ⟨m, h⟩ := here
  obtain ⟨n, g⟩ := there
  obtain ⟨twins, hosts⟩ := beside
  have walked {kind : LineKind} (same : line.kind = kind) (text : kind ≠ .comment)
      (blank : kind ≠ .plain) : ∀ term ∈ line.phrase.args, t.walk term = (s.walk term).rename π :=
    fun term inside => walks term (plain (same ▸ text) (same ▸ blank) term inside)
  unfold dispatch
  split
  · rename_i kind
    have walked := walked kind (by decide) (by decide)
    refine (corresponds_machine (Corresponds.lift (callbackName_unnamed line) twins) hosts).bind
      fun name other here there same beside => ?_
    subst same
    rw [run_bind, run_get, run_bind, run_get]
    dsimp only
    have callbacks : there.1.callbacks = here.1.callbacks := beside.1.callbacks
    have values : t.valuesOf line.phrase.args = s.valuesOf line.phrase.args := by
      rw [Substitution.valuesOf, Substitution.valuesOf, Substitution.reify, Substitution.reify,
        List.map_map, List.map_map]
      refine List.map_congr_left fun term inside => ?_
      rw [Function.comp_apply, walked term inside, Term.value?_rename]
      rfl
    rw [callbacks, values]
    split
    · exact .refused rfl beside
    · exact calls name _ past _ _ beside
  · rename_i kind
    refine corresponds_machine ?_ hosts
    obtain ⟨args, id, le, known, run, run', resolved⟩ :=
      exists_resolvedFor twins (walked kind (by decide) (by decide))
    rw [run_bind_ok run, run_bind_ok run', run_bind, run_get, run_bind, run_get]
    dsimp only
    have create : (!n.strict) = !m.strict := congrArg (!·) twins.strict
    rw [create]
    exact (corresponds_assert resolved line.phrase.key known (!m.strict)).imp (fun _ _ same => same)
      fun _ _ => Twins.mono le
  · rename_i kind
    refine (corresponds_machine (corresponds_actionFor twins line.phrase.key false) hosts).bind ?_
    rintro action _ ⟨m, h⟩ ⟨n, g⟩ ⟨rfl, fine⟩ ⟨twins, hosts⟩
    obtain ⟨args, id, le, known, run, run', resolved⟩ :=
      exists_resolvedFor twins (walked kind (by decide) (by decide))
    rw [run_bind, run_machine, run, run_bind, run_machine, run']
    have performed := nests action args id _ _ fine known (show Beside π id H (_, h) (_, g) from
      ⟨resolved, hosts⟩)
    exact (performed.imp (fun _ _ same => same) fun _ _ => .mono le).bind
      fun _ _ _ _ _ beside => .ok rfl beside
  · exact .ok rfl ⟨twins, hosts⟩

theorem performsAlike (calls : CallsAlike π H call) (depth : Nat) :
    PerformsAlike π H (performWithin call depth) := by
  induction depth with
  | zero => exact fun _ _ _ _ _ _ _ beside => .refused rfl beside
  | succ depth ih =>
    rintro action args past ⟨m, h⟩ ⟨n, g⟩ plain known ⟨twins, hosts⟩
    rw [run_performWithin, run_performWithin]
    have running : n.running = m.running := twins.running
    rw [show (action.rename π).name = action.name from rfl, running]
    split
    · exact .refused rfl ⟨twins, hosts⟩
    have chosen := corresponds_choosePayload twins plain known
    generalize (choosePayload action args).run m = here,
      (choosePayload (action.rename π) (args.map (Term.rename π))).run n = there at chosen
    cases chosen with
    | error twins => exact .error ⟨twins, hosts⟩
    | @ok _ _ m n answer twins =>
      cases answer with
      | none => exact .ok rfl ⟨twins, hosts⟩
      | @some one other chooses =>
        obtain ⟨payload, s⟩ := one
        obtain ⟨payload', t⟩ := other
        obtain ⟨same, walks⟩ := chooses
        dsimp only at same walks ⊢
        subst same
        have lines : (n.payloads.get? (π.payloads payload)).getD [] =
            (m.payloads.get? payload).getD [] := by
          rw [twins.payload]
        have inside : Beside π past H (m.entered action.name, h) (n.entered action.name, g) :=
          ⟨twins.entered action.name, hosts⟩
        have ran : Corresponds π Eq (Beside π past H)
            ((payloadRun call depth payload s m).run (m.entered action.name, h))
            ((payloadRun call depth (π.payloads payload) t n).run (n.entered action.name, g)) := by
          unfold payloadRun
          rw [lines]
          exact corresponds_afterwards (Corresponds.forM_same (fun line among _ _ beside =>
            corresponds_dispatch calls ih walks (twins.tame.payloads payload line among) beside)
            inside) fun _ _ twins => twins.left
        generalize (payloadRun call depth payload s m).run _ = here,
          (payloadRun call depth (π.payloads payload) t n).run _ = there at ran
        cases ran with
        | ok _ beside => exact .ok rfl beside
        | error beside => exact .error beside

theorem corresponds_performTo (calls : CallsAlike π H call) (depth : Nat) {phrase : Phrase}
    (plain : ∀ term ∈ phrase.args, term.Plain) {s t : Machine × host}
    (beside : Beside π past H s t) :
    Corresponds π Eq (Beside π past H) ((performTo depth call phrase).run s)
      ((performTo depth call phrase).run t) := by
  refine (corresponds_machine (corresponds_actionFor beside.1 phrase.key false) beside.2).bind
    fun action other s t ⟨same, fine⟩ beside => ?_
  subst same
  have performed := performsAlike calls depth action phrase.args past s t fine
    (fun term inside => (plain term inside).known past) beside
  rwa [map_rename_plain π plain] at performed

end Dispatching

end Machine
end Rulebook
