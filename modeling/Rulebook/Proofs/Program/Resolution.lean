import Rulebook.Proofs.Guard
import Rulebook.Proofs.Program.Alternatives
import Rulebook.Proofs.Search.Enumeration

/-! What an action resolves to. Whether it is asked for the payload on a workbench or performed by a
machine, the payload is that of its first rule that has an answer; the two entry points use up ids
of their own and have variables of their own for the payload. -/
namespace Rulebook

namespace Workbench
variable {w w' : Workbench} {name ids : String} {action : Action}

theorem run_action (name : String) (w : Workbench) :
    (Workbench.action name).run w =
      match w.actions.get? name with
      | some draft =>
        (.ok ⟨draft.name, draft.entries.map fun (id, payload) => (w.ruleAt id, payload)⟩, w)
      | none => (.error (.unknownName name), w) := by
  unfold Workbench.action held
  rw [run_bind, run_get]
  dsimp only
  rw [run_bind]
  cases w.actions.get? name <;> rfl

/-- An id is minted, from a new source if there is none of the name. -/
theorem run_mintId (ids : String) (w : Workbench) :
    ∃ id progress sources, (mintId ids).run w = (.ok id, { w with progress, sources }) := by
  have source : ∃ source progress sources,
      (sourceOf ids).run w = (.ok source, { w with progress, sources }) := by
    unfold sourceOf
    rw [run_bind, run_get]
    dsimp only
    cases w.sources.get? ids with
    | none => exact ⟨_, _, _, rfl⟩
    | some source => exact ⟨source, w.progress, w.sources, rfl⟩
  obtain ⟨source, progress, sources, run⟩ := source
  rw [mintId, run_bind_ok run]
  exact ⟨_, _, _, rfl⟩

theorem run_harvest (layered : w.database.isLayered) (wanted : Option Nat) {search : Search}
    (finite : search.isFinite) :
    (harvest wanted search).run w =
      (.ok (search.harvest w.database wanted w.progress),
        { w with progress := (search.harvest w.database wanted w.progress).progress }) := by
  unfold harvest
  rw [run_bind, run_get]
  simp only [layered, finite, Bool.and_self, if_true]
  rfl

/-- The first answer to a goal whose search stops there or ends. -/
theorem run_first {goal : Goal} (layered : w.database.isLayered) (searchable : goal.isSearchable)
    (finite : (Search.pending goal .empty).isFinite) {found : Harvest}
    (same : (Search.pending goal .empty).harvest w.database (some 1) w.progress = found)
    (stop : found.stop = .enough ∨ found.stop = .ended) :
    (first goal .empty).run w = (.ok found.answers.head?, { w with progress := found.progress }) := by
  have started : (Search.start goal .empty : Except Fault Search) = .ok (.pending goal .empty) := by
    rw [Search.start, if_pos searchable]
  have wanted : Search.wantedOf 1 = .ok 1 := rfl
  have unlifted {α : Type} (value : α) :
      (liftM (Except.ok value : Except Fault α) : WorkbenchM α).run w = (.ok value, w) := rfl
  have harvested := run_harvest layered (some 1) finite
  rw [same] at harvested
  have ran : (run goal .empty (some 1)).run w =
      (.ok found.answers, { w with progress := found.progress }) := by
    unfold run
    rw [started]
    dsimp only
    rw [wanted]
    rw [run_bind_ok (unlifted _), run_bind_ok (unlifted _), run_bind_ok harvested]
    unfold answersOf
    rcases stop with enough | ended
    · rw [enough]
      rfl
    · rw [ended]
      rfl
  rw [first, run_bind_ok ran]
  rfl

/-- The payload for arguments is the one in the first answer to the action. -/
theorem run_payloadFor {id : Int} {out : String} (acyclic : w.database.Acyclic)
    (known : (Workbench.action name).run w = (.ok action, w))
    (minted : (mintId ids).run w = (.ok id, w')) (outcome : Naming.fresh id "outcome" = .var out)
    (args : List Term) :
    (payloadFor name args ids).run w =
      (.ok ((action.asked w.database args out (some 1) w'.progress).answers.head?.map fun s =>
          (s.walk (.var out)).key),
        { w' with
          progress := (action.asked w.database args out (some 1) w'.progress).progress }) := by
  obtain ⟨_, progress, sources, made⟩ := run_mintId ids w
  cases minted.symm.trans made
  have again : (Workbench.action name).run { w with progress, sources } =
      (.ok action, { w with progress, sources }) := by
    rw [run_action] at known ⊢
    dsimp only
    cases drafted : w.actions.get? name with
    | none =>
      rw [drafted] at known
      cases known
    | some draft =>
      rw [drafted] at known
      cases known
      rfl
  have opened : (actionGoal name args (Naming.fresh id "outcome")).run { w with progress, sources } =
      (.ok (action.goal args (.var out) progress).1,
        { w with progress := (action.goal args (.var out) progress).2, sources }) := by
    rw [actionGoal, run_bind_ok again, run_bind, run_get, outcome]
    rfl
  have named := Action.branches_named args (.var out) action.entries progress
  have finite : (Search.pending (action.goal args (.var out) progress).1 .empty).isFinite :=
    (Goal.Named.any named).isFinite
  rw [payloadFor, run_bind_ok known, run_bind_ok minted]
  dsimp only
  have asked : (first (action.goal args (.var out) progress).1 .empty).run
      { w with progress := (action.goal args (.var out) progress).2, sources } =
      (.ok (action.asked w.database args out (some 1) progress).answers.head?,
        { w with
          progress := (action.asked w.database args out (some 1) progress).progress, sources }) :=
    run_first (w := { w with progress := (action.goal args (.var out) progress).2, sources })
      acyclic.layered rfl finite rfl (action.asked_stops acyclic args out (some 1) progress)
  rw [run_bind_ok opened, run_bind_ok asked, outcome]
  rfl

end Workbench

namespace Machine
variable {m : Machine} {action : Action} {args : List Term} {out : String}

/-- Using rules takes ids and nothing else. -/
theorem exists_branches (args : List Term) (out : Term) (entries : List (Rule × String)) (id : Int) :
    ∃ next, (Action.branches args out entries ⟨[id], []⟩).2 = ⟨[next], []⟩ := by
  induction entries generalizing id with
  | nil => exact ⟨id, rfl⟩
  | cons entry entries ih =>
    have used : ∃ next, (entry.1.use args ⟨[id], []⟩).2 = ⟨[next], []⟩ := by
      unfold Rule.use Progress.advance
      split
      · exact ⟨id, rfl⟩
      · rename_i source _
        cases source with
        | zero => exact ⟨id + 1, rfl⟩
        | succ source => exact ⟨id, by simp⟩
    obtain ⟨next, used⟩ := used
    obtain ⟨last, same⟩ := ih next
    refine ⟨last, ?_⟩
    rw [Action.branches]
    dsimp only
    rw [used, same]

/-- The payload that is chosen is the one in the first answer to the action. -/
theorem run_choosePayload_asked (acyclic : m.database.Acyclic)
    (outcome : Naming.fresh m.nextId "outcome" = .var out) {found : Harvest}
    (same : action.asked m.database args out (some 1) ⟨[m.nextId + 1], []⟩ = found) :
    ∃ n, (choosePayload action args).run m =
      (.ok (found.answers.head?.map fun s => ((s.walk (.var out)).key, s)), n) := by
  obtain ⟨next, opened⟩ := exists_branches args (.var out) action.entries (m.nextId + 1)
  have stop := action.asked_stops acyclic args out (some 1) ⟨[m.nextId + 1], []⟩
  rw [same] at stop
  have asked : (Search.pending (action.goal args (.var out) ⟨[m.nextId + 1], []⟩).1 .empty).harvest
      m.database (some 1) ⟨[next], []⟩ = found := by
    rw [← opened, ← same]
    rfl
  have spent : (action.goal args (.var out) ⟨[m.nextId + 1], []⟩).2.nextId source = next :=
    congrArg (Progress.nextId · source) opened
  have answered : (firstAnswer (action.goal args (.var out) ⟨[m.nextId + 1], []⟩).1).run
      { m with nextId := next } =
      (.ok found.answers.head?, { m with nextId := found.progress.nextId source }) := by
    rw [firstAnswer, run_bind, run_harvest]
    dsimp only
    rw [asked]
    rcases stop with enough | ended
    · rw [enough]
      rfl
    · rw [ended]
      rfl
  rw [run_choosePayload]
  dsimp only
  rw [outcome, spent, answered]
  cases found.answers.head? with
  | none => exact ⟨_, rfl⟩
  | some s => exact ⟨_, rfl⟩

section Performing
variable {host : Type} {call : String → List (Option String) → HostM host Unit} {depth : Nat}
  {h : host}

/-- What comes of performing an action: its payload is run, and true comes back if that does not
fail; or, if there is no payload, false. -/
def Enacts (m : Machine) (action : Action) (args : List Term)
    (call : String → List (Option String) → HostM host Unit) (depth : Nat) (h : host)
    (outcome : Except Fault Bool × Machine × host) : Option String → Prop
  | none => outcome = (.ok false, ((choosePayload action args).run m).2, h)
  | some payload => ∃ s n, (choosePayload action args).run m = (.ok (some (payload, s)), n) ∧
      outcome = (payloadRun call depth payload s n >>= fun _ => pure true).run
        (n.entered action.name, h)

/-- An action that is not running is performed with what is chosen. -/
theorem enacts_performWithin (free : action.name ∉ m.running)
    {found : Option (String × Substitution)} {n : Machine}
    (chosen : (choosePayload action args).run m = (.ok found, n)) :
    m.Enacts action args call depth h
      ((performWithin call (depth + 1) action args).run (m, h)) (found.map (·.1)) := by
  rw [run_performWithin, if_neg free]
  cases found with
  | none => rw [Option.map_none, Enacts, chosen]
  | some found =>
    obtain ⟨payload, s⟩ := found
    refine ⟨s, n, chosen, ?_⟩
    rw [chosen, run_bind]
    dsimp only
    generalize (payloadRun call depth payload s n).run (n.entered action.name, h) = ran
    obtain ⟨result, t⟩ := ran
    cases result <;> rfl

/-- False comes back just if there is no payload. -/
theorem Enacts.false_iff {outcome : Except Fault Bool × Machine × host}
    {payload : Option String} (enacts : m.Enacts action args call depth h outcome payload) :
    outcome.1 = .ok false ↔ payload = none := by
  cases payload with
  | none =>
    rw [Enacts] at enacts
    simp [enacts]
  | some payload =>
    obtain ⟨s, n, _, rfl⟩ := enacts
    rw [run_bind]
    generalize (payloadRun call depth payload s n).run (n.entered action.name, h) = ran
    obtain ⟨result, t⟩ := ran
    cases result with
    | error fault => simp
    | ok done => simp [run_pure]

end Performing
end Machine

namespace Action

/-- What it is for an action to resolve to its first rule that holds, given what each of its rules
answers by itself. -/
structure Resolves (db : Database) (action : Action) (args : List Term) (source : SourceId)
    (results : List Harvest) : Prop where
  /-- No rule is searched for ever. -/
  ended : ∀ found ∈ results, found.stop = .ended
  /-- The action has one answer for each answer of each rule, with the rule's payload. -/
  answers : ∀ {out : String} {p : Progress}, source < p.nextIds.length →
    ¬action.Mentions db args out → action.Avoids db args (action.Salted db source args out none p) →
    ¬action.Salted db source args out none p out →
    (action.asked db args out none p).stop = .ended ∧
      ∃ given, given.Perm (paidAnswers action.entries results).flatten ∧
        List.Forall₂ (Substitution.Pays (action.Mentions db args) out) given
          (action.asked db args out none p).answers
  /-- The payload for the arguments is that of the first rule that has an answer. -/
  payload : ∀ {w w' : Workbench} {name ids : String} {id : Int}, w.database = db →
    (Workbench.action name).run w = (.ok action, w) →
    (Workbench.mintId ids).run w = (.ok id, w') → source < w'.progress.nextIds.length →
    (∀ name, action.Mentions db args name → .var name ≠ Naming.fresh id "outcome") →
    action.Avoids db args
      (action.Salted db source args (Naming.fresh id "outcome").key (some 1) w'.progress) →
    ((Workbench.payloadFor name args ids).run w).1 = .ok (firstHolding action.entries results)
  /-- The action is performed with this payload, on any machine with these relations. -/
  performed : ∀ {m : Machine} {phrase : Phrase} {host : Type}
    (call : String → List (Option String) → HostM host Unit) (depth : Nat) (h : host),
    m.database = db → Machine.source = source → m.actions.get? phrase.key = some action →
    phrase.args = args → action.name ∉ m.running →
    (∀ name, action.Mentions db args name → .var name ≠ Naming.fresh m.nextId "outcome") →
    action.Avoids db args (action.Salted db source args (Naming.fresh m.nextId "outcome").key
      (some 1) ⟨[m.nextId + 1], []⟩) →
    m.Enacts action args call depth h ((Machine.performTo (depth + 1) call phrase).run (m, h))
        (firstHolding action.entries results) ∧
      (((Machine.performTo (depth + 1) call phrase).run (m, h)).1 = .ok false ↔
        firstHolding action.entries results = none)

section Resolving
variable {db : Database} {action : Action} {args : List Term} {source : SourceId}
  {results : List Harvest}

theorem not_plain_of_salts {rule : Rule} {p : Progress} {name : String}
    (salts : rule.Salts source p name) : ¬Naming.Plain name := by
  obtain ⟨_, own, _, rfl⟩ := salts
  exact fun plain => plain _ own rfl

theorem not_plain_of_search {search : Search} {p : Progress} {last : Int} {name : String}
    (salts : search.Salts db source p last name) : ¬Naming.Plain name := by
  obtain ⟨_, _, _, _, _, _, _, salts⟩ := salts
  exact not_plain_of_salts salts

theorem not_plain_of_entries {entries : List (Rule × String)} {p : Progress} {name : String}
    (salts : EntriesSalt source args entries p name) : ¬Naming.Plain name := by
  induction entries generalizing p with
  | nil => cases salts
  | cons entry entries ih =>
    rcases salts with here | later
    · exact not_plain_of_salts here
    · exact ih later

theorem not_plain_of_asked {rule : Rule} {p : Progress} {name : String}
    (salted : rule.Salted db source args p name) : ¬Naming.Plain name :=
  salted.elim not_plain_of_salts not_plain_of_search

theorem not_plain_of_salted {out : String} {wanted : Option Nat} {p : Progress} {name : String}
    (salted : action.Salted db source args out wanted p name) : ¬Naming.Plain name :=
  salted.elim not_plain_of_entries not_plain_of_search

/-- A fresh variable is not salted. -/
theorem not_salted_fresh {id : Int} {out : String} (outcome : Naming.fresh id "outcome" = .var out)
    (wanted : Option Nat) (p : Progress) : ¬action.Salted db source args out wanted p out := by
  obtain ⟨name, same, _, slashless⟩ :=
    Naming.exists_fresh (show '/' ∉ "outcome".toList by decide) id
  cases outcome.symm.trans same
  exact fun salted => not_plain_of_salted salted (Naming.plain_of_slashless slashless)

theorem exists_of_results (each : Results db action args source results) {found : Harvest}
    (inside : found ∈ results) :
    ∃ entry : Rule × String, ∃ p, found = entry.1.asked db args p := by
  unfold Results at each
  generalize action.entries = entries at each
  induction each with
  | nil => cases inside
  | cons here _ ih =>
    rcases List.mem_cons.mp inside with rfl | later
    · obtain ⟨p, _, same, _⟩ := here
      exact ⟨_, p, same⟩
    · exact ih later

/-- An action over an acyclic database resolves to its first rule that holds, on both entry points,
if all salts come from one source and nothing in the arguments, in the rules as they are written or
in the facts has a name that is salted. -/
theorem resolves_to_first_holding (acyclic : db.Acyclic) (one : OneSource db action source)
    (each : Results db action args source results) : action.Resolves db args source results := by
  constructor
  · intro found inside
    obtain ⟨entry, p, rfl⟩ := exists_of_results each inside
    exact (gives_asked acyclic entry.1 args p).1
  · intro out p inside fresh avoids apart
    obtain ⟨given, left, same, pays, ⟨_, all⟩ | ⟨stop, rfl⟩⟩ :=
      asked_inTurn acyclic one each inside avoids fresh apart
    · cases all
    · refine ⟨stop, given, ?_, pays⟩
      rw [List.append_nil] at same
      rw [← same]
      exact perm_takeTurns _
  · rintro w w' name ids id rfl known minted inside fresh avoids
    obtain ⟨out, outcome, _⟩ := Naming.exists_fresh (show '/' ∉ "outcome".toList by decide) id
    rw [outcome, Term.key] at avoids
    rw [Workbench.run_payloadFor acyclic known minted outcome,
      payload_asked acyclic one each inside avoids ?_ (not_salted_fresh outcome _ _)]
    exact fun mentioned => fresh out mentioned outcome.symm
  · rintro m phrase host call depth h rfl rfl declared rfl free fresh avoids
    obtain ⟨out, outcome, _⟩ :=
      Naming.exists_fresh (show '/' ∉ "outcome".toList by decide) m.nextId
    rw [outcome, Term.key] at avoids
    obtain ⟨n, chosen⟩ := Machine.run_choosePayload_asked acyclic outcome rfl
    have payload := payload_asked (p := ⟨[m.nextId + 1], []⟩) acyclic one each Nat.zero_lt_one avoids
      (fun mentioned => fresh out mentioned outcome.symm) (not_salted_fresh outcome _ _)
    have enacts : m.Enacts action phrase.args call depth h
        ((Machine.performWithin call (depth + 1) action phrase.args).run (m, h)) _ :=
      Machine.enacts_performWithin free chosen
    rw [Option.map_map] at enacts
    rw [Machine.run_performTo declared, ← payload]
    exact ⟨enacts, enacts.false_iff⟩

end Resolving

/-- If all terms are plain, no name that occurs is one of a fresh or a salted variable. -/
theorem plain_of_vocabulary {db : Database} {action : Action} {args : List Term}
    (plain : ∀ term ∈ action.vocabulary db args, term.Plain) {name : String}
    (mentioned : action.Mentions db args name) : '?' ∉ name.toList ∧ '/' ∉ name.toList :=
  plain _ mentioned

theorem avoids_of_vocabulary {db : Database} {action : Action} {args : List Term}
    (plain : ∀ term ∈ action.vocabulary db args, term.Plain) {names : String → Prop}
    (salted : ∀ name, names name → ¬Naming.Plain name) : action.Avoids db args names :=
  fun name mentioned made =>
    salted name made (Naming.plain_of_slashless (plain_of_vocabulary plain mentioned).2)

/-- A nod to oneself, a bow to a grandparent, a wave to a parent. -/
def greet : Action where
  name := "greet"
  entries := [
    ({ params := [.var "x"], conditions := [(0, [.var "x", .var "x"])], source := some 0 }, "nod"),
    ({ params := [.var "x"], conditions := [(1, [.var "x", .var "y"])], source := some 0 }, "bow"),
    ({ params := [.var "v"], conditions := [(0, [.var "v", .var "w"])] }, "wave")]

def greeting : Workbench where
  database := kinship
  progress := ⟨[7], []⟩
  sources := Table.empty.put "ids" 0
  ruleList := greet.entries.map (·.1)
  actions := Table.empty.put "greet" ⟨"greet", [(0, "nod"), (1, "bow"), (2, "wave")]⟩

def greeter : Machine where
  database := kinship
  nextId := 7
  actions := Table.empty.put "greet" greet

theorem acyclic_kinship : kinship.Acyclic := by
  refine ⟨?_, by decide⟩
  rintro (_ | _ | r) c asked <;>
    simp_all [kinship, Database.Depends, Database.relation, Relation.dependencies, Rule.relations]

theorem oneSource_greet : OneSource kinship greet 0 := by
  constructor
  · decide
  · rintro (_ | _ | r) rule stored <;> simp_all [kinship, Database.relation]

/-- Ann is no parent of herself, but a grandparent, as well as a parent. -/
theorem resolves_to_first_holding_greeting :
    ((Workbench.payloadFor "greet" [.lit "ann"] "ids").run greeting).1 = .ok (some "bow") ∧
      ((Machine.performTo 1 (fun _ _ => pure ⟨⟩ : String → List (Option String) → HostM Unit Unit)
        ⟨"greet", [.lit "ann"]⟩).run (greeter, ⟨⟩)).1 ≠ .ok false := by
  have plain : ∀ term ∈ greet.vocabulary kinship [.lit "ann"], term.Plain := by decide +kernel
  have each : Results kinship greet [.lit "ann"] 0
      (greet.entries.map fun entry => entry.1.asked kinship [.lit "ann"] ⟨[7], []⟩) := by
    rw [Results, List.forall₂_map_right_iff, List.forall₂_same]
    exact fun entry _ => ⟨⟨[7], []⟩, by decide, rfl,
      avoids_of_vocabulary plain fun _ => not_plain_of_asked⟩
  have resolves := resolves_to_first_holding acyclic_kinship oneSource_greet each
  have first : firstHolding greet.entries
      (greet.entries.map fun entry => entry.1.asked kinship [.lit "ann"] ⟨[7], []⟩) =
      some "bow" := by decide +kernel
  have fresh (name : String) (mentioned : greet.Mentions kinship [.lit "ann"] name) :
      .var name ≠ Naming.fresh 7 "outcome" := by
    obtain ⟨out, same, marked, _⟩ := Naming.exists_fresh (show '/' ∉ "outcome".toList by decide) 7
    rw [same]
    rintro ⟨⟩
    exact (plain_of_vocabulary plain mentioned).1 marked
  have minted : (Workbench.mintId "ids").run greeting =
      (.ok 7, { greeting with progress := ⟨[8], []⟩ }) := rfl
  have known : (Workbench.action "greet").run greeting = (.ok greet, greeting) := rfl
  constructor
  · rw [resolves.payload rfl known minted (by decide) fresh
      (avoids_of_vocabulary plain fun _ => not_plain_of_salted), first]
  · let query : Phrase := ⟨"greet", [.lit "ann"]⟩
    have declared : greeter.actions.get? query.key = some greet := rfl
    obtain ⟨_, refused⟩ := resolves.performed (m := greeter)
      (fun _ _ => pure ⟨⟩ : String → List (Option String) → HostM Unit Unit) 0 ⟨⟩ rfl rfl declared
      rfl (by decide) fresh (avoids_of_vocabulary plain fun _ => not_plain_of_salted)
    intro none
    rw [refused, first] at none
    cases none

/-- Rules with salts from two sources, each of which begins at 0. -/
def colliding : Workbench where
  database := ⟨[
    { name := "one", arity := some 1, facts := [[.lit "1"]] },
    { name := "two", arity := some 1, facts := [[.lit "2"]] },
    { name := "never" },
    { name := "inner", arity := some 1, rules := [
      { params := [.var "w"], conditions := [(1, [.var "x"])], source := some 1 }] }]⟩
  progress := ⟨[0, 0], []⟩
  ruleList := [
    { params := [.var "v"], conditions := [(2, [])], source := some 0 },
    { params := [.var "z"], conditions := [(0, [.var "x"]), (3, [.var "z"])], source := some 0 }]
  actions := Table.empty.put "act" ⟨"act", [(0, "first"), (1, "second")]⟩

/-- Two sources may mint the same salt. By itself the second rule then has no answer, as one
variable would be two texts; after a use of the first, whose id sets the two apart, it has one. -/
theorem salts_collide :
    ∃ action, (Workbench.action "act").run colliding = (.ok action, colliding) ∧
      colliding.database.Acyclic ∧
      (∀ term ∈ action.vocabulary colliding.database [.lit "c"], term.Plain) ∧
      firstHolding action.entries (action.entries.map fun entry =>
        entry.1.asked colliding.database [.lit "c"] colliding.progress) = none ∧
      ((Workbench.payloadFor "act" [.lit "c"] "ids").run colliding).1 = .ok (some "second") := by
  refine ⟨_, rfl, ⟨?_, by decide⟩, by decide +kernel, by decide +kernel, by decide +kernel⟩
  rintro (_ | _ | _ | _ | r) c asked <;>
    simp_all [colliding, Database.Depends, Database.relation, Relation.dependencies, Rule.relations]

end Action
end Rulebook
