import Rulebook.Proofs.Machine.Running
import Rulebook.Proofs.Program.Payloads
import Rulebook.Proofs.Search.Choice

/-! Which payload an action runs, and on what. It is the payload of the earliest line under the key
that some valuation makes equal to the arguments with all conditions above it derivable. The tokens
of the payload get their texts under such a valuation, as far as all of them agree. -/
namespace Rulebook

namespace Machine
variable {m n : Machine}

section Choosing
variable {action : Action} {args : List Term} {σ : Valuation}

def alternative (args : List Term) (out : Term) (entry : Rule × String) : Goal :=
  .all [entry.1.goal args "", .unify out (.lit entry.2)]

theorem holds_alternative {out : Term} {entry : Rule × String} :
    (alternative args out entry).Holds m.database σ ↔
      (entry.1.goal args "").Holds m.database σ ∧ out.under σ = entry.2 := by
  constructor
  · rintro (_ | _ | goals)
    obtain ⟨rule, others⟩ := List.forall_mem_cons.mp goals
    cases List.forall_mem_singleton.mp others with
    | unify equal => exact ⟨rule, equal⟩
  · rintro ⟨rule, equal⟩
    exact .all (List.forall_mem_cons.mpr ⟨rule, List.forall_mem_singleton.mpr (.unify equal)⟩)

theorem rule_named (closed : ∀ term ∈ args, term.isLiteral) {rule : Rule} (plain : rule.Plain)
    {ok : String → Prop} (fine : ∀ name, '?' ∉ name.toList ∧ '/' ∉ name.toList → ok name) :
    (rule.goal args "").Named ok :=
  plain.goal_named fine fun term inside => .of_literal (closed term inside) ok

/-- A rule that holds can hold beside any text for a minted variable. -/
theorem holds_beside (closed : ∀ term ∈ args, term.isLiteral) {entry : Rule × String}
    (plain : entry.1.Plain) {name : String} (minted : '?' ∈ name.toList)
    (holds : (entry.1.goal args "").Holds m.database σ) :
    ∃ τ, (alternative args (.var name) entry).Holds m.database τ := by
  refine ⟨Function.update σ name entry.2, holds_alternative.mpr ⟨?_, Function.update_self ..⟩⟩
  have named : (entry.1.goal args "").Named (· ≠ name) :=
    rule_named closed plain fun other fine same => fine.1 (same ▸ minted)
  exact holds.agrees named fun other different => Function.update_of_ne different ..

theorem alternative_fresh (closed : ∀ term ∈ args, term.isLiteral) {entry : Rule × String}
    (plain : entry.1.Plain) {name : String} (slashless : '/' ∉ name.toList) {p : Progress}
    (inside : source < p.nextIds.length) :
    Search.FreshGoal source p (alternative args (.var name) entry) := by
  refine ⟨.all (List.forall_mem_cons.mpr ⟨?_, List.forall_mem_singleton.mpr ?_⟩), inside⟩
  · exact rule_named closed plain fun _ fine => Naming.not_toCome_slashless fine.2
  · exact .unify (Naming.not_toCome_slashless slashless) trivial

/-- A rule whose alternative has ended without an answer does not hold. -/
theorem not_holds_of_none (formed : m.WellFormed) (literal : m.database.Literal)
    (closed : ∀ term ∈ args, term.isLiteral) {entry : Rule × String} (plain : entry.1.Plain)
    {name : String} (minted : '?' ∈ name.toList) (slashless : '/' ∉ name.toList) {p r : Progress}
    (inside : source < p.nextIds.length)
    (none : Search.Answers m.database (alternative args (.var name) entry) p [] r) (σ : Valuation) :
    ¬(entry.1.goal args "").Holds m.database σ := by
  intro holds
  obtain ⟨τ, here⟩ := holds_beside closed plain minted holds
  obtain ⟨_, _, _, answer, _⟩ := none.complete literal formed.salted
    (alternative_fresh closed plain slashless inside) here
  cases answer

/-- No rule holds if the alternatives have ended without an answer. -/
theorem none_hold_of_none (formed : m.WellFormed) (literal : m.database.Literal)
    (closed : ∀ term ∈ args, term.isLiteral) {entries : List (Rule × String)}
    (plain : ∀ entry ∈ entries, entry.1.Plain) {name : String} (minted : '?' ∈ name.toList)
    (slashless : '/' ∉ name.toList) {p r : Progress} (inside : source < p.nextIds.length)
    (none : Search.Answers m.database (.any (entries.map (alternative args (.var name)))) p [] r) :
    ∀ entry ∈ entries, ∀ σ, ¬(entry.1.goal args "").Holds m.database σ := by
  intro entry member σ holds
  obtain ⟨τ, here⟩ := holds_beside closed (plain entry member) minted holds
  have fresh : Search.FreshGoal source p (.any (entries.map (alternative args (.var name)))) := by
    refine ⟨.any fun goal among => ?_, inside⟩
    obtain ⟨entry, member, rfl⟩ := List.mem_map.mp among
    exact (alternative_fresh closed (plain entry member) slashless inside).1
  obtain ⟨_, _, _, answer, _⟩ := none.complete literal formed.salted fresh
    (.any (List.mem_map_of_mem member) here)
  cases answer

/-- A payload is chosen by the first answer to the alternatives of all entries. -/
theorem run_choosePayload_alternatives (unsalted : ∀ entry ∈ action.entries, entry.1.source = none)
    {name : String} (out : Naming.fresh m.nextId "outcome" = .var name) :
    (choosePayload action args).run m =
      match (firstAnswer (.any (action.entries.map (alternative args (.var name))))).run
        { m with nextId := m.nextId + 1 } with
      | (.error fault, n) => (.error fault, n)
      | (.ok none, n) => (.ok none, n.idled action)
      | (.ok (some s), n) =>
        (.ok (some ((s.walk (.var name)).key, s)), n.chosen action (s.walk (.var name)).key) := by
  rw [run_choosePayload, out]
  dsimp only
  rw [Action.goal_unsalted unsalted]
  rfl

/-- Choosing a payload takes the first entry whose rule holds under some valuation; the answer it
comes with stands for such valuations only. -/
theorem choosePayload_first (formed : m.WellFormed) (literal : m.database.Literal)
    (closed : ∀ term ∈ args, term.isLiteral)
    (unsalted : ∀ entry ∈ action.entries, entry.1.source = none)
    (plain : ∀ entry ∈ action.entries, entry.1.Plain) :
    ∃ id, ((∀ entry ∈ action.entries, ∀ σ, ¬(entry.1.goal args "").Holds m.database σ) ∧
        (choosePayload action args).run m = (.ok none, ({ m with nextId := id }).idled action)) ∨
      ∃ before rule payload after s, action.entries = before ++ (rule, payload) :: after ∧
        (∀ entry ∈ before, ∀ σ, ¬(entry.1.goal args "").Holds m.database σ) ∧
        s.Settled ∧ (∀ σ, s.Holds σ → (rule.goal args "").Holds m.database σ) ∧
        (choosePayload action args).run m =
          (.ok (some (payload, s)), ({ m with nextId := id }).chosen action payload) := by
  obtain ⟨name, out, minted, slashless⟩ :=
    Naming.exists_fresh (show '/' ∉ "outcome".toList by decide) m.nextId
  have named : ∀ goal ∈ action.entries.map (alternative args (.var name)),
      goal.Named fun _ => True := by
    intro goal inside
    obtain ⟨entry, member, rfl⟩ := List.mem_map.mp inside
    exact (alternative_fresh (p := ⟨[0], []⟩) closed (plain entry member) slashless
      Nat.one_pos).1.imp fun _ _ => trivial
  obtain ⟨found, last, q, id, run, ended, first⟩ :=
    run_firstAnswer (m := { m with nextId := m.nextId + 1 }) formed.acyclic.layered (.any named)
  have chosen : (choosePayload action args).run m = _ := run_choosePayload_alternatives unsalted out
  rw [first] at chosen
  refine ⟨id, ?_⟩
  cases found with
  | nil =>
    obtain ⟨r, exhausted⟩ := ended rfl
    exact .inl ⟨none_hold_of_none (p := ⟨[m.nextId + 1], []⟩) formed literal closed plain minted
      slashless Nat.one_pos ⟨last, q, run, exhausted⟩, chosen⟩
  | cons s more =>
    obtain ⟨before, goal, after, parts, none, p, rest, r, later, answered⟩ :=
      run.exists_first_any named
    obtain ⟨front, back, entries, rfl, others⟩ := List.map_eq_append_iff.mp parts
    obtain ⟨⟨rule, payload⟩, behind, rfl, rfl, rfl⟩ := List.map_eq_cons_iff.mp others
    rw [entries] at plain
    obtain ⟨passed, here⟩ := List.forall_mem_append.mp plain
    have here : rule.Plain := here _ List.mem_cons_self
    have settled : (Search.pending (alternative args (.var name) (rule, payload)) .empty).IsSettled :=
      .pending (alternative_fresh (p := ⟨[0], []⟩) closed here slashless Nat.one_pos).1.isFinite
        Substitution.settled_empty
    have sound (σ : Valuation) (holds : s.Holds σ) :
        (rule.goal args "").Holds m.database σ ∧ σ name = payload := by
      cases answered.sound settled List.mem_cons_self holds with
      | pending _ here => exact holds_alternative.mp here
    have final := answered.settled settled List.mem_cons_self
    have reached : s.walk (.var name) = .lit payload :=
      Substitution.walk_of_forced final fun σ holds => (sound σ holds).2
    refine .inr ⟨front, rule, payload, behind, s, entries, fun entry among => ?_, final,
      fun σ holds => (sound σ holds).1, ?_⟩
    · obtain ⟨p, r, before, ended⟩ := none _ (List.mem_map_of_mem among)
      exact not_holds_of_none formed literal closed (passed entry among) minted slashless
        (before.1 ▸ Nat.one_pos) ended
    · rw [chosen]
      dsimp only [List.head?]
      rw [reached]
      rfl

end Choosing

structure PlainSite (site : Site) : Prop where
  tokens : ∀ term ∈ site.line.phrase.args, term.Plain
  conditions : ∀ line ∈ site.above, line.kind = .condition → ∀ term ∈ line.phrase.args, term.Plain

instance (site : Site) : Decidable (PlainSite site) :=
  decidable_of_iff ((∀ term ∈ site.line.phrase.args, term.Plain) ∧
      ∀ line ∈ site.above, line.kind = .condition → ∀ term ∈ line.phrase.args, term.Plain)
    ⟨fun plain => ⟨plain.1, plain.2⟩, fun plain => ⟨plain.tokens, plain.conditions⟩⟩

/-- The valuation makes the line's tokens equal to the arguments, and every condition above it
derivable. -/
structure Eligible (m : Machine) (args : List Term) (site : Site) (σ : Valuation) : Prop where
  tokens : site.line.phrase.args.map (Term.under σ) = args.map Term.key
  conditions : ∀ line ∈ site.above, line.kind = .condition →
    m.Derives line.phrase.key (line.phrase.args.map (Term.under σ))

section Lines
variable {key : String} {entry : Rule × String} {site : Site} {args : List Term} {σ : Valuation}

theorem Enters.plain (enters : m.Enters key entry site) (plain : PlainSite site) :
    entry.1.Plain := by
  refine ⟨enters.compiled.params ▸ plain.tokens, fun condition inside => ?_⟩
  obtain ⟨line, above, kind, _, same⟩ := enters.compiled.exists_line inside
  exact same ▸ plain.conditions line above kind

/-- What a line came to holds under the valuations that are eligible for the line. -/
theorem Enters.eligible_iff (enters : m.Enters key entry site)
    (closed : ∀ term ∈ args, term.isLiteral) :
    m.Eligible args site σ ↔ (entry.1.goal args "").Holds m.database σ := by
  have unsalted : (fun name => σ ("" ++ name)) = σ := funext fun name => by
    rw [String.empty_append]
  rw [Rule.holds_goal, unsalted, map_under_key closed, enters.compiled.params]
  constructor
  · intro eligible
    refine ⟨eligible.tokens.symm, fun condition inside => ?_⟩
    obtain ⟨line, above, kind, found, same⟩ := enters.compiled.exists_line inside
    obtain ⟨r, there, derivable⟩ := eligible.conditions line above kind
    rw [same]
    rwa [Option.some.inj (found.symm.trans there)]
  · rintro ⟨tokens, conditions⟩
    refine ⟨tokens.symm, fun line above kind => ?_⟩
    obtain ⟨condition, inside, found, same⟩ := enters.compiled.exists_condition above kind
    exact ⟨condition.1, found, same ▸ conditions condition inside⟩

end Lines

section Dispatching
variable {host : Type} {call : String → List (Option String) → HostM host Unit}

/-- A callback line calls its callback on what its tokens stand for, if the callback is there. -/
theorem run_dispatch_call {nested : Action → List Term → HostM host Bool} (s : Substitution)
    {line : Line} (kind : line.kind = .callback) (h : host) :
    (dispatch call nested s line).run (m, h) =
      match line.callbackName with
      | .error fault => (.error fault, (m, h))
      | .ok name =>
        if name ∈ m.callbacks then (call name (s.valuesOf line.phrase.args)).run (m, h)
        else (.error (.unregisteredCallback name), (m, h)) := by
  unfold dispatch
  rw [kind]
  dsimp only
  rw [run_bind, run_machine]
  cases line.callbackName with
  | error fault => rfl
  | ok name =>
    change (get >>= _ : HostM host Unit).run (m, h) = _
    rw [run_bind, run_get]
    dsimp only
    by_cases registered : name ∈ m.callbacks
    · rw [if_neg (not_not.mpr registered), if_pos registered]
    · rw [if_pos registered, if_neg registered]
      rfl

theorem run_dispatch_callback {nested : Action → List Term → HostM host Bool} (s : Substitution)
    {line : Line} (kind : line.kind = .callback) {name : String}
    (named : line.callbackName = .ok name) (registered : name ∈ m.callbacks) (h : host) :
    (dispatch call nested s line).run (m, h) =
      (call name (s.valuesOf line.phrase.args)).run (m, h) := by
  rw [run_dispatch_call s kind, named]
  dsimp only
  rw [if_pos registered]

/-- A claim line asserts what its tokens stand for, with fresh variables for those that are open. -/
theorem run_dispatch_claim (call : String → List (Option String) → HostM host Unit)
    (nested : Action → List Term → HostM host Bool) (s : Substitution) {line : Line}
    (kind : line.kind = .claim) (h : host) :
    ∃ args id, m.nextId ≤ id ∧ List.Forall₂ (Resolves s) line.phrase.args args ∧
      (dispatch call nested s line).run (m, h) =
        (HostM.machine (assert line.phrase.key args (!m.strict)) : HostM host Unit).run
          ({ m with nextId := id }, h) := by
  obtain ⟨args, id, run, le, _, all⟩ := run_resolveFresh s line.phrase.args no_renamings m
  refine ⟨args, id, le, all, ?_⟩
  unfold dispatch
  rw [kind]
  dsimp only
  rw [run_machine, run_machine, run_bind, run]
  rfl

end Dispatching

section Firing
variable {host : Type} {call : String → List (Option String) → HostM host Unit}

/-- What a token is given: its text under the valuation; or nothing, where other eligible valuations
give it any text and leave all that is resolved as it is. -/
structure Stands (m : Machine) (args : List Term) (site : Site) (σ : Valuation)
    (resolved : Term → Prop) (token : Term) (value : Option String) : Prop where
  text : ∀ text, value = some text → token.under σ = text
  any : value = none → ∀ text, ∃ τ, m.Eligible args site τ ∧ token.under τ = text ∧
    ∀ other, resolved other → other.under τ = other.under σ
  resolved : value ≠ none ↔ resolved token

/-- The line is the first that an eligible valuation exists for, and its payload is run under one
such valuation. -/
structure Fires (call : String → List (Option String) → HostM host Unit) (depth : Nat) (m : Machine)
    (h : host) (action : Action) (phrase : Phrase) (before : List Site) (site : Site) : Prop where
  earliest : ∀ earlier ∈ before, ∀ σ, ¬m.Eligible phrase.args earlier σ
  runs : ∃ s σ resolved payload id, m.Eligible phrase.args site σ ∧
    (performTo (depth + 1) call phrase).run (m, h) =
      (do
        HostM.afterwards (site.payload.forM (dispatch call (performWithin call depth) s)) left
        return true : HostM host Bool).run
        ((({ m with nextId := id }).chosen action payload).entered action.name, h) ∧
    ∀ line ∈ site.payload, ∀ (k : Machine) (g : host),
      (∀ name, line.kind = .callback → line.callbackName = .ok name → name ∈ k.callbacks →
        ∃ values, List.Forall₂ (m.Stands phrase.args site σ resolved) line.phrase.args values ∧
          (dispatch call (performWithin call depth) s line).run (k, g) =
            (call name values).run (k, g)) ∧
      (line.kind = .claim → ∃ args id,
        List.Forall₂ (fun token arg => m.Stands phrase.args site σ resolved token arg.value? ∧
          (arg.value? = none → ∃ id hint, arg = Naming.fresh id hint)) line.phrase.args args ∧
        (dispatch call (performWithin call depth) s line).run (k, g) =
          (HostM.machine (assert line.phrase.key args (!k.strict)) : HostM host Unit).run
            ({ k with nextId := id }, g))

/-- A settled answer that stands for eligible valuations only gives each token what it stands
for. -/
theorem exists_stands {args : List Term} {site : Site} {s : Substitution} (settled : s.Settled)
    (eligible : ∀ σ, s.Holds σ → m.Eligible args site σ) :
    ∃ σ, m.Eligible args site σ ∧ ∀ token,
      m.Stands args site σ (fun other => (s.walk other).isLiteral) token (s.walk token).value? := by
  refine ⟨s.reading fun _ => "", eligible _ (Substitution.holds_reading settled _), fun token => ?_⟩
  constructor
  case text =>
    intro text given
    rw [Substitution.under_reading]
    cases reached : s.walk token with
    | var name =>
      rw [reached] at given
      cases given
    | lit value =>
      rw [reached] at given
      exact Option.some.inj given
  case any =>
    intro opened text
    refine ⟨s.reading fun _ => text, eligible _ (Substitution.holds_reading settled _), ?_, ?_⟩
    · rw [Substitution.under_reading]
      cases reached : s.walk token with
      | var name => rfl
      | lit value =>
        rw [reached] at opened
        cases opened
    · intro other resolved
      rw [Substitution.under_reading, Substitution.under_reading]
      exact Term.under_congr (.of_literal resolved _)
  case resolved => cases s.walk token <;> simp [Term.value?, Term.isLiteral]

section Standing
variable {args : List Term} {site : Site} {s : Substitution} {σ : Valuation}
  (stands : ∀ token,
    m.Stands args site σ (fun other => (s.walk other).isLiteral) token (s.walk token).value?)
include stands

/-- A callback gets what the tokens of its line stand for. -/
theorem callback_stands {nested : Action → List Term → HostM host Bool} {line : Line}
    {k : Machine} {name : String} (kind : line.kind = .callback)
    (named : line.callbackName = .ok name) (registered : name ∈ k.callbacks) (g : host) :
    ∃ values, List.Forall₂ (m.Stands args site σ fun other => (s.walk other).isLiteral)
        line.phrase.args values ∧
      (dispatch call nested s line).run (k, g) = (call name values).run (k, g) := by
  refine ⟨_, ?_, run_dispatch_callback s kind named registered g⟩
  rw [Substitution.valuesOf, Substitution.reify, List.map_map]
  exact List.forall₂_map_right_iff.mpr (List.forall₂_same.mpr fun token _ => stands token)

/-- A claim asserts what the tokens of its line stand for. -/
theorem claim_stands {nested : Action → List Term → HostM host Bool} {line : Line} {k : Machine}
    (kind : line.kind = .claim) (g : host) :
    ∃ terms id, List.Forall₂ (fun token arg =>
        m.Stands args site σ (fun other => (s.walk other).isLiteral) token arg.value? ∧
          (arg.value? = none → ∃ id hint, arg = Naming.fresh id hint)) line.phrase.args terms ∧
      (dispatch call nested s line).run (k, g) =
        (HostM.machine (assert line.phrase.key terms (!k.strict)) : HostM host Unit).run
          ({ k with nextId := id }, g) := by
  obtain ⟨terms, id, _, all, ran⟩ := run_dispatch_claim call _ s kind g
  refine ⟨terms, id, all.imp fun token arg resolves => ?_, ran⟩
  have given := stands token
  rw [Resolves] at resolves
  split at resolves
  · rename_i value reached
    rw [reached] at given
    subst resolves
    refine ⟨given, fun absent => ?_⟩
    cases absent
  · rename_i name reached
    rw [reached] at given
    obtain ⟨id, rfl⟩ := resolves
    exact ⟨given, fun _ => ⟨id, name, rfl⟩⟩

end Standing

/-- Performing runs the lines of the payload that is chosen. -/
theorem run_performTo_chosen {action : Action} {phrase : Phrase}
    (declared : m.actions.get? phrase.key = some action) (free : action.name ∉ m.running)
    {payload : String} {s : Substitution} {n : Machine}
    (run : (choosePayload action phrase.args).run m = (.ok (some (payload, s)), n))
    {lines : List Line} (paid : (n.payloads.get? payload).getD [] = lines) (depth : Nat) (h : host) :
    (performTo (depth + 1) call phrase).run (m, h) =
      (do
        HostM.afterwards (lines.forM (dispatch call (performWithin call depth) s)) left
        return true : HostM host Bool).run (n.entered action.name, h) := by
  rw [run_performTo declared, run_performWithin, if_neg free, run, run_bind]
  dsimp only
  rw [payloadRun, paid]
  generalize (HostM.afterwards _ _).run _ = outcome
  obtain ⟨_ | _, t⟩ := outcome <;> rfl

/-- An action that is not running, performed on literals: if no line under its key has an eligible
valuation, nothing is dispatched and the answer is no. Otherwise the earliest line that has one
fires. -/
theorem perform_fires (arises : m.Arises) (literal : m.database.Literal) {phrase : Phrase}
    (closed : ∀ term ∈ phrase.args, term.isLiteral) {action : Action}
    (declared : m.actions.get? phrase.key = some action) (free : action.name ∉ m.running) :
    (∃ sites, m.Pays phrase.key sites) ∧
    ∀ sites, m.Pays phrase.key sites → (∀ site ∈ sites, PlainSite site) → ∀ depth h,
      (∀ site ∈ sites, ∀ σ, ¬m.Eligible phrase.args site σ) ∧
        (∃ id, (performTo (depth + 1) call phrase).run (m, h) =
          (.ok false, (({ m with nextId := id }).idled action, h))) ∨
      ∃ before site after, sites = before ++ site :: after ∧
        Fires call depth m h action phrase before site := by
  have formed := arises.wellFormed
  constructor
  · obtain ⟨verbose, strict, id, evolves⟩ := arises
    obtain ⟨sites, pays⟩ := (pays_new verbose strict id phrase.key).evolves evolves
    exact ⟨_, pays⟩
  intro sites pays plain depth h
  have entries := pays.entries
  have found : m.actionOf phrase.key = action := by rw [actionOf, declared, Option.getD_some]
  rw [found] at entries
  have enters {entry : Rule × String} (inside : entry ∈ action.entries) :
      ∃ site ∈ sites, m.Enters phrase.key entry site := by
    obtain ⟨site, member, enters⟩ := Forall₂.exists_right entries.flip inside
    exact ⟨site, member, enters⟩
  obtain ⟨id, ⟨none, run⟩ | ⟨front, rule, payload, back, s, parts, earlier, settled, sound, run⟩⟩ :=
    choosePayload_first formed literal closed
      (fun entry inside => by
        obtain ⟨_, _, enters⟩ := enters inside
        exact enters.compiled.source)
      fun entry inside => by
        obtain ⟨site, member, enters⟩ := enters inside
        exact enters.plain (plain site member)
  · refine .inl ⟨fun site inside σ eligible => ?_, id, ?_⟩
    · obtain ⟨entry, member, enters⟩ := Forall₂.exists_right entries inside
      exact none entry member σ ((enters.eligible_iff closed).mp eligible)
    · rw [run_performTo declared, run_performWithin, if_neg free, run]
  · rw [parts] at entries
    have passed := List.forall₂_take_append _ _ _ entries.flip
    have behind := List.forall₂_drop_append _ _ _ entries.flip
    obtain ⟨site, after, here, _, rest⟩ := List.forall₂_cons_right_iff.mp behind
    have parts : sites = sites.take front.length ++ site :: after := by
      rw [← rest, List.take_append_drop]
    refine .inr ⟨_, site, after, parts, ?_, ?_⟩
    · intro other inside σ eligible
      obtain ⟨entry, member, enters⟩ := Forall₂.exists_right passed.flip inside
      exact earlier entry member σ ((enters.eligible_iff closed).mp eligible)
    · obtain ⟨σ, eligible, stands⟩ := exists_stands settled
        fun σ holds => (here.eligible_iff closed).mpr (sound σ holds)
      have lines : ((({ m with nextId := id }).chosen action payload).payloads.get? payload).getD
          [] = site.payload := congrArg (·.getD []) here.payload
      exact ⟨s, σ, _, payload, id, eligible, run_performTo_chosen declared free run lines depth h,
        fun line _ k g => ⟨fun name kind named registered =>
          callback_stands stands kind named registered g, fun kind => claim_stands stands kind g⟩⟩

/-- Two lines for one action: the first is for another argument, the second has a condition above
it, and a token in its payload that nothing binds. -/
def greetText : String :=
  "+man \"a\"\n* greet \"b\"\n > hello: \"b\"\n::man (x)\n * greet (x)\n  > hello: (x) (y)"

def loadedGreeting : Machine := ((load greetText).run {}).2

def greeting : Machine := ((addCallback "hello").run loadedGreeting).2

def greetingAction : Action := greeting.actionOf "greet %s"

def deaf (_ : String) (_ : List (Option String)) : HostM Unit Unit := pure ()

theorem perform_fires_greeting :
    ∃ before site after,
      (sitesOfText greetText).filter (paysFor "greet %s") = before ++ site :: after ∧
        Fires deaf 1 greeting () greetingAction ⟨"greet %s", [.lit "a"]⟩ before site := by
  have loaded : (load greetText).run {} = (.ok ⟨⟩, loadedGreeting) := run_of_ok (by decide +kernel)
  have reachable : greeting.Reachable :=
    ⟨false, false, 0, Leads.trans (.load greetText {}) (.addCallback "hello" loadedGreeting)⟩
  have paid := (pays_new false false 0 "greet %s").load loaded
  rw [List.nil_append] at paid
  have pays : greeting.Pays "greet %s" ((sitesOfText greetText).filter (paysFor "greet %s")) :=
    paid.of_actions (works_addCallback "hello" loadedGreeting).evolves
      (sameActions_addCallback "hello" loadedGreeting)
  have declared : greeting.actions.get? "greet %s" = some greetingAction := by
    have there : (greeting.actions.get? "greet %s").isSome := by decide +kernel
    obtain ⟨action, found⟩ := Option.isSome_iff_exists.mp there
    rw [greetingAction, actionOf, found, Option.getD_some]
  have literal : greeting.database.Literal := by decide +kernel
  have free : greetingAction.name ∉ greeting.running := by
    rw [reachable.idle]
    exact List.not_mem_nil
  have closed : ∀ term ∈ (⟨"greet %s", [.lit "a"]⟩ : Phrase).args, term.isLiteral := by decide
  obtain ⟨_, fires⟩ := perform_fires reachable.arises literal closed declared free
  rcases fires _ pays (by decide +kernel) 1 () with ⟨_, id, run⟩ | found
  · have answer : ((performTo 2 deaf ⟨"greet %s", [.lit "a"]⟩).run (greeting, ())).1 =
        .ok true := by decide +kernel
    rw [run] at answer
    cases answer
  · exact found

end Firing
end Machine
end Rulebook
