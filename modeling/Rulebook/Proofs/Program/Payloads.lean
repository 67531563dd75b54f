import Rulebook.Proofs.Program.Contents
import Rulebook.Proofs.Program.Sites

/-! The payloads of an action. They stand in the order in which their lines were loaded, each beside
the rule that the line and the conditions above it come to. -/
namespace Rulebook.Machine
variable {m n : Machine} {key : String} {sites : List Site}

def actionOf (m : Machine) (key : String) : Action := (m.actions.get? key).getD { name := key }

/-- The entry of an action that a line has come to. -/
structure Enters (m : Machine) (key : String) (entry : Rule × String) (site : Site) : Prop where
  kind : site.line.kind = .action
  key : site.line.phrase.key = key
  compiled : m.Compiled site.above site.line.phrase.args none entry.1
  payload : m.payloads.get? entry.2 = some site.payload
  minted : ∃ id < m.nextId, entry.2 = Naming.payload id

/-- These are the action lines that have been loaded under the key, in order. -/
structure Pays (m : Machine) (key : String) (sites : List Site) : Prop where
  name : (m.actionOf key).name = key
  entries : List.Forall₂ (m.Enters key) (m.actionOf key).entries sites

theorem pays_new (verbose strict : Bool) (id : Int) (key : String) :
    ({ verbose, strict, nextId := id } : Machine).Pays key [] := ⟨rfl, .nil⟩

/-- A line stays what it was as relations are declared and payloads come on top. -/
theorem Enters.mono {entry : Rule × String} {site : Site} (enters : m.Enters key entry site)
    (relations : ∀ key r, m.relations.get? key = some r → n.relations.get? key = some r)
    (payloads : ∀ id < m.nextId,
      n.payloads.get? (Naming.payload id) = m.payloads.get? (Naming.payload id))
    (le : m.nextId ≤ n.nextId) : n.Enters key entry site where
  kind := enters.kind
  key := enters.key
  compiled := enters.compiled.mono relations
  payload := by
    obtain ⟨id, less, same⟩ := enters.minted
    have found := enters.payload
    rw [same] at found ⊢
    rw [payloads id less, found]
  minted := enters.minted.imp fun id ⟨less, same⟩ => ⟨by omega, same⟩

theorem Pays.mono (pays : m.Pays key sites) (action : n.actionOf key = m.actionOf key)
    (relations : ∀ key r, m.relations.get? key = some r → n.relations.get? key = some r)
    (payloads : ∀ id < m.nextId,
      n.payloads.get? (Naming.payload id) = m.payloads.get? (Naming.payload id))
    (le : m.nextId ≤ n.nextId) : n.Pays key sites where
  name := action ▸ pays.name
  entries := by
    rw [action]
    exact pays.entries.imp fun _ _ enters => enters.mono relations payloads le

/-- The payload that is next to come is none of those that have come. -/
theorem get?_payload_next (m : Machine) (lines : List Line) {id : Int} (less : id < m.nextId) :
    (m.payloads.put (Naming.payload m.nextId) lines).get? (Naming.payload id) =
      m.payloads.get? (Naming.payload id) := by
  rw [Table.get?_put, if_neg]
  intro same
  have := Naming.payload_inj same
  omega

/-- A line that is loaded comes last under its key. -/
theorem Pays.paying (pays : m.Pays key sites) {above : List Line} {line : Line} {action : Action}
    {rule : Rule} (kind : line.kind = .action)
    (found : m.actions.get? line.phrase.key = some action)
    (compiled : m.Compiled above line.phrase.args none rule) (lines : List Line) :
    (m.paying line.phrase.key action rule lines).Pays key
      (sites ++ if line.phrase.key = key then [⟨⟨above, line⟩, lines⟩] else []) := by
  have kept {entry : Rule × String} {site : Site} (enters : m.Enters key entry site) :
      (m.paying line.phrase.key action rule lines).Enters key entry site := by
    refine enters.mono (fun _ _ found => found) (fun id => m.get?_payload_next lines) ?_
    exact Int.le_add_one (Int.le_refl _)
  by_cases same : line.phrase.key = key
  · subst same
    have before : m.actionOf line.phrase.key = action := by rw [actionOf, found, Option.getD_some]
    have after : (m.paying line.phrase.key action rule lines).actionOf line.phrase.key =
        action.add rule (Naming.payload m.nextId) := by
      rw [actionOf, Machine.paying, Table.get?_put, if_pos rfl, Option.getD_some]
    have last : (m.paying line.phrase.key action rule lines).Enters line.phrase.key
        (rule, Naming.payload m.nextId) ⟨⟨above, line⟩, lines⟩ := by
      refine ⟨kind, rfl, compiled.mono fun _ _ found => found, ?_, m.nextId, Int.lt_succ _, rfl⟩
      rw [Machine.paying, Table.get?_put, if_pos rfl]
    obtain ⟨name, entries⟩ := pays
    rw [before] at name entries
    rw [if_pos rfl]
    refine ⟨after ▸ name, ?_⟩
    rw [after]
    exact List.rel_append (entries.imp fun _ _ => kept) (.cons last .nil)
  · have action : (m.paying line.phrase.key action rule lines).actionOf key = m.actionOf key := by
      rw [actionOf, Machine.paying, Table.get?_put, if_neg (Ne.symm same), actionOf]
    rw [if_neg same, List.append_nil]
    refine ⟨action ▸ pays.name, ?_⟩
    rw [action]
    exact pays.entries.imp fun _ _ => kept

/-- An action that is declared has no payloads at first. -/
theorem Pays.opened (pays : m.Pays key sites) {other : String}
    (absent : m.actions.get? other = none) :
    ({ m with actions := m.actions.put other { name := other } } : Machine).Pays key sites := by
  refine pays.mono ?_ (fun _ _ found => found) (fun _ _ => rfl) (Int.le_refl _)
  rw [actionOf, actionOf, Table.get?_put]
  split
  · rename_i same
    rw [same, absent]
    rfl
  · rfl

/-- Lines that have been loaded stay so. -/
theorem Pays.change (pays : m.Pays key sites) (change : Change m n) :
    ∃ more, n.Pays key (sites ++ more) := by
  have still : sites = sites ++ [] := (List.append_nil sites).symm
  cases change with
  | payload kind found compiled => exact ⟨_, pays.paying kind found compiled _⟩
  | declare new =>
    exact ⟨[], still ▸ pays.mono rfl (fun _ _ => get?_declared_kept new) (fun _ _ => rfl)
      (Int.le_refl _)⟩
  | spend le => exact ⟨[], still ▸ pays.mono rfl (fun _ _ found => found) (fun _ _ => rfl) le⟩
  | action absent => exact ⟨[], still ▸ pays.opened absent⟩
  | _ => exact ⟨[], still ▸ pays.mono rfl (fun _ _ found => found) (fun _ _ => rfl) (Int.le_refl _)⟩

theorem Pays.evolves (pays : m.Pays key sites) (evolves : Evolves m n) :
    ∃ more, n.Pays key (sites ++ more) := by
  induction evolves with
  | refl => exact ⟨[], (List.append_nil sites).symm ▸ pays⟩
  | tail _ last ih =>
    obtain ⟨more, pays⟩ := ih
    obtain ⟨others, pays⟩ := pays.change last
    exact ⟨more ++ others, List.append_assoc .. ▸ pays⟩

/-- Where no action has changed, no line has come. -/
theorem Pays.of_actions (pays : m.Pays key sites) (evolves : Evolves m n)
    (same : n.actions = m.actions) : n.Pays key sites := by
  obtain ⟨more, later⟩ := pays.evolves evolves
  have first := pays.entries.length_eq
  have second := later.entries.length_eq
  rw [actionOf, same, ← actionOf, first, List.length_append] at second
  obtain rfl : more = [] := List.eq_nil_of_length_eq_zero (by omega)
  rwa [List.append_nil] at later

section Loading

def SameActions (m n : Machine) : Prop := n.actions = m.actions

theorem SameActions.trans {k : Machine} (first : SameActions m n) (second : SameActions n k) :
    SameActions m k :=
  Eq.trans second first

theorem SameProgram.actions (same : SameProgram m n) : SameActions m n :=
  congrArg Program.actions same

theorem sameActions_addCallback (name : String) (m : Machine) :
    SameActions m ((addCallback name).run m).2 := by
  obtain ⟨_, _, run⟩ := run_addCallback name m
  rw [run]
  rfl

/-- Loading a line that is no action leaves actions and payloads alone. -/
theorem loadSite_other {site : Site} (other : site.line.kind ≠ .action) (m : Machine) :
    SameActions m ((loadSite site).run m).2 ∧ ((loadSite site).run m).2.payloads = m.payloads := by
  have declared {n : Machine} (declares : Declares m n) :
      SameActions m n ∧ n.payloads = m.payloads := by
    rw [SameActions, declares.same]
    exact ⟨rfl, rfl⟩
  unfold loadSite
  split
  · contradiction
  · split
    · have same := sameProgram_assert site.line.phrase.key site.line.phrase.args true m
      exact ⟨same.actions, congrArg Program.payloads same⟩
    · obtain ⟨_, _, middle, declares, _, _, run⟩ := run_loadRule site.above site.line m
      have same := declared declares
      rw [run]
      split <;> exact same
  · obtain ⟨_, middle, declares, _, _, _, run⟩ := run_loadExclusion site.above site.line m
    have same := declared declares
    rw [run]
    exact same
  · exact ⟨rfl, rfl⟩

def paysFor (key : String) (site : Site) : Bool :=
  site.line.kind == .action && site.line.phrase.key == key

theorem Pays.loadSite (pays : m.Pays key sites) {site : Site}
    (run : (loadSite site).run m = (.ok ⟨⟩, n)) :
    n.Pays key (sites ++ [site].filter (paysFor key)) := by
  by_cases kind : site.line.kind = .action
  · have loaded : (loadAction site.above site.line site.payload).run m = (.ok ⟨⟩, n) := by
      unfold Machine.loadSite at run
      rwa [kind] at run
    obtain ⟨action, rule, middle, ready, last, first, declares, compiled, more, whole, _⟩ :=
      run_loadAction site.above site.line site.payload m
    rw [loaded] at whole
    cases whole
    have found : ready.actions.get? site.line.phrase.key = some action := by
      rw [declares.same]
      exact (actionFor_ok first).2
    have opened : middle.Pays key sites := by
      rw [run_actionFor] at first
      split at first
      · cases first
        exact pays
      · rename_i absent
        cases first
        exact pays.opened absent
    have begun : ready.Pays key sites :=
      opened.of_actions declares.evolves (by rw [declares.same])
    have paid := (begun.paying kind found compiled site.payload).of_actions
      (works_logged _ ("[action] " ++ site.line.content ++ " -> " ++
        Naming.payload ready.nextId)).evolves rfl
    have last := paid.of_actions more.evolves (by rw [more.same])
    have split : [site].filter (paysFor key) =
        if site.line.phrase.key = key then [site] else [] := by
      simp [paysFor, kind, List.filter_singleton]
    rw [split]
    exact last
  · have evolves : Evolves m n := by
      have works := works_loadSite site m
      rw [run] at works
      exact works.evolves
    have same := (loadSite_other kind m).1
    rw [run] at same
    have passed : [site].filter (paysFor key) = [] := by
      simp [paysFor, kind]
    rw [passed, List.append_nil]
    exact pays.of_actions evolves same

/-- The action lines of a text come after those from before, in the order of the text. -/
theorem Pays.load (pays : m.Pays key sites) {text : String}
    (run : (load text).run m = (.ok ⟨⟩, n)) :
    n.Pays key (sites ++ (sitesOfText text).filter (paysFor key)) := by
  rw [load_eq] at run
  generalize sitesOfText text = loaded at run ⊢
  induction loaded generalizing m sites with
  | nil =>
    cases run
    rwa [List.filter_nil, List.append_nil]
  | cons site loaded ih =>
    obtain ⟨_, middle, first, others⟩ := bind_ok run
    have last := ih (pays.loadSite first) others
    rwa [List.append_assoc, ← List.filter_append] at last

end Loading
end Rulebook.Machine
