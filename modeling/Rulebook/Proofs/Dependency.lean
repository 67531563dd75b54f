import Mathlib.Data.Finset.Card
import Mathlib.Data.Finset.Range
import Mathlib.Data.List.GetD
import Mathlib.Logic.Relation
import Rulebook.Database.Cycle
import Rulebook.Database.Layers

/-! Dependencies between relations. The walk that guards against recursion misses its target only if
the target is out of reach, so a relation that gets a rule past the guard still does not depend on
itself; and relations none of which depends on itself are layered. -/
namespace Rulebook.Database
variable {db : Database}

def Depends (db : Database) (r c : RelationId) : Prop := c ∈ (db.relation r).dependencies

/-- Rules ask declared relations only. -/
def Closed (db : Database) : Prop := ∀ r c, db.Depends r c → c < db.relations.length

/-- Heights with each relation above all it depends on. -/
def Ranks (db : Database) (rank : RelationId → Nat) : Prop :=
  ∀ r c, db.Depends r c → rank c < rank r

theorem declared_of_depends {r c : RelationId} (depends : db.Depends r c) :
    r < db.relations.length := by
  by_contra outside
  rw [Depends, relation_eq_empty (Nat.le_of_not_lt outside)] at depends
  cases depends

section Walking

def unseen (db : Database) (seen : List RelationId) : Finset RelationId :=
  (Finset.range db.relations.length).filter (· ∉ seen)

theorem unseen_le {seen more : List RelationId} (grows : seen ⊆ more) :
    (db.unseen more).card ≤ (db.unseen seen).card := by
  apply Finset.card_le_card
  intro r inside
  simp only [unseen, Finset.mem_filter] at inside ⊢
  exact ⟨inside.1, fun there => inside.2 (grows there)⟩

theorem unseen_lt {seen : List RelationId} {r : RelationId} (declared : r < db.relations.length)
    (new : r ∉ seen) : (db.unseen (r :: seen)).card < (db.unseen seen).card := by
  have here : r ∈ db.unseen seen := Finset.mem_filter.mpr ⟨Finset.mem_range.mpr declared, new⟩
  have gone : db.unseen (r :: seen) ⊆ (db.unseen seen).erase r := by
    intro other inside
    simp only [unseen, Finset.mem_filter, List.mem_cons, not_or, Finset.mem_erase] at inside ⊢
    exact ⟨inside.2.1, inside.1, inside.2.2⟩
  exact Nat.lt_of_le_of_lt (Finset.card_le_card gone) (Finset.card_erase_lt_of_mem here)

/-- The walk as it goes, with no bound on its depth: along a path, into the relations of a list one
after the other, past those it has seen, to its outcome. -/
inductive Walks (db : Database) (target : RelationId) :
    List RelationId → List RelationId → List RelationId → Walk → Prop where
  | ended {path seen : List RelationId} : Walks db target path [] seen (.missed seen)
  | arrives {path rest seen : List RelationId} :
      Walks db target path (target :: rest) seen (.found (path ++ [target]))
  | passes {path rest seen : List RelationId} {r : RelationId} {outcome : Walk} : r ≠ target →
      r ∈ seen → Walks db target path rest seen outcome →
      Walks db target path (r :: rest) seen outcome
  | leads {path rest seen whole : List RelationId} {r : RelationId} : r ≠ target → r ∉ seen →
      Walks db target (path ++ [r]) (db.relation r).dependencies (r :: seen) (.found whole) →
      Walks db target path (r :: rest) seen (.found whole)
  | returns {path rest seen middle : List RelationId} {r : RelationId} {outcome : Walk} :
      r ≠ target → r ∉ seen →
      Walks db target (path ++ [r]) (db.relation r).dependencies (r :: seen) (.missed middle) →
      Walks db target path rest middle outcome →
      Walks db target path (r :: rest) seen outcome

section
variable {target : RelationId} {path starts seen : List RelationId} {outcome : Walk}

theorem Walks.grows {after : List RelationId}
    (walks : Walks db target path starts seen (.missed after)) : seen ⊆ after := by
  generalize ending : Walk.missed after = outcome at walks
  induction walks generalizing after with
  | ended =>
    cases ending
    exact List.Subset.refl _
  | arrives => cases ending
  | passes _ _ _ ih => exact ih ending
  | leads _ _ _ _ => cases ending
  | returns _ _ _ _ below later =>
    exact fun x inside => later ending (below rfl (List.mem_cons_of_mem _ inside))

/-- A walk through several relations is one through the first, and then through the others unless it
has arrived. -/
theorem Walks.cons {r : RelationId} (first : Walks db target path [r] seen outcome)
    {last : Walk} (others : ∀ middle, outcome = .missed middle →
      Walks db target path starts middle last)
    (arrived : ∀ whole, outcome = .found whole → last = .found whole) :
    Walks db target path (r :: starts) seen last := by
  cases first with
  | arrives =>
    rw [arrived _ rfl]
    exact .arrives
  | passes apart old rest =>
    cases rest
    exact .passes apart old (others _ rfl)
  | leads apart new below =>
    rw [arrived _ rfl]
    exact .leads apart new below
  | returns apart new below rest =>
    cases rest
    exact .returns apart new below (others _ rfl)

theorem walks_each {descend : RelationId → List RelationId → Walk} (bound : Nat)
    (room : starts ≠ [] → (db.unseen seen).card < bound)
    (each : ∀ r seen, (db.unseen seen).card < bound →
      Walks db target path [r] seen (descend r seen)) :
    Walks db target path starts seen (walkEach descend starts seen) := by
  induction starts generalizing seen with
  | nil => exact .ended
  | cons r rest ih =>
    have small := room (List.cons_ne_nil r rest)
    have first := each r seen small
    rw [walkEach]
    cases outcome : descend r seen with
    | found whole =>
      rw [outcome] at first
      exact first.cons nofun fun _ same => same
    | missed middle =>
      rw [outcome] at first
      refine first.cons (fun other same => ?_) nofun
      cases same
      exact ih fun _ => Nat.lt_of_le_of_lt (unseen_le first.grows) small

/-- The depth suffices because each relation on the path was new when the walk came to it. -/
theorem walks_from {depth : Nat} {r : RelationId} (room : (db.unseen seen).card < depth) :
    Walks db target path [r] seen (db.walkFrom target depth path r seen) := by
  induction depth generalizing path r seen with
  | zero => cases room
  | succ depth ih =>
    rw [walkFrom]
    split
    · rename_i here
      rw [here]
      exact .arrives
    rename_i apart
    split
    · rename_i old
      exact .passes apart old .ended
    rename_i new
    have below : Walks db target (path ++ [r]) (db.relation r).dependencies (r :: seen)
        (walkEach (fun next seen => walkFrom db target depth (path ++ [r]) next seen)
          (db.relation r).dependencies (r :: seen)) := by
      refine walks_each depth (fun asks => ?_) fun x others small => ih small
      have ⟨c, depends⟩ := List.exists_mem_of_ne_nil _ asks
      have := unseen_lt (declared_of_depends depends) new
      omega
    generalize walkEach _ _ _ = outcome at below
    cases outcome with
    | found whole => exact .leads apart new below
    | missed after => exact .returns apart new below .ended

end

def Walk.path? : Walk → Option (List RelationId)
  | found path => some path
  | missed _ => none

/-- The guard's walk comes to an end. -/
theorem walks_findCycle (db : Database) (target : RelationId) (rule : Rule) :
    ∃ outcome, Walks db target [target] rule.relations [] outcome ∧
      db.findCycle target rule = outcome.path? := by
  refine ⟨_, walks_each (db.relations.length + 1) (fun _ => ?_) fun r seen room => walks_from room,
    ?_⟩
  · have := Finset.card_filter_le (Finset.range db.relations.length) (· ∉ ([] : List RelationId))
    rw [Finset.card_range] at this
    exact Nat.lt_succ_of_le this
  · rw [findCycle]
    split <;> rename_i ending <;> rw [ending] <;> rfl

/-- What a walk that missed has seen: everything it started from, and all that follows from what it
had not seen before, but not the target. -/
structure Missed (db : Database) (target : RelationId) (starts before after : List RelationId) :
    Prop where
  grows : before ⊆ after
  starts : starts ⊆ after
  misses : target ∉ before → target ∉ after
  follows : ∀ r ∈ after, r ∉ before → ∀ c, db.Depends r c → c ∈ after

/-- Walks one after the other miss what each of them misses. -/
theorem Missed.cons {target r : RelationId} {rest before middle after : List RelationId}
    (first : Missed db target [r] before middle) (others : Missed db target rest middle after) :
    Missed db target (r :: rest) before after where
  grows := fun x inside => others.grows (first.grows inside)
  starts := List.cons_subset.mpr ⟨others.grows (first.starts List.mem_cons_self), others.starts⟩
  misses out := others.misses (first.misses out)
  follows := by
    intro x inside new c depends
    by_cases seen : x ∈ middle
    · exact others.grows (first.follows x seen new c depends)
    · exact others.follows x inside seen c depends

/-- A walk below a relation, with the relation itself. -/
theorem Missed.above {target r : RelationId} {before after : List RelationId} (apart : r ≠ target)
    (below : Missed db target (db.relation r).dependencies (r :: before) after) :
    Missed db target [r] before after where
  grows := fun x inside => below.grows (List.mem_cons_of_mem _ inside)
  starts := fun x inside => below.grows (by simp [List.mem_singleton.mp inside])
  misses out := below.misses (by
    rw [List.mem_cons, not_or]
    exact ⟨apart.symm, out⟩)
  follows := by
    intro x inside new c depends
    by_cases here : x = r
    · exact below.starts (here ▸ depends)
    · exact below.follows x inside (by rw [List.mem_cons, not_or]; exact ⟨here, new⟩) c depends

/-- A walk that sees nothing new. -/
theorem Missed.of_seen {target : RelationId} {starts before : List RelationId}
    (seen : starts ⊆ before) : Missed db target starts before before :=
  ⟨List.Subset.refl _, seen, id, fun _ inside new => absurd inside new⟩

theorem Walks.missed {target : RelationId} {path starts before after : List RelationId}
    (walks : Walks db target path starts before (.missed after)) :
    Missed db target starts before after := by
  generalize ending : Walk.missed after = outcome at walks
  induction walks generalizing after with
  | ended =>
    cases ending
    exact .of_seen (List.nil_subset _)
  | arrives => cases ending
  | passes _ old _ ih =>
    have first : [_] ⊆ _ := List.cons_subset.mpr ⟨old, List.nil_subset _⟩
    exact .cons (.of_seen first) (ih ending)
  | leads _ _ _ _ => cases ending
  | returns apart _ _ _ below later => exact .cons (.above apart (below rfl)) (later ending)

theorem missed_findCycle {target : RelationId} {rule : Rule}
    (none : db.findCycle target rule = none) :
    ∃ seen, Missed db target rule.relations [] seen := by
  obtain ⟨outcome, walks, same⟩ := walks_findCycle db target rule
  cases outcome with
  | found path => cases same.symm.trans none
  | missed seen => exact ⟨seen, walks.missed⟩

/-- A rule past the guard asks nothing that leads back to its relation. -/
theorem not_reaches_of_findCycle {target c : RelationId} {rule : Rule}
    (none : db.findCycle target rule = none) (asked : c ∈ rule.relations) :
    ¬Relation.ReflTransGen db.Depends c target := by
  obtain ⟨seen, missed⟩ := missed_findCycle none
  have inside {x : RelationId} (reached : Relation.ReflTransGen db.Depends c x) : x ∈ seen := by
    induction reached with
    | refl => exact missed.starts asked
    | tail _ depends ih => exact missed.follows _ ih List.not_mem_nil _ depends
  exact fun reached => missed.misses List.not_mem_nil (inside reached)

/-- The guard looks at nothing but what depends on what. -/
theorem findCycle_congr {other : Database}
    (lengths : other.relations.length = db.relations.length)
    (dependencies : ∀ r, (other.relation r).dependencies = (db.relation r).dependencies)
    {rule twin : Rule} (asked : twin.relations = rule.relations) (target : RelationId) :
    other.findCycle target twin = db.findCycle target rule := by
  have walk (depth : Nat) (path : List RelationId) (r : RelationId) (seen : List RelationId) :
      other.walkFrom target depth path r seen = db.walkFrom target depth path r seen := by
    induction depth generalizing path r seen with
    | zero => rfl
    | succ depth ih => simp only [walkFrom, dependencies, ih]
  have walks : other.walkFrom target = db.walkFrom target := by
    funext depth path r seen
    exact walk depth path r seen
  rw [findCycle, walks, lengths, asked, findCycle]

end Walking

section Ranking

/-- A relation that gets a new rule is raised, with all that leads to it, above what the rule
asks. -/
theorem ranks_of_asked {next : Database} {r : RelationId} {asked : List RelationId}
    {rank : RelationId → Nat} (ranks : db.Ranks rank)
    (apart : ∀ c ∈ asked, ¬Relation.ReflTransGen db.Depends c r)
    (depends : ∀ x c, next.Depends x c → db.Depends x c ∨ x = r ∧ c ∈ asked) :
    ∃ rank, next.Ranks rank := by
  classical
  let top := (asked.map rank).max?.getD 0 + 1
  have below {c : RelationId} (inside : c ∈ asked) : rank c < top :=
    Nat.lt_succ_of_le (List.le_max?_getD_of_mem (List.mem_map_of_mem inside))
  let leads (x : RelationId) : Prop := Relation.ReflTransGen db.Depends x r
  refine ⟨fun x => if leads x then rank x + top else rank x, ?_⟩
  intro x c edge
  rcases depends x c edge with old | ⟨rfl, inside⟩
  · have lower := ranks x c old
    by_cases later : leads c
    · have earlier : leads x := .head old later
      simp only [earlier, later, if_true]
      omega
    · simp only [later, if_false]
      split <;> omega
  · have self : leads x := .refl
    have other : ¬leads c := apart c inside
    simp only [self, other, if_true, if_false]
    have := below inside
    omega

theorem Ranks.lt_of_reaches {rank : RelationId → Nat} (ranks : db.Ranks rank) {r c : RelationId}
    (reaches : Relation.TransGen db.Depends r c) : rank c < rank r := by
  induction reaches with
  | single edge => exact ranks _ _ edge
  | tail _ edge ih => exact Nat.lt_trans (ranks _ _ edge) ih

open Classical in
/-- The declared relations that a relation depends on, directly or through others. -/
noncomputable def reached (db : Database) (r : RelationId) : Finset RelationId :=
  (Finset.range db.relations.length).filter (Relation.TransGen db.Depends r)

theorem mem_reached {r c : RelationId} :
    c ∈ db.reached r ↔ c < db.relations.length ∧ Relation.TransGen db.Depends r c := by
  simp [reached]

/-- Where no relation depends on itself, one that depends on another reaches more than the other. -/
theorem reached_lt (acyclic : ∀ r, ¬Relation.TransGen db.Depends r r) {r c : RelationId}
    (declared : c < db.relations.length) (edge : db.Depends r c) :
    (db.reached c).card < (db.reached r).card := by
  apply Finset.card_lt_card
  rw [Finset.ssubset_iff_of_subset]
  · refine ⟨c, mem_reached.mpr ⟨declared, .single edge⟩, ?_⟩
    intro inside
    exact acyclic c (mem_reached.mp inside).2
  · intro x inside
    obtain ⟨here, path⟩ := mem_reached.mp inside
    exact mem_reached.mpr ⟨here, .head edge path⟩

/-- Relations that do not depend on themselves can be ranked. -/
theorem exists_ranks (acyclic : ∀ r, ¬Relation.TransGen db.Depends r r) :
    ∃ rank, db.Ranks rank := by
  -- What was never declared asks nothing, and so ranks lowest.
  refine ⟨fun r => if r < db.relations.length then (db.reached r).card + 1 else 0, ?_⟩
  intro r c edge
  simp only [declared_of_depends edge, if_true]
  split
  · rename_i declared
    have := reached_lt acyclic declared edge
    omega
  · omega

theorem getD_raise (heights : List Nat) (r : RelationId) :
    (db.raise heights).getD r 0 =
      ((db.relation r).dependencies.map fun c => heights.getD c 0 + 1).foldl max 0 := by
  by_cases declared : r < db.relations.length
  · simp [raise, relation, List.getD_eq_getElem?_getD, declared]
  · rw [relation_eq_empty (Nat.le_of_not_lt declared)]
    simp [raise, Relation.dependencies, List.getD_eq_getElem?_getD, declared]

theorem lt_of_raise_eq {heights : List Nat} (fixed : db.raise heights = heights) {r c : RelationId}
    (depends : db.Depends r c) : heights.getD c 0 < heights.getD r 0 := by
  have here : (db.raise heights).getD r 0 = _ := getD_raise heights r
  rw [fixed] at here
  have above := List.mem_map_of_mem (f := fun c => heights.getD c 0 + 1) depends
  rw [here, List.foldl_max]
  exact Nat.lt_of_lt_of_le (Nat.lt_succ_self _)
    (Nat.le_trans (List.le_max?_getD_of_mem above) (Nat.le_max_right _ _))

/-- The number of declared relations that rank lower. -/
def lower (db : Database) (rank : RelationId → Nat) (r : RelationId) : Nat :=
  ((Finset.range db.relations.length).filter (rank · < rank r)).card

theorem lower_le (rank : RelationId → Nat) (r : RelationId) :
    db.lower rank r ≤ db.relations.length := by
  have := Finset.card_filter_le (Finset.range db.relations.length) (rank · < rank r)
  rwa [Finset.card_range] at this

theorem lower_lt {rank : RelationId → Nat} (closed : db.Closed) (ranks : db.Ranks rank)
    {r c : RelationId} (depends : db.Depends r c) : db.lower rank c < db.lower rank r := by
  have smaller := ranks r c depends
  apply Finset.card_lt_card
  rw [Finset.ssubset_iff_of_subset]
  · refine ⟨c, ?_, ?_⟩
    · exact Finset.mem_filter.mpr ⟨Finset.mem_range.mpr (closed r c depends), smaller⟩
    · simp
  · intro x inside
    rw [Finset.mem_filter] at inside ⊢
    exact ⟨inside.1, Nat.lt_trans inside.2 smaller⟩

/-- After so many rounds, relations with fewer below them do not rise any more. -/
theorem raise_settles {rank : RelationId → Nat} (closed : db.Closed) (ranks : db.Ranks rank)
    (heights : List Nat) (rounds : Nat) {r : RelationId} (small : db.lower rank r < rounds) :
    (db.raise (db.raise^[rounds] heights)).getD r 0 = (db.raise^[rounds] heights).getD r 0 := by
  induction rounds generalizing r with
  | zero => cases small
  | succ rounds ih =>
    rw [Function.iterate_succ_apply', getD_raise, getD_raise]
    congr 1
    apply List.map_congr_left
    intro c depends
    have := lower_lt closed ranks depends
    rw [ih (by omega)]

theorem settle_fixed {heights : List Nat} {rounds : Nat}
    (fixed : db.raise (db.raise^[rounds] heights) = db.raise^[rounds] heights) :
    db.raise (db.settle rounds heights) = db.settle rounds heights := by
  induction rounds generalizing heights with
  | zero => exact fixed
  | succ rounds ih =>
    rw [settle]
    split
    · assumption
    · exact ih fixed

theorem heights_fixed {rank : RelationId → Nat} (closed : db.Closed) (ranks : db.Ranks rank) :
    db.raise db.heights = db.heights := by
  apply settle_fixed
  have sizes (heights : List Nat) : (db.raise heights).length = db.relations.length :=
    List.length_map _
  apply List.ext_getElem
  · rw [sizes, Function.iterate_succ_apply', sizes]
  · intro r one other
    have settled := raise_settles closed ranks (db.relations.map fun _ => 0)
      (db.relations.length + 1) (Nat.lt_succ_of_le (lower_le rank r))
    rwa [List.getD_eq_getElem _ _ one, List.getD_eq_getElem _ _ other] at settled

theorem isLayered_of_ranks {rank : RelationId → Nat} (closed : db.Closed) (ranks : db.Ranks rank) :
    db.isLayered := by
  have fixed := heights_fixed closed ranks
  simp only [isLayered, List.all_eq_true, decide_eq_true_eq]
  intro r _ c depends
  exact lt_of_raise_eq fixed depends

theorem ranks_height (layered : db.isLayered) : db.Ranks db.height :=
  fun _ _ depends => height_lt layered depends

end Ranking
end Rulebook.Database
