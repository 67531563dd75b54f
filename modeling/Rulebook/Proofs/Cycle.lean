import Mathlib.Data.List.Chain
import Rulebook.Proofs.Dependency

/-! Cycles of dependencies. The path that the guard against recursion reports is one that the
refused rule would close: it goes along dependencies, and comes back to the relation it starts
from. -/
namespace Rulebook

/-- The path goes along the relation and comes back to where it starts. -/
def IsCycle {α : Type} (R : α → α → Prop) (path : List α) : Prop :=
  ∃ start inner, path = start :: (inner ++ [start]) ∧ path.IsChain R

section Cycles
variable {α β : Type} {R : α → α → Prop} {path : List α}

theorem IsCycle.map {S : β → β → Prop} (f : α → β) (each : ∀ a b, R a b → S (f a) (f b))
    (cycle : IsCycle R path) : IsCycle S (path.map f) := by
  obtain ⟨start, inner, rfl, chain⟩ := cycle
  refine ⟨f start, inner.map f, by simp, ?_⟩
  rw [List.isChain_map]
  exact chain.imp fun a b => each a b

theorem IsCycle.imp {S : α → α → Prop} (each : ∀ a b, R a b → S a b) (cycle : IsCycle R path) :
    IsCycle S path := by
  have mapped := cycle.map id each
  rwa [List.map_id] at mapped

theorem isChain_cons_of_head {first next : α} (starts : path.head? = some next)
    (edge : R first next) (chain : path.IsChain R) : (first :: path).IsChain R := by
  rw [List.isChain_cons]
  constructor
  · intro other head
    cases starts.symm.trans head
    exact edge
  · exact chain

theorem reaches_of_chain {first last : α} {inner : List α}
    (chain : (first :: (inner ++ [last])).IsChain R) : Relation.TransGen R first last := by
  induction inner generalizing first with
  | nil => exact .single (List.isChain_pair.mp chain)
  | cons next inner ih =>
    obtain ⟨edge, rest⟩ := List.isChain_cons_cons.mp chain
    exact .head edge (ih rest)

theorem IsCycle.reaches (cycle : IsCycle R path) : ∃ start, Relation.TransGen R start start := by
  obtain ⟨start, inner, rfl, chain⟩ := cycle
  exact ⟨start, reaches_of_chain chain⟩

end Cycles

namespace Database
variable {db : Database} {target : RelationId}

/-- A way from one of some relations to the target, along dependencies and without a detour: no
relation comes twice, and the target only at the end. -/
structure LeadsBack (db : Database) (target : RelationId) (starts inner : List RelationId) :
    Prop where
  start : ∃ c ∈ starts, (inner ++ [target]).head? = some c
  chain : (inner ++ [target]).IsChain db.Depends
  nodup : inner.Nodup
  apart : target ∉ inner

theorem LeadsBack.mono {starts more inner : List RelationId}
    (leads : LeadsBack db target starts inner) (fewer : starts ⊆ more) :
    LeadsBack db target more inner :=
  let ⟨c, inside, head⟩ := leads.start
  { leads with start := ⟨c, fewer inside, head⟩ }

/-- The way from a relation that depends on where it starts. -/
theorem LeadsBack.cons {r : RelationId} {starts inner : List RelationId}
    (leads : LeadsBack db target (db.relation r).dependencies inner) (inside : r ∈ starts)
    (apart : r ≠ target) (new : r ∉ inner) : LeadsBack db target starts (r :: inner) where
  start := ⟨r, inside, rfl⟩
  chain := by
    obtain ⟨c, depends, head⟩ := leads.start
    exact isChain_cons_of_head head depends leads.chain
  nodup := List.nodup_cons.mpr ⟨new, leads.nodup⟩
  apart := by
    rw [List.mem_cons, not_or]
    exact ⟨apart.symm, leads.apart⟩

/-- A walk that finds its target has gone there along dependencies, through relations that it had
not seen before. -/
theorem Walks.found {path starts seen whole : List RelationId}
    (walks : Walks db target path starts seen (.found whole)) :
    ∃ inner, whole = path ++ (inner ++ [target]) ∧ LeadsBack db target starts inner ∧
      ∀ r ∈ inner, r ∉ seen := by
  generalize ending : Walk.found whole = outcome at walks
  induction walks with
  | ended => cases ending
  | arrives =>
    cases ending
    exact ⟨[], rfl, ⟨⟨target, by simp, rfl⟩, by simp, .nil, nofun⟩, nofun⟩
  | passes _ _ _ ih =>
    obtain ⟨inner, same, leads, unseen⟩ := ih ending
    exact ⟨inner, same, leads.mono (List.subset_cons_self _ _), unseen⟩
  | @leads _ _ _ _ r apart new _ ih =>
    obtain ⟨inner, same, leads, unseen⟩ := ih ending
    refine ⟨r :: inner, by simp [same], leads.cons List.mem_cons_self apart ?_, ?_⟩
    · exact fun inside => unseen r inside List.mem_cons_self
    · rw [List.forall_mem_cons]
      exact ⟨new, fun x inside old => unseen x inside (List.mem_cons_of_mem r old)⟩
  | returns _ _ below _ _ ih =>
    obtain ⟨inner, same, leads, unseen⟩ := ih ending
    refine ⟨inner, same, leads.mono (List.subset_cons_self _ _), fun x inside old => ?_⟩
    exact unseen x inside (below.grows (List.mem_cons_of_mem _ old))

/-- The path that refuses a rule leads from what the rule asks back to the relation. -/
theorem leadsBack_of_findCycle {rule : Rule} {path : List RelationId}
    (found : db.findCycle target rule = some path) :
    ∃ inner, path = target :: (inner ++ [target]) ∧
      LeadsBack db target rule.relations inner := by
  obtain ⟨outcome, walks, same⟩ := walks_findCycle db target rule
  cases outcome with
  | missed seen => cases same.symm.trans found
  | found whole =>
    cases same.symm.trans found
    obtain ⟨inner, rfl, leads, _⟩ := walks.found
    exact ⟨inner, rfl, leads⟩

/-- The path that refuses a rule is a cycle through the dependencies that the rule would add. -/
theorem isCycle_of_findCycle {rule : Rule} {path : List RelationId}
    (found : db.findCycle target rule = some path) {R : RelationId → RelationId → Prop}
    (old : ∀ r c, db.Depends r c → R r c) (new : ∀ c ∈ rule.relations, R target c) :
    IsCycle R path := by
  obtain ⟨inner, rfl, leads⟩ := leadsBack_of_findCycle found
  obtain ⟨c, asked, first⟩ := leads.start
  exact ⟨target, inner, rfl, isChain_cons_of_head first (new c asked) (leads.chain.imp old)⟩

end Database
end Rulebook
