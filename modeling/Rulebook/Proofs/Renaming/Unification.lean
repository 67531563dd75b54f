import Mathlib.Data.List.Nodup
import Rulebook.Proofs.Renaming.Names
import Rulebook.Substitution

/-! Substitutions under a renaming. Unification compares names and does nothing else with them, so
it commutes with every injective renaming. -/
namespace Rulebook

namespace Term
variable (π : Renaming)

def rename (π : Renaming) : Term → Term
  | var name => var (π.names name)
  | lit value => lit value

theorem rename_inj {a b : Term} : a.rename π = b.rename π ↔ a = b := by
  cases a <;> cases b <;> simp [rename]

theorem value?_rename (term : Term) : (term.rename π).value? = term.value? := by
  cases term <;> rfl

theorem fresh_rename (id : Int) (hint : String) :
    (Naming.fresh id hint).rename π = Naming.fresh (id + π.distance) (π.names hint) :=
  congrArg var (π.fresh id hint)

theorem Plain.rename {term : Term} (plain : term.Plain) : term.rename π = term := by
  cases term with
  | var name => exact congrArg var (π.plain plain.1 plain.2)
  | lit value => rfl

/-- A variable of a text that is renamed apart by a salt is renamed apart by the salt at the other
counter. -/
theorem Plain.rename_salted {term : Term} (plain : term.Plain) (id : Int) :
    (term.salted (Naming.salt id)).rename π = term.salted (Naming.salt (id + π.distance)) := by
  cases term with
  | var name =>
    rw [salted, Term.rename, π.salt, π.plain plain.1 plain.2]
    rfl
  | lit value => rfl

end Term

theorem map_rename_plain (π : Renaming) {terms : List Term} (plain : ∀ term ∈ terms, term.Plain) :
    terms.map (Term.rename π) = terms :=
  (List.map_congr_left fun term inside => (plain term inside).rename π).trans (List.map_id terms)

def Fault.rename (π : Renaming) : Fault → Fault
  | bindsLiteral term => bindsLiteral (term.rename π)
  | alreadyBound term => alreadyBound (term.rename π)
  | fault => fault

namespace Table
variable {α β : Type} (f : String ↪ String) (g : α → β)

def mapped (t : Table α) : Table β where
  entries := t.entries.map fun entry => (f entry.1, g entry.2)
  nodup := by
    have names : (t.entries.map fun entry => (f entry.1, g entry.2)).map (·.1) =
        (t.entries.map (·.1)).map f := by
      rw [List.map_map, List.map_map]
      rfl
    rw [names]
    exact List.Nodup.map f.injective t.nodup

theorem eq_of_entries {s t : Table α} (same : s.entries = t.entries) : s = t := by
  cases s
  cases t
  cases same
  rfl

theorem getIn_mapped (key : String) (entries : List (String × α)) :
    getIn (f key) (entries.map fun entry => (f entry.1, g entry.2)) =
      (getIn key entries).map g := by
  induction entries with
  | nil => rfl
  | cons entry entries ih =>
    by_cases same : entry.1 = key
    · simp [getIn, same]
    · simp [getIn, same, ih]

theorem putIn_mapped (key : String) (value : α) (entries : List (String × α)) :
    putIn (f key) (g value) (entries.map fun entry => (f entry.1, g entry.2)) =
      (putIn key value entries).map fun entry => (f entry.1, g entry.2) := by
  induction entries with
  | nil => rfl
  | cons entry entries ih =>
    by_cases same : entry.1 = key
    · simp [putIn, same]
    · simp [putIn, same, ih]

variable (t : Table α)

theorem get?_mapped (key : String) : (t.mapped f g).get? (f key) = (t.get? key).map g :=
  getIn_mapped f g key t.entries

theorem mapped_put (key : String) (value : α) :
    (t.put key value).mapped f g = (t.mapped f g).put (f key) (g value) :=
  eq_of_entries (putIn_mapped f g key value t.entries).symm

theorem size_mapped : (t.mapped f g).size = t.size := List.length_map _

theorem isEmpty_mapped : (t.mapped f g).entries.isEmpty = t.entries.isEmpty := List.isEmpty_map

end Table

namespace Substitution
variable (π : Renaming) (s : Substitution)

def rename (π : Renaming) (s : Substitution) : Substitution :=
  ⟨s.layers.map (·.mapped π.names (Term.rename π))⟩

theorem lookup_rename (name : String) :
    (s.rename π).lookup (π.names name) = (s.lookup name).map (Term.rename π) := by
  rw [lookup, rename, List.findSome?_map, lookup, List.map_findSome?]
  congr 1
  funext layer
  exact layer.get?_mapped π.names (Term.rename π) name

theorem size_rename : (s.rename π).size = s.size := by
  obtain ⟨layers⟩ := s
  rw [rename, size, List.foldr_map, size]
  simp only [Table.size_mapped]

theorem follow_rename (n : Nat) (term : Term) :
    (s.rename π).follow n (term.rename π) = (s.follow n term).rename π := by
  induction n generalizing term with
  | zero => cases term <;> rfl
  | succ n ih =>
    cases term with
    | lit value => rfl
    | var name =>
      simp only [Term.rename, follow, lookup_rename]
      cases s.lookup name with
      | none => rfl
      | some next => exact ih next

theorem walk_rename (term : Term) :
    (s.rename π).walk (term.rename π) = (s.walk term).rename π := by
  rw [walk, size_rename, follow_rename, walk]

theorem reify_rename (terms : List Term) :
    (s.rename π).reify (terms.map (Term.rename π)) =
      (s.reify terms).map (Term.rename π) := by
  rw [reify, reify, List.map_map, List.map_map]
  exact List.map_congr_left fun term _ => s.walk_rename π term

theorem valuesOf_rename (terms : List Term) :
    (s.rename π).valuesOf (terms.map (Term.rename π)) = s.valuesOf terms := by
  rw [valuesOf, reify_rename, List.map_map, valuesOf]
  exact List.map_congr_left fun term _ => term.value?_rename π

theorem extend_rename (target value : Term) :
    (s.rename π).extend (target.rename π) (value.rename π) =
      ((s.extend target value).map (Option.map (rename π))).mapError (Fault.rename π) := by
  cases target with
  | lit text => rfl
  | var name =>
    have occurs : (s.rename π).occursIn (π.names name) (value.rename π) = s.occursIn name value := by
      rw [occursIn, walk_rename, occursIn, Bool.eq_iff_iff, beq_iff_eq, beq_iff_eq]
      exact Term.rename_inj (b := .var name) π
    rw [Term.rename, extend, extend, lookup_rename, Option.isSome_map, occurs, walk_rename]
    split
    · rfl
    · split
      · rfl
      · exact congrArg (fun layer => Except.ok (some ((s.rename π).push layer)))
          (Table.mapped_put π.names (Term.rename π) .empty name (s.walk value)).symm

theorem unify_rename (left right : Term) :
    (s.rename π).unify (left.rename π) (right.rename π) =
      ((s.unify left right).map (Option.map (rename π))).mapError (Fault.rename π) := by
  simp only [unify, walk_rename, Term.rename_inj]
  split
  · rfl
  · cases s.walk left with
    | var name => exact s.extend_rename π (.var name) _
    | lit value =>
      cases s.walk right with
      | var name => exact s.extend_rename π (.var name) (.lit value)
      | lit other => rfl

theorem stage_rename (staged : Table Term) (pairs : List (Term × Term)) :
    (s.rename π).stage (staged.mapped π.names (Term.rename π))
        (pairs.map (Prod.map (Term.rename π) (Term.rename π))) =
      (s.stage staged pairs).map (Table.mapped π.names (Term.rename π)) := by
  have walk_staged (staged : Table Term) (term : Term) :
      ((s.rename π).push (staged.mapped π.names (Term.rename π))).walk (term.rename π) =
        ((s.push staged).walk term).rename π := (s.push staged).walk_rename π term
  fun_induction stage s staged pairs with
  | case1 staged => rfl
  | case2 staged left right rest a b same ih =>
    simp only [List.map_cons, Prod.map, stage, walk_staged, Term.rename_inj]
    rw [if_pos same]
    exact ih
  | case3 staged left right rest a b different name reached ih =>
    simp only [List.map_cons, Prod.map, stage, walk_staged, Term.rename_inj]
    rw [if_neg different, show (s.push staged).walk left = .var name from reached]
    rw [Table.mapped_put] at ih
    exact ih
  | case4 staged left right rest a b different value name found reached ih =>
    simp only [List.map_cons, Prod.map, stage, walk_staged, Term.rename_inj]
    rw [if_neg different, show (s.push staged).walk left = .lit value from reached,
      show (s.push staged).walk right = .var name from found]
    rw [Table.mapped_put] at ih
    rw [show a = .lit value from reached] at ih ⊢
    exact ih
  | case5 staged left right rest a b different value other found reached =>
    simp only [List.map_cons, Prod.map, stage, walk_staged, Term.rename_inj]
    rw [if_neg different, show (s.push staged).walk left = .lit _ from reached,
      show (s.push staged).walk right = .lit _ from found]
    rfl

theorem unifyAll_rename (left right : List Term) :
    (s.rename π).unifyAll (left.map (Term.rename π)) (right.map (Term.rename π)) =
      (s.unifyAll left right).map (rename π) := by
  simp only [unifyAll, List.length_map]
  split
  · rw [List.zip_map]
    have staged := s.stage_rename π .empty (left.zip right)
    rw [show Table.empty.mapped π.names (Term.rename π) = .empty from rfl] at staged
    rw [staged, Option.map_map, Option.map_map]
    congr 1
    funext layer
    simp only [Function.comp_apply, Table.isEmpty_mapped]
    split <;> rfl
  · rfl

end Substitution
end Rulebook
