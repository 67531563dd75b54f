import Mathlib.Data.List.Lattice
import Rulebook.Proofs.Table
import Rulebook.Proofs.Unification

/-! Substitutions flattened. A lookup goes from the newest layer down and stops at the first that
binds the name; flattening goes up from the oldest and overwrites. Where layers shadow each other,
both give the term of the newest one, and the name keeps the place where it was first bound. -/
namespace Rulebook.Substitution

/-- Every name as often as it is bound: the oldest layer first, and each layer in its order. -/
def boundNames (s : Substitution) : List String := (s.layers.reverse.map Table.keys).flatten

section Layers
variable (layer : Table Term) (older : List (Table Term))

theorem boundNames_cons : boundNames ⟨layer :: older⟩ = boundNames ⟨older⟩ ++ layer.keys := by
  simp [boundNames]

theorem bindings_cons :
    bindings ⟨layer :: older⟩ = (bindings ⟨older⟩).putAll layer.entries := rfl

end Layers

variable (s : Substitution)

theorem get?_bindings (name : String) : s.bindings.get? name = s.lookup name := by
  obtain ⟨layers⟩ := s
  induction layers with
  | nil => rfl
  | cons layer older ih =>
    have lookup : lookup ⟨layer :: older⟩ name = (layer.get? name).or (lookup ⟨older⟩ name) :=
      lookup_push layer name
    rw [bindings_cons, Table.get?_putAll, ih, lookup]

theorem keys_bindings : s.bindings.keys = s.boundNames.eraseDups := by
  obtain ⟨layers⟩ := s
  induction layers with
  | nil => rfl
  | cons layer older ih =>
    rw [bindings_cons, Table.keys_putAll, ih, eraseDups_append_left, boundNames_cons]
    rfl

theorem size_eq_length_boundNames : s.size = s.boundNames.length := by
  obtain ⟨layers⟩ := s
  induction layers with
  | nil => rfl
  | cons layer older ih =>
    have put : size ⟨layer :: older⟩ = layer.size + size ⟨older⟩ := rfl
    rw [put, ih, layer.size_eq_length_keys, boundNames_cons, List.length_append, Nat.add_comm]

/-- A layer binds no name twice, so a repetition is across layers. -/
theorem nodup_boundNames_iff : s.boundNames.Nodup ↔
    s.layers.Pairwise fun newer older => newer.keys.Disjoint older.keys := by
  rw [boundNames, List.nodup_flatten, List.pairwise_map, List.pairwise_reverse]
  constructor
  · rintro ⟨_, apart⟩
    exact apart.imp List.Disjoint.symm
  · intro apart
    refine ⟨?_, apart.imp List.Disjoint.symm⟩
    intro names inside
    obtain ⟨layer, _, rfl⟩ := List.mem_map.mp inside
    exact layer.nodup

theorem size_eq_iff : s.size = s.bindings.size ↔
    s.layers.Pairwise fun newer older => newer.keys.Disjoint older.keys := by
  rw [s.size_eq_length_boundNames, Table.size_eq_length_keys, s.keys_bindings,
    length_eq_eraseDups_iff, s.nodup_boundNames_iff]

/-- The flattened substitution has the bindings that a lookup finds, in the order in which the names
were first bound, and they are as many as all layers have if and only if no two layers bind one
name. -/
theorem bindings_agree :
    (∀ name term, (name, term) ∈ s.bindings.entries ↔ s.lookup name = some term) ∧
      s.bindings.keys = s.boundNames.eraseDups ∧
      (s.size = s.bindings.size ↔
        s.layers.Pairwise fun newer older => newer.keys.Disjoint older.keys) := by
  refine ⟨fun name term => ?_, s.keys_bindings, s.size_eq_iff⟩
  rw [← Table.get?_eq_some_iff, s.get?_bindings]

/-- The older layer binds `y` after `x`; the newer one binds it again, before `z`. -/
example : (bindings ⟨[.ofList [("y", .lit "2"), ("z", .lit "3")],
      .ofList [("x", .var "y"), ("y", .lit "1")]]⟩).entries =
    [("x", .var "y"), ("y", .lit "2"), ("z", .lit "3")] := by decide

end Rulebook.Substitution
