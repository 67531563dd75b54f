import Mathlib.Data.List.Nodup
import Mathlib.Data.List.Perm.Subperm
import Rulebook.Table

/-! Names without repetition. Erasing repetitions leaves each item its first place. One table put
into another adds its new names at the end and changes the values of the others. -/
namespace Rulebook

section Repetition
variable {α : Type} [BEq α]

/-- Induction along the way in which repetitions are erased. -/
theorem eraseDups_induction {motive : List α → Prop} (nil : motive [])
    (cons : ∀ a items, motive (items.filter fun b => !b == a) → motive (a :: items))
    (items : List α) : motive items := by
  generalize size : items.length = n
  induction n using Nat.strongRecOn generalizing items with
  | ind n ih =>
    cases items with
    | nil => exact nil
    | cons a items =>
      have less : (items.filter fun b => !b == a).length < n := by
        have := List.length_filter_le (fun b => !b == a) items
        rw [List.length_cons] at size
        omega
      exact cons a items (ih _ less _ rfl)

variable [LawfulBEq α]

theorem eraseDups_map {β : Type} [BEq β] [LawfulBEq β] {f : α → β}
    (injective : Function.Injective f) (items : List α) :
    (items.map f).eraseDups = items.eraseDups.map f := by
  induction items using eraseDups_induction with
  | nil => rfl
  | cons a items ih =>
    have other (b : α) : (!f b == f a) = !b == a := by
      rw [Bool.eq_iff_iff]
      simp [injective.eq_iff]
    rw [List.map_cons, List.eraseDups_cons, List.eraseDups_cons, List.filter_map, List.map_cons]
    simp only [Function.comp_def, other]
    rw [ih]

theorem nodup_eraseDups (items : List α) : items.eraseDups.Nodup := by
  induction items using eraseDups_induction with
  | nil => exact .nil
  | cons a items ih =>
    rw [List.eraseDups_cons, List.nodup_cons, List.mem_eraseDups, List.mem_filter]
    refine ⟨fun inside => ?_, ih⟩
    simp at inside

theorem eraseDups_of_nodup {items : List α} (nodup : items.Nodup) : items.eraseDups = items := by
  induction items with
  | nil => rfl
  | cons a items ih =>
    obtain ⟨once, nodup⟩ := List.nodup_cons.mp nodup
    have kept : (items.filter fun b => !b == a) = items := by
      apply List.filter_eq_self.mpr
      rintro b inside
      simp only [Bool.not_eq_true', beq_eq_false_iff_ne]
      rintro rfl
      exact once inside
    rw [List.eraseDups_cons, kept, ih nodup]

theorem eraseDups_append_left (items more : List α) :
    (items.eraseDups ++ more).eraseDups = (items ++ more).eraseDups := by
  have same : more.removeAll items.eraseDups = more.removeAll items := by
    apply List.filter_congr
    intro a _
    simp [List.elem_eq_contains, List.contains_eq_mem]
  rw [List.eraseDups_append, List.eraseDups_append, eraseDups_of_nodup (nodup_eraseDups items),
    same]

/-- Erasing makes a list shorter exactly where something is repeated. -/
theorem length_eq_eraseDups_iff {items : List α} :
    items.length = items.eraseDups.length ↔ items.Nodup := by
  constructor
  · intro same
    have part : items.eraseDups.Subperm items :=
      (nodup_eraseDups items).subperm fun _ => List.mem_eraseDups.mp
    exact (part.perm_of_length_le (Nat.le_of_eq same)).nodup_iff.mp (nodup_eraseDups items)
  · intro nodup
    rw [eraseDups_of_nodup nodup]

end Repetition

theorem mem_sortedNames {names : List String} {name : String} :
    name ∈ sortedNames names ↔ name ∈ names := by
  rw [sortedNames, List.mem_mergeSort, List.mem_eraseDups]

theorem nodup_sortedNames (names : List String) : (sortedNames names).Nodup :=
  (List.mergeSort_perm _ _).nodup_iff.mpr (nodup_eraseDups names)

namespace Table
variable {α : Type}

theorem size_eq_length_keys (t : Table α) : t.size = t.keys.length :=
  (List.length_map _).symm

theorem get?_eq_some_iff {t : Table α} {key : String} {value : α} :
    t.get? key = some value ↔ (key, value) ∈ t.entries := by
  obtain ⟨entries, nodup⟩ := t
  change getIn key entries = some value ↔ (key, value) ∈ entries
  induction entries with
  | nil => simp [getIn]
  | cons entry rest ih =>
    obtain ⟨name, first⟩ := entry
    obtain ⟨once, nodup⟩ := List.nodup_cons.mp nodup
    by_cases same : name = key
    · subst same
      have absent : (name, value) ∉ rest := fun inside => once (List.mem_map.mpr ⟨_, inside, rfl⟩)
      simp [getIn, absent, eq_comm]
    · simp [getIn, same, Ne.symm same, ih nodup]

theorem keys_putAll (t : Table α) (entries : List (String × α)) :
    (t.putAll entries).keys = (t.keys ++ entries.map (·.1)).eraseDups := by
  induction entries generalizing t with
  | nil =>
    rw [List.map_nil, List.append_nil]
    exact (eraseDups_of_nodup t.nodup).symm
  | cons entry rest ih =>
    obtain ⟨key, value⟩ := entry
    have once : t.keys.eraseDups = t.keys := eraseDups_of_nodup t.nodup
    have put : (t.put key value).keys = (t.keys ++ [key]).eraseDups := by
      rw [keys_put, List.eraseDups_append, once]
      split
      · rename_i known
        simp [List.removeAll, known]
      · rename_i new
        simp [List.removeAll, new, List.eraseDups_cons]
    change ((t.put key value).putAll rest).keys = _
    rw [ih, put, eraseDups_append_left, List.map_cons, List.append_assoc, List.singleton_append]

theorem get?_putAll (t layer : Table α) (key : String) :
    (t.putAll layer.entries).get? key = (layer.get? key).or (t.get? key) := by
  obtain ⟨entries, nodup⟩ := layer
  change _ = (getIn key entries).or (t.get? key)
  induction entries generalizing t with
  | nil => rfl
  | cons entry rest ih =>
    obtain ⟨name, value⟩ := entry
    obtain ⟨once, nodup⟩ := List.nodup_cons.mp nodup
    change ((t.put name value).putAll rest).get? key = _
    rw [ih _ nodup, get?_put, getIn]
    by_cases same : name = key
    · subst same
      have absent : getIn name rest = none := by
        rw [← Option.not_isSome_iff_eq_none, getIn_isSome_iff]
        exact once
      simp [absent]
    · simp [same, Ne.symm same]

end Table
end Rulebook
