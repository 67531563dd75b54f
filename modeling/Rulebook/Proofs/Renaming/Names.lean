import Mathlib.Logic.Embedding.Basic
import Rulebook.Proofs.Naming

/-! Moving the counter. A counter that starts elsewhere mints other names, and the ids also stand in
the names minted from those names. Moving all ids in a name by one distance takes the names of one
run to those of another; it can be undone, and it leaves alone what is not minted. -/
namespace Rulebook
namespace Naming

/-- A salt is read off the name that it begins. -/
theorem eq_of_salt_append {i j : Int} {a b : String} (same : salt i ++ a = salt j ++ b) :
    i = j ∧ a = b := by
  obtain rfl := salt_append_inj same
  exact ⟨rfl, (String.append_right_inj _).mp same⟩

theorem toList_fresh (id : Int) (hint : String) : (fresh id hint).key.toList =
    '?' :: (toString id).toList ++ if hint = "" then [] else ':' :: hint.toList := by
  rw [fresh, Term.key]
  split <;> simp [String.toList_append]

/-- A minted variable shows its number and its hint. -/
theorem fresh_inj {i j : Int} {a b : String} (same : (fresh i a).key = (fresh j b).key) :
    i = j ∧ a = b := by
  have lists := congrArg String.toList same
  have colon (id : Int) : ':' ∉ (toString id).toList :=
    mark_not_mem_numeral rfl (by decide) id
  simp only [toList_fresh, List.cons_append, List.cons.injEq, true_and] at lists
  split at lists <;> split at lists
  · rename_i left right
    rw [List.append_nil, List.append_nil] at lists
    exact ⟨numeral_inj (String.toList_inj.mp lists), left.trans right.symm⟩
  · rw [List.append_nil] at lists
    exact absurd (lists ▸ List.mem_append_right _ List.mem_cons_self) (colon i)
  · rw [List.append_nil] at lists
    exact absurd (lists ▸ List.mem_append_right _ List.mem_cons_self) (colon j)
  · have numerals := append_cons_inj (colon i) (colon j) lists
    rw [numerals, List.append_cancel_left_eq, List.cons.injEq] at lists
    exact ⟨numeral_inj (String.toList_inj.mp numerals), String.toList_inj.mp lists.2⟩

/-- No name is of both kinds. -/
theorem fresh_ne_salt (id other : Int) (hint rest : String) :
    (fresh id hint).key ≠ salt other ++ rest := by
  intro same
  have lists := congrArg String.toList same
  have mark : '?' ∉ (toString other).toList := mark_not_mem_numeral rfl (by decide) other
  simp only [toList_fresh, salt, String.toList_append, List.append_assoc] at lists
  cases numeral : (toString other).toList with
  | nil =>
    rw [numeral] at lists
    exact absurd (List.cons.inj lists).1 (by decide)
  | cons c digits =>
    rw [numeral] at lists mark
    exact mark ((List.cons.inj lists).1 ▸ List.mem_cons_self)

open Classical in
/-- The name with all ids in it moved: that of its salt or its mark, and those in what follows. -/
noncomputable def shift (distance : Int) (name : String) : String :=
  if salted : ∃ id rest, name = salt id ++ rest then
    salt (salted.choose + distance) ++ shift distance salted.choose_spec.choose
  else if minted : ∃ id hint, name = (fresh id hint).key then
    (fresh (minted.choose + distance) (shift distance minted.choose_spec.choose)).key
  else name
termination_by name.length
decreasing_by
  · have whole := congrArg String.length salted.choose_spec.choose_spec
    have positive : 0 < (salt salted.choose).length := by
      rw [salt, String.length_append]
      exact Nat.lt_add_left _ (by decide)
    rw [String.length_append] at whole
    omega
  · have whole := congrArg List.length (congrArg String.toList minted.choose_spec.choose_spec)
    rw [toList_fresh, String.length_toList] at whole
    simp only [List.cons_append, List.length_cons, List.length_append] at whole
    rw [← String.length_toList]
    split at whole
    · rename_i empty
      rw [empty]
      simp only [String.toList_empty, List.length_nil]
      omega
    · rw [List.length_cons] at whole
      omega

section Shifting
variable {distance : Int}

theorem shift_salt (id : Int) (rest : String) :
    shift distance (salt id ++ rest) = salt (id + distance) ++ shift distance rest := by
  have salted : ∃ other tail, salt id ++ rest = salt other ++ tail := ⟨id, rest, rfl⟩
  obtain ⟨number, tail⟩ := eq_of_salt_append salted.choose_spec.choose_spec
  rw [shift, dif_pos salted, ← tail, ← number]

theorem shift_fresh (id : Int) (hint : String) : shift distance (fresh id hint).key =
    (fresh (id + distance) (shift distance hint)).key := by
  have unsalted : ¬∃ other rest, (fresh id hint).key = salt other ++ rest :=
    fun ⟨other, rest, same⟩ => fresh_ne_salt id other hint rest same
  have minted : ∃ other tail, (fresh id hint).key = (fresh other tail).key := ⟨id, hint, rfl⟩
  obtain ⟨number, tail⟩ := fresh_inj minted.choose_spec.choose_spec
  rw [shift, dif_neg unsalted, dif_pos minted, ← tail, ← number]

theorem shift_plain {name : String} (unmarked : '?' ∉ name.toList) (slashless : '/' ∉ name.toList) :
    shift distance name = name := by
  have unsalted : ¬∃ id rest, name = salt id ++ rest :=
    fun ⟨id, rest, same⟩ => plain_of_slashless slashless id rest same
  have unminted : ¬∃ id hint, name = (fresh id hint).key := by
    rintro ⟨id, hint, rfl⟩
    rw [toList_fresh] at unmarked
    exact unmarked List.mem_cons_self
  rw [shift, dif_neg unsalted, dif_neg unminted]

/-- Moving the ids back undoes moving them. -/
theorem shift_shift (name : String) : shift (-distance) (shift distance name) = name := by
  fun_induction shift distance name with
  | case1 name salted ih =>
    rw [shift_salt, ih, Int.add_neg_cancel_right]
    exact salted.choose_spec.choose_spec.symm
  | case2 name unsalted minted ih =>
    rw [shift_fresh, ih, Int.add_neg_cancel_right]
    exact minted.choose_spec.choose_spec.symm
  | case3 name unsalted unminted => rw [shift, dif_neg unsalted, dif_neg unminted]

open Classical in
noncomputable def shiftPayload (distance : Int) (name : String) : String :=
  if made : ∃ id, name = payload id then payload (made.choose + distance) else name

theorem shiftPayload_payload (id : Int) :
    shiftPayload distance (payload id) = payload (id + distance) := by
  have made : ∃ other, payload id = payload other := ⟨id, rfl⟩
  rw [shiftPayload, dif_pos made, ← payload_inj made.choose_spec]

theorem shiftPayload_shiftPayload (name : String) :
    shiftPayload (-distance) (shiftPayload distance name) = name := by
  by_cases made : ∃ id, name = payload id
  · obtain ⟨id, rfl⟩ := made
    rw [shiftPayload_payload, shiftPayload_payload, Int.add_neg_cancel_right]
  · have same (distance : Int) : shiftPayload distance name = name := by
      rw [shiftPayload, dif_neg made]
    rw [same, same]

end Shifting
end Naming

/-- Injective renamings, of variables and of payload ids, that take what one counter mints to what a
counter at a distance mints, and leave alone the names in texts. -/
structure Renaming where
  distance : Int
  names : String ↪ String
  payloads : String ↪ String
  plain : ∀ {name : String}, '?' ∉ name.toList → '/' ∉ name.toList → names name = name
  salt : ∀ id rest, names (Naming.salt id ++ rest) = Naming.salt (id + distance) ++ names rest
  fresh : ∀ id hint, names (Naming.fresh id hint).key =
    (Naming.fresh (id + distance) (names hint)).key
  payload : ∀ id, payloads (Naming.payload id) = Naming.payload (id + distance)

noncomputable def Renaming.shift (distance : Int) : Renaming where
  distance
  names := ⟨Naming.shift distance, Function.LeftInverse.injective Naming.shift_shift⟩
  payloads := ⟨Naming.shiftPayload distance,
    Function.LeftInverse.injective Naming.shiftPayload_shiftPayload⟩
  plain := Naming.shift_plain
  salt := Naming.shift_salt
  fresh := Naming.shift_fresh
  payload := Naming.shiftPayload_payload

end Rulebook
