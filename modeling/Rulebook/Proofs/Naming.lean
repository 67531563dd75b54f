import Rulebook.Naming
import Rulebook.Proofs.Valuation

/-! Renaming apart. A salt ends at its first slash, so a name shows under which salt it was made.
Grafting gives the names made under one salt new texts and leaves all others alone. -/
namespace Rulebook
namespace Naming

theorem not_mem_digits {c : Char} (other : c.isDigit = false) (n : Nat) :
    c ∉ (Nat.repr n).toList := by
  rw [Nat.toList_repr]
  intro inside
  have digit := Nat.isDigit_of_mem_toDigits (by decide) (by decide) inside
  rw [digit] at other
  cases other

theorem digits_inj {m n : Nat} (same : Nat.repr m = Nat.repr n) : m = n := by
  have lists := congrArg String.toList same
  rw [Nat.toList_repr, Nat.toList_repr] at lists
  rw [← Nat.ofDigitChars_ten_toDigits (n := m), lists, Nat.ofDigitChars_ten_toDigits]

theorem mark_not_mem_numeral {mark : Char} (digit : mark.isDigit = false) (sign : mark ≠ '-')
    (id : Int) : mark ∉ (toString id).toList := by
  rw [Int.toString_eq_repr, Int.repr_eq_if]
  split
  · exact not_mem_digits digit _
  · rw [String.toList_append, List.mem_append]
    rintro (minus | other)
    · exact sign (List.mem_singleton.mp minus)
    · exact not_mem_digits digit _ other

theorem slash_not_mem_numeral (id : Int) : '/' ∉ (toString id).toList :=
  mark_not_mem_numeral rfl (by decide) id

theorem numeral_inj {i j : Int} (same : toString i = toString j) : i = j := by
  have sign (m n : Nat) : "-" ++ Nat.repr m ≠ Nat.repr n := by
    intro same
    have lists := congrArg String.toList same
    rw [String.toList_append] at lists
    exact not_mem_digits (c := '-') rfl n (lists ▸ List.mem_append_left _ (by decide))
  rw [Int.toString_eq_repr, Int.toString_eq_repr, Int.repr_eq_if, Int.repr_eq_if] at same
  split at same <;> split at same
  · have := digits_inj same
    omega
  · exact absurd same.symm (sign _ _)
  · exact absurd same (sign _ _)
  · have := digits_inj ((String.append_right_inj "-").mp same)
    omega

theorem payload_inj {i j : Int} (same : payload i = payload j) : i = j :=
  numeral_inj ((String.append_right_inj "payload-").mp same)

/-- What stands before the first mark is the same where the whole is the same. -/
theorem append_cons_inj {mark : Char} {a b c d : List Char} (left : mark ∉ a) (right : mark ∉ b)
    (same : a ++ mark :: c = b ++ mark :: d) : a = b := by
  induction a generalizing b with
  | nil =>
    cases b with
    | nil => rfl
    | cons x b =>
      simp only [List.nil_append, List.cons_append, List.cons.injEq] at same
      exact absurd (same.1 ▸ List.mem_cons_self) right
  | cons x a ih =>
    cases b with
    | nil =>
      simp only [List.nil_append, List.cons_append, List.cons.injEq] at same
      exact absurd (same.1 ▸ List.mem_cons_self) left
    | cons y b =>
      simp only [List.cons_append, List.cons.injEq, List.mem_cons, not_or] at same left right
      rw [same.1, ih left.2 right.2 same.2]

theorem salt_append_inj {i j : Int} {a b : String} (same : salt i ++ a = salt j ++ b) : i = j := by
  have lists := congrArg String.toList same
  simp only [salt, String.toList_append, List.append_assoc] at lists
  have numerals := append_cons_inj (slash_not_mem_numeral i) (slash_not_mem_numeral j) lists
  exact numeral_inj (String.toList_inj.mp numerals)

/-- A name that a rule's variable gets under a salt whose number is still to come. -/
def ToCome (next : Int) (name : String) : Prop :=
  ∃ id, next ≤ id ∧ ∃ rest, name = salt id ++ rest

theorem ToCome.mono {next later : Int} (le : next ≤ later) {name : String}
    (made : ToCome later name) : ToCome next name := by
  obtain ⟨id, bound, rest, same⟩ := made
  exact ⟨id, by omega, rest, same⟩

theorem toCome_salt {next : Int} (rest : String) : ToCome next (salt next ++ rest) :=
  ⟨next, by omega, rest, rfl⟩

/-- Names made under a salt are past once the salt is. -/
theorem not_toCome_salt {id next : Int} (past : id < next) (rest : String) :
    ¬ToCome next (salt id ++ rest) := by
  rintro ⟨other, bound, tail, same⟩
  have := salt_append_inj same
  omega

/-- A name that is made under no salt. -/
def Plain (name : String) : Prop := ∀ id rest, name ≠ salt id ++ rest

theorem Plain.not_toCome {next : Int} {name : String} (plain : Plain name) : ¬ToCome next name := by
  rintro ⟨id, _, rest, same⟩
  exact plain id rest same

/-- A name without a slash is made under no salt. -/
theorem plain_of_slashless {name : String} (slashless : '/' ∉ name.toList) : Plain name := by
  rintro id rest rfl
  apply slashless
  simp [salt, String.toList_append]

theorem not_toCome_slashless {next : Int} {name : String} (slashless : '/' ∉ name.toList) :
    ¬ToCome next name :=
  (plain_of_slashless slashless).not_toCome

/-- A fresh variable shows that it is minted, and is made under no salt. -/
theorem exists_fresh {hint : String} (slashless : '/' ∉ hint.toList) (id : Int) :
    ∃ name, fresh id hint = .var name ∧ '?' ∈ name.toList ∧ '/' ∉ name.toList := by
  have marked : ('/' : Char) ∉ "?".toList := by decide
  have colon : ('/' : Char) ∉ ":".toList := by decide
  have numeral := slash_not_mem_numeral id
  refine ⟨_, rfl, ?_, ?_⟩ <;> split <;>
    simp only [String.toList_append, List.mem_append, not_or]
  · exact .inl (by decide)
  · exact .inl (.inl (.inl (by decide)))
  · exact ⟨marked, numeral⟩
  · exact ⟨⟨⟨marked, numeral⟩, colon⟩, slashless⟩

end Naming

open Classical in
/-- The names made under a salt read by one valuation, all others by another. -/
noncomputable def Valuation.graft (σ : Valuation) (salt : String) (ρ : Valuation) : Valuation :=
  fun name => if made : ∃ rest, name = salt ++ rest then ρ made.choose else σ name

namespace Valuation
variable {σ ρ : Valuation} {salt : String}

theorem graft_append (rest : String) : σ.graft salt ρ (salt ++ rest) = ρ rest := by
  have made : ∃ tail, salt ++ rest = salt ++ tail := ⟨rest, rfl⟩
  rw [graft, dif_pos made]
  exact congrArg ρ ((String.append_right_inj salt).mp made.choose_spec).symm

/-- Read through the salt, what was grafted is there again. -/
theorem graft_through : (fun name => σ.graft salt ρ (salt ++ name)) = ρ :=
  funext fun name => graft_append name

theorem graft_other {name : String} (other : ¬∃ rest, name = salt ++ rest) :
    σ.graft salt ρ name = σ name := by
  rw [graft, dif_neg other]

end Valuation

theorem Term.salted_empty (term : Term) : term.salted "" = term := by
  cases term with
  | var name => exact congrArg Term.var (String.empty_append ..)
  | lit value => rfl

/-- A salted term read by a valuation is the term read through the salt. -/
theorem Term.under_salted (σ : Valuation) (salt : String) (term : Term) :
    (term.salted salt).under σ = term.under fun name => σ (salt ++ name) := by
  cases term <;> rfl

theorem map_under_salted (σ : Valuation) (salt : String) (terms : List Term) :
    (terms.map (·.salted salt)).map (Term.under σ) =
      terms.map (Term.under fun name => σ (salt ++ name)) := by
  rw [List.map_map]
  exact List.map_congr_left fun term _ => term.under_salted σ salt

theorem Term.named_salted {ok : String → Prop} {salt : String} (fine : ∀ name, ok (salt ++ name))
    (term : Term) : (term.salted salt).Named ok := by
  cases term with
  | var name => exact fine name
  | lit value => trivial

/-- A variable whose name holds no mark of a minted name, or a literal. -/
def Term.Plain (term : Term) : Prop :=
  term.Named fun name => '?' ∉ name.toList ∧ '/' ∉ name.toList

instance (term : Term) : Decidable term.Plain :=
  match term with
  | .var name => inferInstanceAs (Decidable ('?' ∉ name.toList ∧ '/' ∉ name.toList))
  | .lit _ => .isTrue trivial

end Rulebook
