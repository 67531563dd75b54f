import Mathlib.Data.List.DropRight
import Rulebook.Text.Blank
import Rulebook.Text.LineBreaks

/-! Lines of a text: what stands between its line feeds. Reading up to a boundary finds it. -/
namespace Rulebook.Text

section Boundary
variable {inside rest : List α} {p : α → Bool}

theorem takeWhile_boundary (all : ∀ a ∈ inside, p a = true) (stop : ∀ a ∈ rest.head?, p a = false) :
    (inside ++ rest).takeWhile p = inside := by
  rw [List.takeWhile_append_of_pos all]
  cases rest with
  | nil => exact List.append_nil inside
  | cons a rest => rw [List.takeWhile_cons_of_neg (by simp [stop a rfl]), List.append_nil]

theorem dropWhile_boundary (all : ∀ a ∈ inside, p a = true) (stop : ∀ a ∈ rest.head?, p a = false) :
    (inside ++ rest).dropWhile p = rest := by
  rw [List.dropWhile_append_of_pos all]
  cases rest with
  | nil => rfl
  | cons a rest => exact List.dropWhile_cons_of_neg (by simp [stop a rfl])

end Boundary

variable {separator : Char} {piece : List Char}

theorem pieces_ne_nil (separator : Char) (text : List Char) : pieces separator text ≠ [] := by
  cases text with
  | nil => exact List.cons_ne_nil _ _
  | cons c rest =>
    rw [pieces]
    split
    · exact List.cons_ne_nil _ _
    · split <;> exact List.cons_ne_nil _ _

theorem pieces_cons_of_ne {c : Char} (other : c ≠ separator) (rest : List Char) :
    pieces separator (c :: rest) = (pieces separator rest).modifyHead (c :: ·) := by
  rw [pieces, if_neg other]
  split
  · rename_i none
    exact absurd none (pieces_ne_nil separator rest)
  · rename_i some
    rw [some]
    rfl

/-- Cutting a text is splitting a list. -/
theorem pieces_eq_splitOn (separator : Char) (text : List Char) :
    pieces separator text = text.splitOn separator := by
  induction text with
  | nil => rfl
  | cons c rest ih =>
    rw [List.splitOn, List.splitOnP_cons_eq_if_modifyHead]
    split
    · rename_i here
      rw [pieces, if_pos (by simpa using here), ih, List.splitOn]
    · rename_i other
      rw [pieces_cons_of_ne (by simpa using other), ih, List.splitOn]

/-- The first separator ends the first piece. -/
theorem pieces_append_cons (absent : separator ∉ piece) (rest : List Char) :
    pieces separator (piece ++ separator :: rest) = piece :: pieces separator rest := by
  induction piece with
  | nil => rw [List.nil_append, pieces, if_pos rfl]
  | cons c piece ih =>
    rw [List.mem_cons, not_or] at absent
    rw [List.cons_append, pieces_cons_of_ne (Ne.symm absent.1), ih absent.2]
    rfl

theorem pieces_of_not_mem (absent : separator ∉ piece) : pieces separator piece = [piece] := by
  induction piece with
  | nil => rfl
  | cons c piece ih =>
    rw [List.mem_cons, not_or] at absent
    rw [pieces_cons_of_ne (Ne.symm absent.1), ih absent.2]
    rfl

theorem dropReturns_eq (line : List Char) : dropReturns line = line.rdropWhile (· == '\r') := rfl

end Rulebook.Text
