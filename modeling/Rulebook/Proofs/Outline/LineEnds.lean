import Rulebook.Proofs.Outline.Printing
import Rulebook.Machine.Load

/-! Line ends of a rule file. A text file loses its carriage returns before it is cut into lines, a
text in memory afterwards, and then only those at the end of a line. So one that stands within a
line breaks it in the file and not in memory; where every run of them stands before a line feed or
at the end of the text, both readings have the same lines. -/
namespace Rulebook

/-- Every run of carriage returns is followed by a line feed or by nothing. -/
def ReturnsClosed (text : List Char) : Prop :=
  text.IsChain fun c next => c = '\r' → next = '\r' ∨ next = '\n'

instance (text : List Char) : Decidable (ReturnsClosed text) :=
  inferInstanceAs (Decidable (List.IsChain _ _))

def withReturns (text : List Char) : List Char :=
  text.flatMap fun c => if c = '\n' then ['\r', '\n'] else [c]

section Closed
variable {c : Char} {text : List Char}

theorem ReturnsClosed.of_cons (closed : ReturnsClosed (c :: text)) : ReturnsClosed text :=
  List.IsChain.of_cons closed

theorem ReturnsClosed.next {next : Char} (closed : ReturnsClosed ('\r' :: next :: text)) :
    next = '\r' ∨ next = '\n' :=
  (List.isChain_cons_cons.mp closed).1 rfl

theorem returnsClosed_cons (plain : c ≠ '\r') (closed : ReturnsClosed text) :
    ReturnsClosed (c :: text) := by
  cases text with
  | nil => exact .singleton c
  | cons next text => exact .cons_cons (fun returns => absurd returns plain) closed

theorem returnsClosed_of_not_mem (absent : '\r' ∉ text) : ReturnsClosed text := by
  induction text with
  | nil => exact .nil
  | cons c text ih =>
    rw [List.mem_cons, not_or] at absent
    exact returnsClosed_cons (Ne.symm absent.1) (ih absent.2)

theorem withReturns_newline (text : List Char) :
    withReturns ('\n' :: text) = '\r' :: '\n' :: withReturns text := rfl

theorem withReturns_cons (within : c ≠ '\n') (text : List Char) :
    withReturns (c :: text) = c :: withReturns text := by
  simp [withReturns, within]

theorem returnsClosed_withReturns (absent : '\r' ∉ text) : ReturnsClosed (withReturns text) := by
  induction text with
  | nil => exact .nil
  | cons c text ih =>
    rw [List.mem_cons, not_or] at absent
    by_cases breaks : c = '\n'
    · rw [breaks, withReturns_newline]
      exact .cons_cons (fun _ => .inr rfl) (returnsClosed_cons (by decide) (ih absent.2))
    · rw [withReturns_cons breaks]
      exact returnsClosed_cons (Ne.symm absent.1) (ih absent.2)

/-- Reading a text file undoes the carriage returns that were put in. -/
theorem unifyBreaks_withReturns (absent : '\r' ∉ text) :
    Text.unifyBreaks (withReturns text) = text := by
  induction text with
  | nil => rfl
  | cons c text ih =>
    rw [List.mem_cons, not_or] at absent
    by_cases breaks : c = '\n'
    · rw [breaks, withReturns_newline, Text.unifyBreaks, ih absent.2]
    · rw [withReturns_cons breaks, Text.unifyBreaks, if_neg (Ne.symm absent.1), ih absent.2]
      exact fun _ returns _ => absent.1 returns.symm

end Closed

section Lines
variable {raw text rest other : List Char}

theorem linesOfChars_newline (rest : List Char) :
    linesOfChars ('\n' :: rest) = linesOfChars rest := by
  have empty : '\n' ∉ ([] : List Char) := List.not_mem_nil
  exact linesOfChars_append empty rest

/-- What stands before a line feed is read apart from what follows. -/
theorem linesOfChars_congr (unbroken : '\n' ∉ raw) (same : linesOfChars rest = linesOfChars other) :
    linesOfChars (raw ++ '\n' :: rest) = linesOfChars (raw ++ '\n' :: other) := by
  rw [linesOfChars_append unbroken, linesOfChars_append unbroken, same]

theorem linesOfChars_pair (unbroken : '\n' ∉ raw) (rest : List Char) :
    linesOfChars (raw ++ '\r' :: '\n' :: rest) = linesOfChars (raw ++ '\n' :: rest) :=
  (linesOfChars_line unbroken (show ['\r', '\n'] ∈ lineEnds by decide) rest).trans
    (linesOfChars_append unbroken rest).symm

/-- The end of the text ends the last line as a line feed does. -/
theorem linesOfChars_last (unbroken : '\n' ∉ raw) :
    linesOfChars (raw ++ ['\n']) = linesOfChars raw := by
  rw [linesOfChars_append unbroken, linesOfChars_nil, linesOfChars, Text.splitLines,
    Text.pieces_of_not_mem unbroken, List.filter_cons]
  cases Text.isBlankLine raw <;> rfl

/-- A carriage return whose run stands before a line end says no more than a line feed in its
place: what the two leave before that line end is a blank line. -/
theorem linesOfChars_return (unbroken : '\n' ∉ raw) (closed : ReturnsClosed ('\r' :: rest)) :
    linesOfChars (raw ++ '\r' :: rest) = linesOfChars (raw ++ '\n' :: rest) := by
  induction rest generalizing raw with
  | nil =>
    have returns : '\n' ∉ raw ++ ['\r'] := by simpa using unbroken
    rw [← linesOfChars_last returns, List.append_assoc]
    exact linesOfChars_pair unbroken []
  | cons c after ih =>
    rcases closed.next with rfl | rfl
    · have returns : '\n' ∉ raw ++ ['\r'] := by simpa using unbroken
      have inner := ih returns closed.of_cons
      rw [List.append_assoc, List.append_assoc] at inner
      have outer : linesOfChars ('\r' :: after) = linesOfChars after :=
        (ih List.not_mem_nil closed.of_cons).trans (linesOfChars_newline after)
      calc linesOfChars (raw ++ '\r' :: '\r' :: after)
        _ = linesOfChars (raw ++ '\r' :: '\n' :: after) := inner
        _ = linesOfChars (raw ++ '\n' :: after) := linesOfChars_pair unbroken after
        _ = linesOfChars (raw ++ '\n' :: '\r' :: after) := linesOfChars_congr unbroken outer.symm
    · rw [linesOfChars_pair unbroken]
      exact linesOfChars_congr unbroken (linesOfChars_newline after).symm

/-- A text has the same lines before and after its line ends are unified. -/
theorem linesOfChars_unifyBreaks (unbroken : '\n' ∉ raw) (closed : ReturnsClosed text) :
    linesOfChars (raw ++ Text.unifyBreaks text) = linesOfChars (raw ++ text) := by
  fun_induction Text.unifyBreaks text generalizing raw with
  | case1 => rfl
  | case2 rest ih =>
    rw [linesOfChars_pair unbroken]
    exact linesOfChars_congr unbroken (ih List.not_mem_nil closed.of_cons.of_cons)
  | case3 c rest _ ih =>
    have after : linesOfChars (Text.unifyBreaks rest) = linesOfChars rest :=
      ih List.not_mem_nil closed.of_cons
    by_cases returns : c = '\r'
    · subst returns
      rw [if_pos rfl, linesOfChars_return unbroken closed]
      exact linesOfChars_congr unbroken after
    · rw [if_neg returns]
      by_cases breaks : c = '\n'
      · rw [breaks]
        exact linesOfChars_congr unbroken after
      · -- The character belongs to the line that is being read.
        have longer : '\n' ∉ raw ++ [c] := by simp [unbroken, Ne.symm breaks]
        simpa using ih longer closed.of_cons

end Lines

section Texts
variable {text : String}

theorem fileContents_toList (text : String) :
    (Text.fileContents text).toList = Text.unifyBreaks text.toList := String.toList_ofList

theorem outline_fileContents (closed : ReturnsClosed text.toList) :
    outline (Text.fileContents text) = outline text := by
  unfold outline
  rw [linesOfText_eq, linesOfText_eq, fileContents_toList]
  exact congrArg _ (linesOfChars_unifyBreaks List.not_mem_nil closed)

theorem fileContents_withReturns (absent : '\r' ∉ text.toList) :
    Text.fileContents (String.ofList (withReturns text.toList)) = text := by
  rw [Text.fileContents, String.toList_ofList, unifyBreaks_withReturns absent,
    String.ofList_toList]

end Texts

namespace Machine

/-- Loading a text file is loading the text it holds, where each run of carriage returns is followed
by a line feed or by nothing. So a rule file with CR LF line ends means what it means with line
feeds, from a file and from memory. -/
theorem loadFile_eq_load :
    (∀ text : String, ReturnsClosed text.toList → ∀ m, (loadFile text).run m = (load text).run m) ∧
      ∀ text : String, '\r' ∉ text.toList → ∀ m,
        let paired := String.ofList (withReturns text.toList)
        (load paired).run m = (load text).run m ∧ (loadFile paired).run m = (load text).run m ∧
          (loadFile text).run m = (load text).run m := by
  have file {text : String} (closed : ReturnsClosed text.toList) (m : Machine) :
      (loadFile text).run m = (load text).run m := by
    rw [loadFile, load, load, outline_fileContents closed]
  constructor
  · intro text closed m
    exact file closed m
  · intro text absent m paired
    have unified : (loadFile paired).run m = (load text).run m := by
      rw [loadFile, fileContents_withReturns absent]
    have closed : ReturnsClosed paired.toList := by
      rw [String.toList_ofList]
      exact returnsClosed_withReturns absent
    exact ⟨(file closed m).symm.trans unified, unified, file (returnsClosed_of_not_mem absent) m⟩

/-- A run of returns before a line feed, one at the end of the text, and both kinds of line end. -/
theorem loadFile_eq_load_mixed :
    let mixed := ":: a (x)\r\r\n\r\n  + b (x)\n+ a \"1\"\r"
    let plain := ":: a (x)\n\n  + b (x)\n+ a \"1\""
    ReturnsClosed mixed.toList ∧ (loadFile mixed).run {} = (load mixed).run {} ∧
      '\r' ∉ plain.toList ∧
      (load (String.ofList (withReturns plain.toList))).run {} = (load plain).run {} := by
  intro mixed plain
  have closed : ReturnsClosed mixed.toList := by decide
  have absent : '\r' ∉ plain.toList := by decide
  exact ⟨closed, loadFile_eq_load.1 mixed closed {}, absent, (loadFile_eq_load.2 plain absent {}).1⟩

end Machine

end Rulebook
