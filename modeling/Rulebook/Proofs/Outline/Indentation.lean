import Rulebook.Outline
import Rulebook.Proofs.Text

/-! The tree of a text by indentation. Read in order, its lines are those of the text that are not
blank; each is under the last line before it that is indented less, and at the top if none is. -/
namespace Rulebook

/-- A block of a forest and the number of the block that it is under, where the blocks are numbered
in the order of their lines. -/
structure Spot where
  block : Block
  parent : Option Nat

namespace Block

mutual

/-- A block and those in it, each before those under it, numbered from `n` on. -/
def spots (parent : Option Nat) (n : Nat) : Block → List Spot
  | ⟨line, children⟩ => ⟨⟨line, children⟩, parent⟩ :: spotsOf (some n) (n + 1) children

def spotsOf (parent : Option Nat) (n : Nat) : List Block → List Spot
  | [] => []
  | block :: blocks =>
    block.spots parent n ++ spotsOf parent (n + block.lines.length) blocks

end

theorem linesOf_append (first second : List Block) :
    linesOf (first ++ second) = linesOf first ++ linesOf second := by
  induction first with
  | nil => rfl
  | cons block blocks ih =>
    rw [List.cons_append, linesOf, linesOf, ih, List.append_assoc]

section Spots
variable {p : Option Nat} {n : Nat} {spot : Spot}

mutual

theorem line_spots (p : Option Nat) (n : Nat) :
    (block : Block) → (block.spots p n).map (·.block.line) = block.lines
  | ⟨line, children⟩ => by
    rw [spots, lines, List.map_cons, line_spotsOf]

theorem line_spotsOf (p : Option Nat) (n : Nat) :
    (blocks : List Block) → (spotsOf p n blocks).map (·.block.line) = linesOf blocks
  | [] => rfl
  | block :: blocks => by
    rw [spotsOf, linesOf, List.map_append, line_spots, line_spotsOf]

end

theorem length_spots (p : Option Nat) (n : Nat) (block : Block) :
    (block.spots p n).length = block.lines.length := by
  rw [← line_spots p n, List.length_map]

theorem length_spotsOf (p : Option Nat) (n : Nat) (blocks : List Block) :
    (spotsOf p n blocks).length = (linesOf blocks).length := by
  rw [← line_spotsOf p n, List.length_map]

theorem spotsOf_append (p : Option Nat) (n : Nat) (first second : List Block) :
    spotsOf p n (first ++ second) =
      spotsOf p n first ++ spotsOf p (n + (linesOf first).length) second := by
  induction first generalizing n with
  | nil => rfl
  | cons block blocks ih =>
    rw [List.cons_append, spotsOf, ih, spotsOf, linesOf, List.length_append, List.append_assoc,
      Nat.add_assoc]

mutual

/-- A block is where the others are, or under one of those that come before it there. -/
theorem parent_spots {p : Option Nat} {n : Nat} {spot : Spot} :
    (block : Block) → spot ∈ block.spots p n →
      spot.parent = p ∨ ∃ m, spot.parent = some m ∧ n ≤ m ∧ m < n + block.lines.length
  | ⟨line, children⟩, there => by
    rw [spots] at there
    rw [lines, List.length_cons]
    rcases List.mem_cons.mp there with rfl | below
    · exact .inl rfl
    · right
      rcases parent_spotsOf children below with here | ⟨m, under, low, high⟩
      · exact ⟨n, here, Nat.le_refl n, by omega⟩
      · exact ⟨m, under, by omega, by omega⟩

theorem parent_spotsOf {p : Option Nat} {n : Nat} {spot : Spot} :
    (blocks : List Block) → spot ∈ spotsOf p n blocks →
      spot.parent = p ∨ ∃ m, spot.parent = some m ∧ n ≤ m ∧ m < n + (linesOf blocks).length
  | [], there => by cases there
  | block :: blocks, there => by
    rw [spotsOf] at there
    rw [linesOf, List.length_append]
    rcases List.mem_append.mp there with here | later
    · rcases parent_spots block here with same | ⟨m, under, low, high⟩
      · exact .inl same
      · exact .inr ⟨m, under, low, by omega⟩
    · rcases parent_spotsOf blocks later with same | ⟨m, under, low, high⟩
      · exact .inl same
      · exact .inr ⟨m, under, by omega, by omega⟩

end

def under (p : Option Nat) (spots : List Spot) : List Block :=
  (spots.filter (·.parent = p)).map (·.block)

theorem under_append (p : Option Nat) (first second : List Spot) :
    under p (first ++ second) = under p first ++ under p second := by
  rw [under, List.filter_append, List.map_append, under, under]

theorem under_eq_nil {spots : List Spot} (none : ∀ spot ∈ spots, spot.parent ≠ p) :
    under p spots = [] := by
  rw [under, List.filter_eq_nil_iff.mpr fun spot there => by simpa using none spot there]
  rfl

def Precedes (p : Option Nat) (n : Nat) : Prop := ∀ m, p = some m → m < n

theorem precedes_none (n : Nat) : Precedes none n := nofun

theorem precedes_self (n : Nat) : Precedes (some n) (n + 1) := by
  rintro m ⟨⟩
  exact Nat.lt_succ_self n

theorem Precedes.mono {more : Nat} (precedes : Precedes p n) (le : n ≤ more) : Precedes p more :=
  fun m same => Nat.lt_of_lt_of_le (precedes m same) le

/-- The blocks of a forest are those at its own place. -/
theorem under_spotsOf (precedes : Precedes p n) (blocks : List Block) :
    under p (spotsOf p n blocks) = blocks := by
  induction blocks generalizing n with
  | nil => rfl
  | cons block blocks ih =>
    rw [spotsOf, under_append, ih (precedes.mono (Nat.le_add_right _ _))]
    obtain ⟨line, children⟩ := block
    have below : under p (spotsOf (some n) (n + 1) children) = [] := by
      refine under_eq_nil fun spot there same => ?_
      rcases parent_spotsOf children there with here | ⟨m, other, low, _⟩
      · exact Nat.lt_irrefl n (precedes n (same.symm.trans here))
      · have := precedes m (same.symm.trans other)
        omega
    rw [spots, ← List.singleton_append, under_append, below]
    simp [under]

mutual

/-- The children of a block are the blocks under it. -/
theorem children_spots {p : Option Nat} {n : Nat} (precedes : Precedes p n) :
    (block : Block) → ∀ k spot, (block.spots p n)[k]? = some spot →
      spot.block.children = under (some (n + k)) (block.spots p n)
  | ⟨line, children⟩, k, spot, there => by
    have apart : under (some (n + k)) [⟨⟨line, children⟩, p⟩] = [] := by
      refine under_eq_nil fun spot here same => ?_
      rw [List.mem_singleton.mp here] at same
      have := precedes _ same
      omega
    rw [spots, ← List.singleton_append, under_append, apart, List.nil_append]
    rw [spots] at there
    cases k with
    | zero =>
      cases there
      exact (under_spotsOf (precedes_self n) children).symm
    | succ k =>
      have below := children_spotsOf (precedes_self n) children k spot there
      rw [below, Nat.add_assoc, Nat.add_comm 1 k]

theorem children_spotsOf {p : Option Nat} {n : Nat} (precedes : Precedes p n) :
    (blocks : List Block) → ∀ k spot, (spotsOf p n blocks)[k]? = some spot →
      spot.block.children = under (some (n + k)) (spotsOf p n blocks)
  | [], k, spot, there => by cases there
  | block :: blocks, k, spot, there => by
    rw [spotsOf] at there
    rw [spotsOf, under_append]
    by_cases here : k < block.lines.length
    · rw [List.getElem?_append_left (by rwa [length_spots])] at there
      have apart : under (some (n + k)) (spotsOf p (n + block.lines.length) blocks) = [] := by
        refine under_eq_nil fun spot later same => ?_
        rcases parent_spotsOf blocks later with outer | ⟨m, other, low, _⟩
        · have := precedes _ (outer.symm.trans same)
          omega
        · cases other.symm.trans same
          omega
      rw [apart, List.append_nil]
      exact children_spots precedes block k spot there
    · rw [List.getElem?_append_right (by rw [length_spots]; omega), length_spots] at there
      have apart : under (some (n + k)) (block.spots p n) = [] := by
        refine under_eq_nil fun spot earlier same => ?_
        rcases parent_spots block earlier with outer | ⟨m, other, _, high⟩
        · have := precedes _ (outer.symm.trans same)
          omega
        · cases other.symm.trans same
          omega
      have within := children_spotsOf (precedes.mono (Nat.le_add_right _ _)) blocks _ spot there
      rw [apart, List.nil_append, within]
      congr 2
      omega

end

/-- A number among others, when `n` blocks come to stand before all, the first of which is `p`. -/
def renumber (p : Option Nat) (n : Nat) : Option Nat → Option Nat
  | none => p
  | some m => some (m + n)

mutual

theorem parents_spots (p q : Option Nat) (m n : Nat) :
    (block : Block) → (block.spots (renumber p n q) (m + n)).map (·.parent) =
      (block.spots q m).map fun spot => renumber p n spot.parent
  | ⟨line, children⟩ => by
    have below := parents_spotsOf p (some m) (m + 1) n children
    rw [Nat.add_right_comm] at below
    rw [spots, spots, List.map_cons, List.map_cons]
    exact congrArg _ below

theorem parents_spotsOf (p q : Option Nat) (m n : Nat) :
    (blocks : List Block) → (spotsOf (renumber p n q) (m + n) blocks).map (·.parent) =
      (spotsOf q m blocks).map fun spot => renumber p n spot.parent
  | [] => rfl
  | block :: blocks => by
    rw [spotsOf, spotsOf, List.map_append, List.map_append, parents_spots, Nat.add_right_comm,
      parents_spotsOf]

end

end Spots

section Nesting

theorem nest_eq (line : Line) (forest : List Block) :
    nest line forest =
      ⟨line, forest.takeWhile fun block => decide (line.indent < block.line.indent)⟩ ::
        forest.dropWhile fun block => decide (line.indent < block.line.indent) := rfl

theorem linesOf_nest (line : Line) (forest : List Block) :
    linesOf (nest line forest) = line :: linesOf forest := by
  rw [nest_eq, linesOf, lines, List.cons_append, ← linesOf_append,
    List.takeWhile_append_dropWhile]

theorem ofLines_cons (line : Line) (lines : List Line) :
    ofLines (line :: lines) = nest line (ofLines lines) := rfl

theorem linesOf_ofLines (lines : List Line) : linesOf (ofLines lines) = lines := by
  induction lines with
  | nil => rfl
  | cons line lines ih => rw [ofLines_cons, linesOf_nest, ih]

/-- No block at the top is indented deeper than one before it. -/
def Descending (forest : List Block) : Prop :=
  forest.Pairwise fun block later => later.line.indent ≤ block.line.indent

/-- A line takes the first blocks, all of them deeper; of the others none is deeper. -/
theorem Descending.exists_nest {forest : List Block} (descending : Descending forest)
    (line : Line) : ∃ inner outer, forest = inner ++ outer ∧
      nest line forest = ⟨line, inner⟩ :: outer ∧
      (∀ block ∈ inner, line.indent < block.line.indent) ∧
      ∀ block ∈ outer, block.line.indent ≤ line.indent := by
  refine ⟨_, _, List.takeWhile_append_dropWhile.symm, nest_eq line forest,
    fun block there => ?_, ?_⟩
  · simpa using List.mem_takeWhile_imp there
  have rest := descending.sublist
    (List.dropWhile_sublist fun block => decide (line.indent < block.line.indent))
  have stop := List.head?_dropWhile_not
    (fun block : Block => decide (line.indent < block.line.indent)) forest
  cases remains : forest.dropWhile fun block => decide (line.indent < block.line.indent) with
  | nil => nofun
  | cons first others =>
    rw [remains] at rest stop
    have shallow : first.line.indent ≤ line.indent := by simpa using stop
    refine List.forall_mem_cons.mpr ⟨shallow, fun block there => ?_⟩
    exact Nat.le_trans (List.rel_of_pairwise_cons rest there) shallow

theorem descending_ofLines (lines : List Line) : Descending (ofLines lines) := by
  induction lines with
  | nil => exact .nil
  | cons line lines ih =>
    obtain ⟨inner, outer, whole, nested, _, shallow⟩ := ih.exists_nest line
    rw [ofLines_cons, nested]
    rw [whole] at ih
    exact .cons shallow (List.pairwise_append.mp ih).2.1

end Nesting

end Block

def indentAt (lines : List Line) (i : Nat) : Nat := (lines[i]?.map (·.indent)).getD 0

/-- The last line before that of a number which is indented less. -/
def nearest? (lines : List Line) (i : Nat) : Option Nat :=
  ((List.range i).filter fun j => decide (indentAt lines j < indentAt lines i)).getLast?

namespace Block

/-- A line before the others is the nearest only where none of them is. -/
theorem nearest?_cons (line : Line) (lines : List Line) (i : Nat) :
    nearest? (line :: lines) (i + 1) =
      renumber (if line.indent < indentAt lines i then some 0 else none) 1 (nearest? lines i) := by
  have shift : (List.range (i + 1)).filter
      (fun j => decide (indentAt (line :: lines) j < indentAt lines i)) =
      (if line.indent < indentAt lines i then [0] else []) ++
        ((List.range i).filter fun j => decide (indentAt lines j < indentAt lines i)).map
          Nat.succ := by
    have first : indentAt (line :: lines) 0 = line.indent := rfl
    rw [List.range_succ_eq_map, List.filter_cons, List.filter_map, first]
    by_cases deeper : line.indent < indentAt lines i
    · rw [if_pos deeper, if_pos (decide_eq_true deeper)]
      rfl
    · rw [if_neg deeper, if_neg (by simpa using deeper)]
      rfl
  change ((List.range (i + 1)).filter
    fun j => decide (indentAt (line :: lines) j < indentAt lines i)).getLast? = _
  rw [shift, List.getLast?_append, List.getLast?_map, nearest?]
  cases ((List.range i).filter fun j => decide (indentAt lines j < indentAt lines i)).getLast? with
  | none => split <;> rfl
  | some j => rfl

/-- Where the nearest lines are known, a line that comes to stand before the others becomes the
nearest of those at the top that are indented deeper. -/
theorem nearest?_before {lines : List Line} {spots : List Spot}
    (order : spots.map (·.block.line) = lines)
    (parents : spots.map (·.parent) = (List.range lines.length).map (nearest? lines))
    (line : Line) :
    (List.range lines.length).map (fun i => nearest? (line :: lines) (i + 1)) =
      spots.map fun spot =>
        renumber (if line.indent < spot.block.line.indent then some 0 else none) 1 spot.parent := by
  have size : spots.length = lines.length := by rw [← order, List.length_map]
  apply List.ext_getElem (by simp [size])
  intro i there here
  rw [List.length_map] at here
  have parent : spots[i].parent = nearest? lines i := by
    have same := List.getElem_of_eq parents (i := i) (by simpa using here)
    simpa using same
  have indent : indentAt lines i = spots[i].block.line.indent := by
    rw [indentAt, ← order, List.getElem?_map, List.getElem?_eq_getElem here]
    rfl
  rw [List.getElem_map, List.getElem_map, List.getElem_range, nearest?_cons, parent, indent]

theorem mem_of_parent {p : Option Nat} {n : Nat} {blocks : List Block} {spot : Spot}
    (precedes : Precedes p n) (there : spot ∈ spotsOf p n blocks) (same : spot.parent = p) :
    spot.block ∈ blocks := by
  rw [← under_spotsOf precedes blocks]
  exact List.mem_map_of_mem (List.mem_filter.mpr ⟨there, by simpa using same⟩)

/-- Each line is under the nearest line before it. -/
theorem parents_ofLines (lines : List Line) :
    (spotsOf none 0 (ofLines lines)).map (·.parent) =
      (List.range lines.length).map (nearest? lines) := by
  induction lines with
  | nil => rfl
  | cons line lines ih =>
    have order : (spotsOf none 0 (ofLines lines)).map (·.block.line) = lines := by
      rw [line_spotsOf, linesOf_ofLines]
    rw [List.length_cons, List.range_succ_eq_map, List.map_cons, List.map_map]
    change _ = none :: (List.range lines.length).map fun i => nearest? (line :: lines) (i + 1)
    rw [nearest?_before order ih]
    obtain ⟨inner, outer, whole, nested, deep, shallow⟩ :=
      (descending_ofLines lines).exists_nest line
    rw [ofLines_cons, nested, whole, spotsOf_append, List.map_append, spotsOf, spots, Block.lines,
      List.map_append, List.map_cons, List.cons_append]
    congr 1
    congr 1
    · refine (parents_spotsOf (some 0) none 0 1 inner).trans
        (List.map_congr_left fun spot there => ?_)
      cases parent : spot.parent with
      | none => rw [if_pos (deep _ (mem_of_parent (precedes_none 0) there parent))]
      | some m => rfl
    · rw [Nat.zero_add, Nat.zero_add]
      refine (parents_spotsOf none none _ 1 outer).trans (List.map_congr_left fun spot there => ?_)
      cases parent : spot.parent with
      | none =>
        have below := shallow _ (mem_of_parent (precedes_none _) there parent)
        rw [if_neg (Nat.not_lt.mpr below)]
      | some m => rfl

theorem nth?_mem {blocks : List Block} {n : Int} {block : Block}
    (found : nth? blocks n = some block) : block ∈ blocks := by
  rw [nth?] at found
  generalize (if n < 0 then n + blocks.length else n) = place at found
  split at found
  · cases found
  · exact List.mem_of_getElem? found

/-- The lines above a block are those of the block that it is under, of the one that this is under,
and so on to the top. -/
inductive Ascends (spots : List Spot) : Option Nat → List Line → Prop where
  | top : Ascends spots none []
  | up {m : Nat} {spot : Spot} {above : List Line} : spots[m]? = some spot →
      Ascends spots spot.parent above → Ascends spots (some m) (spot.block.line :: above)

/-- A block of a forest comes with the blocks in it right after it. -/
theorem exists_spots {block : Block} {blocks : List Block} (there : block ∈ blocks)
    (p : Option Nat) (n : Nat) :
    ∃ earlier later, spotsOf p n blocks = earlier ++ (⟨block, p⟩ ::
      (spotsOf (some (n + earlier.length)) (n + earlier.length + 1) block.children ++ later)) := by
  obtain ⟨before, after, rfl⟩ := List.append_of_mem there
  obtain ⟨line, children⟩ := block
  refine ⟨spotsOf p n before,
    spotsOf p (n + (linesOf before).length + (Block.mk line children).lines.length) after, ?_⟩
  rw [spotsOf_append, spotsOf, Block.spots, length_spotsOf, List.cons_append]

/-- Wherever a forest stands among other blocks, a block in it at the end of a path stands below the
lines above it. -/
theorem ascends_at? {spots front back : List Spot} {blocks : List Block} {p : Option Nat}
    {above lines : List Line} {path : List Int} {block : Block}
    (whole : spots = front ++ (spotsOf p front.length blocks ++ back)) (up : Ascends spots p above)
    (found : at? above blocks path = some (lines, block)) :
    ∃ (i : Nat) (spot : Spot), spots[i]? = some spot ∧ spot.block = block ∧
      Ascends spots spot.parent lines := by
  induction path generalizing above blocks front back p with
  | nil => cases found
  | cons n path ih =>
    cases here : nth? blocks n with
    | none => simp [at?, here] at found
    | some next =>
      obtain ⟨earlier, later, placed⟩ := exists_spots (nth?_mem here) p front.length
      rw [placed, List.append_assoc, ← List.append_assoc, ← List.length_append] at whole
      generalize front ++ earlier = first at whole
      have place : spots[first.length]? = some ⟨next, p⟩ := by
        rw [whole, List.getElem?_append_right (Nat.le_refl _), Nat.sub_self]
        rfl
      cases path with
      | nil =>
        simp only [at?, here, Option.some.injEq, Prod.mk.injEq] at found
        obtain ⟨rfl, rfl⟩ := found
        exact ⟨_, _, place, rfl, up⟩
      | cons n path =>
        rw [at?.eq_def] at found
        simp only [here] at found
        have onward : spots = (first ++ [Spot.mk next p]) ++
            (spotsOf (some first.length) (first ++ [Spot.mk next p]).length next.children ++
              (later ++ back)) := by
          simp [whole]
        exact ih onward (.up place up) found

end Block

/-- A forest nests lines by indentation. In order, its lines are these, and each is under the
nearest line before it; the forest has the blocks that are under none, a block has those under it,
and the lines above a block at the end of a path are those that it is under. -/
structure Nests (lines : List Line) (forest : List Block) : Prop where
  order : (Block.spotsOf none 0 forest).map (·.block.line) = lines
  parents : (Block.spotsOf none 0 forest).map (·.parent) =
    (List.range lines.length).map (nearest? lines)
  roots : forest = Block.under none (Block.spotsOf none 0 forest)
  children : ∀ (i : Nat) (spot : Spot), (Block.spotsOf none 0 forest)[i]? = some spot →
    spot.block.children = Block.under (some i) (Block.spotsOf none 0 forest)
  above : ∀ path above block, Block.at? [] forest path = some (above, block) →
    ∃ (i : Nat) (spot : Spot), (Block.spotsOf none 0 forest)[i]? = some spot ∧
      spot.block = block ∧ Block.Ascends (Block.spotsOf none 0 forest) spot.parent above

theorem nests_ofLines (lines : List Line) : Nests lines (Block.ofLines lines) where
  order := by rw [Block.line_spotsOf, Block.linesOf_ofLines]
  parents := Block.parents_ofLines lines
  roots := (Block.under_spotsOf (Block.precedes_none 0) _).symm
  children i spot there := by
    rw [Block.children_spotsOf (Block.precedes_none 0) _ i spot there, Nat.zero_add]
  above path above block found := by
    have whole : Block.spotsOf none 0 (Block.ofLines lines) =
        [] ++ (Block.spotsOf none 0 (Block.ofLines lines) ++ []) := (List.append_nil _).symm
    exact Block.ascends_at? whole .top found

/-- The tree of a text nests its lines by indentation: those between line feeds that are not blank,
read without the carriage returns at their ends. -/
theorem outline_nests (text : String) :
    Nests (((text.toList.splitOn '\n').filter (·.any (!Text.isBlank ·))).map fun raw =>
      .ofChars (raw.rdropWhile (· == '\r'))) (outline text) := by
  have lines : linesOfText text = ((text.toList.splitOn '\n').filter
      (·.any (!Text.isBlank ·))).map fun raw => .ofChars (raw.rdropWhile (· == '\r')) := by
    rw [linesOfText, Text.splitLines, Text.pieces_eq_splitOn]
    simp only [Text.isBlankLine, List.not_all_eq_any_not]
    rfl
  rw [← lines]
  exact nests_ofLines _

/-- A file that is indented as a whole, with a blank line in it and a step back to where no line was
before. -/
example : (Block.spotsOf none 0 (outline "    a\n      b\n  c\n \n    d\r\n   e")).map (·.parent) =
    [none, some 0, none, some 2, some 2] := by decide +kernel

end Rulebook
