import Rulebook.Outline
import Rulebook.Proofs.Derivation

/-! What a text says. A claim at the top is a fact. A claim further down, outside the payload of an
action, holds under every valuation that makes the conditions above it hold. -/
namespace Rulebook

/-- A line of a text with the lines above it, nearest first. -/
structure Position where
  above : List Line
  line : Line

namespace Block

mutual

def places (above : List Line) : Block → List Position
  | ⟨line, children⟩ => ⟨above, line⟩ :: placesOf (line :: above) children

def placesOf (above : List Line) : List Block → List Position
  | [] => []
  | block :: blocks => block.places above ++ placesOf above blocks

end

end Block

def placesOfText (text : String) : List Position := Block.placesOf [] (outline text)

/-- A claim at the top. -/
def Position.isFact (place : Position) : Bool := place.line.kind == .claim && place.above.isEmpty

/-- A claim further down that no action is above of. -/
def Position.isRule (place : Position) : Bool :=
  place.line.kind == .claim && !place.above.isEmpty && place.above.all (·.kind != .action)

def factsAmong (places : List Position) : List Phrase :=
  (places.filter Position.isFact).map (·.line.phrase)

def rulesAmong (places : List Position) : List Position := places.filter Position.isRule

/-- What follows from facts and rules: the facts, and each claim of a rule under a valuation under
which all conditions above it follow. -/
inductive Follows (facts : List Phrase) (rules : List Position) : String → List String → Prop where
  | fact {fact : Phrase} : fact ∈ facts → Follows facts rules fact.key (fact.args.map Term.key)
  | rule {place : Position} (σ : Valuation) : place ∈ rules →
      (∀ condition ∈ place.above, condition.kind = .condition →
        Follows facts rules condition.phrase.key (condition.phrase.args.map (Term.under σ))) →
      Follows facts rules place.line.phrase.key (place.line.phrase.args.map (Term.under σ))

theorem factsAmong_append (first second : List Position) :
    factsAmong (first ++ second) = factsAmong first ++ factsAmong second := by
  rw [factsAmong, List.filter_append, List.map_append, factsAmong, factsAmong]

theorem rulesAmong_append (first second : List Position) :
    rulesAmong (first ++ second) = rulesAmong first ++ rulesAmong second :=
  List.filter_append ..

namespace Block

mutual

/-- The lines above a block are above all of its lines. -/
theorem above_of_places {above : List Line} {place : Position} :
    (block : Block) → place ∈ block.places above → above <:+ place.above
  | ⟨line, children⟩, inside => by
    rw [places] at inside
    rcases List.mem_cons.mp inside with rfl | below
    · exact List.suffix_rfl
    · exact (List.suffix_cons line above).trans (above_of_placesOf children below)

theorem above_of_placesOf {above : List Line} {place : Position} :
    (blocks : List Block) → place ∈ placesOf above blocks → above <:+ place.above
  | [], inside => by cases inside
  | block :: blocks, inside => by
    rw [placesOf] at inside
    rcases List.mem_append.mp inside with here | later
    · exact above_of_places block here
    · exact above_of_placesOf blocks later

end

/-- Nothing under an action is a fact or a rule. -/
theorem none_under_action (above : List Line) {line : Line} (action : line.kind = .action)
    (blocks : List Block) : factsAmong (placesOf (line :: above) blocks) = [] ∧
      rulesAmong (placesOf (line :: above) blocks) = [] := by
  have under {place : Position} (inside : place ∈ placesOf (line :: above) blocks) :
      line ∈ place.above :=
    (above_of_placesOf blocks inside).subset List.mem_cons_self
  constructor
  · refine List.map_eq_nil_iff.mpr (List.filter_eq_nil_iff.mpr fun place inside fact => ?_)
    simp only [Position.isFact, Bool.and_eq_true, List.isEmpty_iff] at fact
    have here := under inside
    rw [fact.2] at here
    cases here
  · apply List.filter_eq_nil_iff.mpr
    intro place inside rule
    simp only [Position.isRule, Bool.and_eq_true, List.all_eq_true, bne_iff_ne] at rule
    exact rule.2 line (under inside) action

end Block
end Rulebook
