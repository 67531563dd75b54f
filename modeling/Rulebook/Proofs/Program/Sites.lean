import Rulebook.Proofs.Machine.Operation
import Rulebook.Proofs.Program.Meaning

/-! Loading line by line. A text is loaded by taking its lines in order, each with the lines above
it; the lines under an action go with the action as its payload. -/
namespace Rulebook

/-- A line that is loaded, in its place; an action has its payload with it. -/
structure Site extends Position where
  payload : List Line := []

namespace Block

mutual

/-- The lines of a block that are loaded, in order. -/
def sites (above : List Line) : Block → List Site
  | ⟨line, children⟩ =>
    if line.kind = .action then [⟨⟨above, line⟩, children.map (·.line)⟩]
    else ⟨⟨above, line⟩, []⟩ :: sitesOf (line :: above) children

def sitesOf (above : List Line) : List Block → List Site
  | [] => []
  | block :: blocks => block.sites above ++ sitesOf above blocks

end

mutual

/-- The lines that are loaded are among all lines. -/
theorem place_of_sites {above : List Line} {site : Site} :
    (block : Block) → site ∈ block.sites above → site.toPosition ∈ block.places above
  | ⟨line, children⟩, inside => by
    rw [sites] at inside
    rw [places]
    split at inside
    · rw [List.mem_singleton.mp inside]
      exact List.mem_cons_self
    · rcases List.mem_cons.mp inside with rfl | below
      · exact List.mem_cons_self
      · exact List.mem_cons_of_mem _ (place_of_sitesOf children below)

theorem place_of_sitesOf {above : List Line} {site : Site} :
    (blocks : List Block) → site ∈ sitesOf above blocks → site.toPosition ∈ placesOf above blocks
  | [], inside => by cases inside
  | block :: blocks, inside => by
    rw [sitesOf] at inside
    rw [placesOf]
    rcases List.mem_append.mp inside with here | later
    · exact List.mem_append_left _ (place_of_sites block here)
    · exact List.mem_append_right _ (place_of_sitesOf blocks later)

end

end Block

def sitesOfText (text : String) : List Site := Block.sitesOf [] (outline text)

theorem place_of_text {text : String} {site : Site} (inside : site ∈ sitesOfText text) :
    site.toPosition ∈ placesOfText text :=
  Block.place_of_sitesOf _ inside

namespace Machine

def loadSite (site : Site) : MachineM Unit :=
  match site.line.kind with
  | .action => loadAction site.above site.line site.payload
  | .claim =>
    if site.above.isEmpty then assert site.line.phrase.key site.line.phrase.args true
    else loadRule site.above site.line
  | .exclusion => loadExclusion site.above site.line
  | _ => pure ()

theorem forM_sites (site : Site) (sites : List Site) :
    (site :: sites).forM loadSite = (do loadSite site; sites.forM loadSite) := rfl

mutual

/-- A block is loaded line by line. -/
theorem loadBlock_eq (above : List Line) :
    (block : Block) → loadBlock above block = (block.sites above).forM loadSite
  | ⟨line, children⟩ => by
    have below := loadBlocks_eq (line :: above) children
    rw [loadBlock, Block.sites, below]
    dsimp only
    split
    · rename_i action
      rw [if_pos action, forM_sites, loadSite]
      dsimp only
      rw [action]
      exact (bind_pure _).symm
    · rename_i claim
      have other : line.kind ≠ .action := by rw [claim]; decide
      rw [if_neg other, forM_sites, loadSite]
      dsimp only
      rw [claim]
      dsimp only
      split <;> rfl
    · rename_i exclusion
      have other : line.kind ≠ .action := by rw [exclusion]; decide
      rw [if_neg other, forM_sites, loadSite]
      dsimp only
      rw [exclusion]
    · rename_i action claim exclusion
      rw [if_neg action, forM_sites, loadSite]
      dsimp only
      split
      · contradiction
      · contradiction
      · contradiction
      · exact (pure_bind _ _).symm

theorem loadBlocks_eq (above : List Line) :
    (blocks : List Block) → loadBlocks above blocks = (Block.sitesOf above blocks).forM loadSite
  | [] => rfl
  | block :: blocks => by
    rw [loadBlocks, Block.sitesOf, loadBlock_eq above block, loadBlocks_eq above blocks]
    exact List.forM_append.symm

end

/-- A text is loaded line by line. -/
theorem load_eq (text : String) : load text = (sitesOfText text).forM loadSite :=
  loadBlocks_eq [] (outline text)

/-- What each of them keeps where it succeeds, operations keep one after the other. -/
theorem forM_kept {R : Machine → Machine → Prop} (refl : ∀ m, R m m)
    (trans : ∀ {m n k}, R m n → R n k → R m k) {operation : β → MachineM PUnit} {items : List β}
    (each : ∀ b ∈ items, ∀ m n, (operation b).run m = (.ok ⟨⟩, n) → R m n) {m n : Machine}
    (run : (items.forM operation).run m = (.ok ⟨⟩, n)) : R m n := by
  induction items generalizing m with
  | nil =>
    cases run
    exact refl _
  | cons b items ih =>
    obtain ⟨_, middle, first, others⟩ := bind_ok run
    exact trans (each b List.mem_cons_self m middle first)
      (ih (fun b inside => each b (List.mem_cons_of_mem _ inside)) others)

end Machine
end Rulebook
