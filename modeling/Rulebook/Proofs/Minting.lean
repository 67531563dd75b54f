import Rulebook.Proofs.Machine.Operation
import Rulebook.Proofs.Renaming.Names
import Rulebook.Workbench

/-! Names from one source. Whatever a source is asked for, and whatever the hints and the names that
its salts are put before look like, also if they look minted: no variable comes twice, the names
made under one salt are not those made under another, and none of them is a fresh variable. -/
namespace Rulebook
namespace Naming

inductive Order where
  | number
  | fresh (hint : String)
  | salt

inductive Served where
  | number (id : Int)
  | fresh (term : Term)
  | salt (text : String)

namespace Served

def fresh? : Served → Option Term
  | .fresh term => some term
  | _ => none

def salt? : Served → Option String
  | .salt text => some text
  | _ => none

end Served

def Order.serve (id : Int) : Order → Served
  | .number => .number id
  | .fresh hint => .fresh (Naming.fresh id hint)
  | .salt => .salt (Naming.salt id)

/-- Orders served in turn, each with the id after the last one's. -/
def serveAll : Int → List Order → List Served
  | _, [] => []
  | next, order :: orders => order.serve next :: serveAll (next + 1) orders

theorem mem_serveAll {next : Int} {orders : List Order} {minted : Served}
    (inside : minted ∈ serveAll next orders) :
    ∃ id order, next ≤ id ∧ minted = Order.serve id order := by
  induction orders generalizing next with
  | nil => cases inside
  | cons order orders ih =>
    rcases List.mem_cons.mp inside with rfl | later
    · exact ⟨next, order, Int.le_refl next, rfl⟩
    · obtain ⟨id, other, bound, same⟩ := ih later
      exact ⟨id, other, by omega, same⟩

/-- What sets apart whatever is made of two ids sets apart all that is served. -/
theorem pairwise_serveAll {R : Served → Served → Prop}
    (apart : ∀ i j order other, i ≠ j → R (Order.serve i order) (Order.serve j other))
    (next : Int) (orders : List Order) : (serveAll next orders).Pairwise R := by
  induction orders generalizing next with
  | nil => exact .nil
  | cons order orders ih =>
    refine List.pairwise_cons.mpr ⟨?_, ih (next + 1)⟩
    intro later inside
    obtain ⟨id, other, bound, rfl⟩ := mem_serveAll inside
    exact apart next id order other (by omega)

theorem fresh?_serve {id : Int} {order : Order} {term : Term}
    (found : (order.serve id).fresh? = some term) : ∃ hint, term = fresh id hint := by
  cases order with
  | fresh hint =>
    cases found
    exact ⟨hint, rfl⟩
  | number => cases found
  | salt => cases found

theorem salt?_serve {id : Int} {order : Order} {text : String}
    (found : (order.serve id).salt? = some text) : text = salt id := by
  cases order with
  | salt =>
    cases found
    rfl
  | number => cases found
  | fresh hint => cases found

theorem salted_injective (salt : String) : Function.Injective (Term.salted salt) := by
  intro one other same
  cases one <;> cases other <;> simp_all [Term.salted]

/-- Nothing that is minted, or made with a salt that is, can be taken for anything else. -/
structure Distinct (minted : List Served) : Prop where
  fresh : (minted.filterMap Served.fresh?).Nodup
  /-- No two salts make the same variable, whatever names they are put before. -/
  salts : (minted.filterMap Served.salt?).Pairwise fun p q =>
    ∀ a b : String, (Term.var a).salted p ≠ (Term.var b).salted q
  faithful : ∀ p ∈ minted.filterMap Served.salt?,
    (Function.Injective fun terms : List Term => terms.map (·.salted p)) ∧
      ∀ value, (Term.lit value).salted p = .lit value
  apart : ∀ p ∈ minted.filterMap Served.salt?, ∀ v ∈ minted.filterMap Served.fresh?,
    ∀ term : Term, term.salted p ≠ v

theorem distinct_serveAll (next : Int) (orders : List Order) : Distinct (serveAll next orders) where
  fresh := by
    rw [List.Nodup, List.pairwise_filterMap]
    apply pairwise_serveAll
    rintro i j order other differ v found w given rfl
    obtain ⟨hint, rfl⟩ := fresh?_serve found
    obtain ⟨mark, same⟩ := fresh?_serve given
    exact differ (fresh_inj (congrArg Term.key same)).1
  salts := by
    rw [List.pairwise_filterMap]
    apply pairwise_serveAll
    rintro i j order other differ p found q given a b same
    obtain rfl := salt?_serve found
    obtain rfl := salt?_serve given
    exact differ (salt_append_inj (Term.var.inj same))
  faithful p _ := ⟨(salted_injective p).list_map, fun _ => rfl⟩
  apart := by
    intro p salts v fresh term same
    obtain ⟨_, inside, found⟩ := List.mem_filterMap.mp salts
    obtain ⟨i, order, _, rfl⟩ := mem_serveAll inside
    obtain rfl := salt?_serve found
    obtain ⟨_, member, given⟩ := List.mem_filterMap.mp fresh
    obtain ⟨j, other, _, rfl⟩ := mem_serveAll member
    obtain ⟨hint, rfl⟩ := fresh?_serve given
    cases term with
    | var name => exact fresh_ne_salt j i hint name (congrArg Term.key same).symm
    | lit value => cases same

end Naming

namespace Workbench
open Naming
variable {w : Workbench} {ids : String} {next : Int}

def mint (ids : String) (order : Order) : WorkbenchM Served := do
  return order.serve (← mintId ids)

def Supplies (w : Workbench) (ids : String) (next : Int) : Prop :=
  ∃ source, w.sources.get? ids = some source ∧ w.progress.nextIds[source]? = some next

theorem run_makeSource (w : Workbench) (ids : String) (start : Int) :
    ∃ source after, (makeSource ids start).run w = (.ok source, after) ∧
      after.Supplies ids start := by
  refine ⟨_, _, rfl, w.progress.nextIds.length, ?_, ?_⟩
  · rw [Table.get?_put, if_pos rfl]
  · simp

theorem Supplies.mint (supplies : w.Supplies ids next) (order : Order) :
    ∃ after, (mint ids order).run w = (.ok (order.serve next), after) ∧
      after.Supplies ids (next + 1) := by
  obtain ⟨source, known, place⟩ := supplies
  have found : (sourceOf ids).run w = (.ok source, w) := by
    unfold sourceOf
    rw [run_bind, run_get]
    simp only [known]
    rfl
  have id : w.progress.nextId source = next := by
    rw [Progress.nextId, List.getD_eq_getElem?_getD, place, Option.getD_some]
  have run : (mintId ids).run w =
      (.ok next, { w with progress := w.progress.advance source }) := by
    unfold mintId
    rw [run_bind_ok found, run_bind, run_get]
    simp only [id]
    rfl
  refine ⟨{ w with progress := w.progress.advance source }, ?_, source, known, ?_⟩
  · unfold Workbench.mint
    rw [run_bind_ok run, run_pure]
  · simp [Progress.advance, place]

theorem Supplies.mintAll (supplies : w.Supplies ids next) (orders : List Order) :
    ∃ after, (orders.mapM (Workbench.mint ids)).run w = (.ok (serveAll next orders), after) := by
  induction orders generalizing w next with
  | nil => exact ⟨w, rfl⟩
  | cons order orders ih =>
    obtain ⟨middle, first, supplies⟩ := supplies.mint order
    obtain ⟨after, others⟩ := ih supplies
    refine ⟨after, ?_⟩
    rw [List.mapM_cons, run_bind_ok first, run_bind_ok others, run_pure, serveAll]

/-- A new source serves orders in turn, and the names it gives stay apart for good. -/
theorem minted_distinct (w : Workbench) (ids : String) (start : Int) (orders : List Order) :
    ((do
      let _ ← makeSource ids start
      orders.mapM (mint ids) : WorkbenchM (List Served)).run w).1 = .ok (serveAll start orders) ∧
      Distinct (serveAll start orders) := by
  obtain ⟨source, made, run, supplies⟩ := run_makeSource w ids start
  obtain ⟨after, minted⟩ := supplies.mintAll orders
  refine ⟨?_, distinct_serveAll start orders⟩
  rw [run_bind_ok run, minted]

end Workbench
end Rulebook
