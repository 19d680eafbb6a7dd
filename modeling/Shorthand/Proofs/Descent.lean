import Mathlib.Order.WellFounded
import Shorthand.Proofs.Resolvers
import Shorthand.Proofs.WellFormed

/-!
# Why the walk ends

The walk goes on in what the resolvers put in place of a mapping, which may be deeper than the mapping was. A measure
that keeps a reserve for substitutions still gets smaller with each step down, so there is no endless descent, and the
levels that a walk is given are never used up.
-/
namespace Shorthand

namespace Chain

/-- One step down: to an item of a list, to a value of the mapping that is put in place of a mapping, or to what is put
there instead of a mapping. -/
inductive Descends (chain : Chain) : Node → Node → Prop
  | item {item : Node} {items : List Node} (h : item ∈ items) : Descends chain (.list items) item
  | value {entries news : List (String × Node)} {e : String × Node}
      (ha : chain.apply (.map entries) = .ok (.map news)) (h : e ∈ news) : Descends chain (.map entries) e.2
  | other {entries : List (String × Node)} {node : Node} (ha : chain.apply (.map entries) = .ok node)
      (hn : node.isMap = false) : Descends chain (.map entries) node

/-- A mapping is put in place of every mapping, and a measure gets smaller from the old one to the values of the new
one, as it does from a list to its items. -/
structure Decreases (chain : Chain) (measure : Node → Nat) : Prop where
  item : ∀ items, ∀ item ∈ items, measure item < measure (.list items)
  value : ∀ entries node, chain.apply (.map entries) = .ok node →
    ∃ news, node = .map news ∧ ∀ e ∈ news, measure e.2 < measure (.map entries)

variable {chain : Chain} {measure : Node → Nat}

theorem Decreases.lt_of_descends (h : chain.Decreases measure) {node child : Node}
    (hd : chain.Descends node child) : measure child < measure node := by
  cases hd with
  | item hi => exact h.item _ _ hi
  | value ha he =>
      obtain ⟨news, heq, hlt⟩ := h.value _ _ ha
      obtain rfl := Node.map.inj heq
      exact hlt _ he
  | other ha hn =>
      obtain ⟨news, rfl, _⟩ := h.value _ _ ha
      cases hn

theorem Decreases.wellFounded (h : chain.Decreases measure) :
    WellFounded fun child node => chain.Descends node child :=
  Subrelation.wf h.lt_of_descends (InvImage.wf measure Nat.lt_wfRel.wf)

theorem Shrinks.decreases (h : chain.Shrinks) : chain.Decreases Node.rank :=
  ⟨fun _ _ hi => Node.rank_item_lt hi, fun _ _ ha => h ha⟩

/-- Puts a reference, as it is, below another key. -/
def wrapper : Resolver :=
  { name := "wrapper", handles := (· == Call.ref), expand := fun name arg => .ok (.call "Wrapped" (.call name arg)) }

/-- Resolvers need not let a walk end: this one comes back to the call that it was given. -/
theorem not_decreases_wrapper (measure : Node → Nat) : ¬ Decreases [wrapper] measure := by
  intro h
  have ha : Chain.apply [wrapper] (.refTo "A") = .ok (.call "Wrapped" (.refTo "A")) := rfl
  exact Nat.lt_irrefl _ (h.lt_of_descends (.value ha List.mem_cons_self))

end Chain

namespace Expansion

/-- A text with an import becomes a list with a mapping of calls in it. -/
theorem apply_import (apis : Apis) (ms : Matrices) :
    (chain apis ms).apply (.call Call.sub (.text "$\x7bImport:x\x7d")) =
      .ok (.call Call.sub (.list [.text "$\x7bImport1\x7d",
        .map [("Import1", .call Call.importValue (.text "x"))]])) := by
  rfl

/-- The walk ends on every tree, whatever is declared. A single measure gets smaller with each step down, although what
is put in place of a mapping may be deeper than the mapping; so no descent is endless, levels above the measure of a
node are enough to answer, and the answer is that of the walk without levels. -/
theorem walk_ends :
    ∃ measure : Node → Nat, ∀ (apis : Apis) (ms : Matrices),
      (chain apis ms).Decreases measure ∧
      (WellFounded fun child node => (chain apis ms).Descends node child) ∧
      (∀ node levels, measure node < levels →
        (chain apis ms).rewriteWithin levels node =
          (some ((chain apis ms).rewrite node) : Option (Except Error Node))) ∧
      (∀ node, (chain apis ms).rewrite node = (chain apis ms).rewriteLevel node) ∧
      ∃ node child, (chain apis ms).Descends node child ∧ node.depth < child.depth := by
  refine ⟨Node.rank, fun apis ms => ?_⟩
  have hs : (chain apis ms).Shrinks := shrinks apis ms
  refine ⟨hs.decreases, hs.decreases.wellFounded, fun node levels => ?_, fun node => ?_, ?_⟩
  · exact Chain.rewriteWithin_eq_rewrite hs node levels
  · exact Chain.rewrite_eq_level hs node
  · exact ⟨_, _, .value (apply_import apis ms) List.mem_cons_self, by decide⟩

end Expansion
end Shorthand
