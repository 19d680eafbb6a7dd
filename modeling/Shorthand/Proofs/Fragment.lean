import Shorthand.Fragment
import Shorthand.Proofs.WellFormed

/-!
# Compiled fragments

The node of a fragment is well-formed, as what was compiled is: its bindings are distinct, and each is bound
to a call of the tree.
-/
namespace Shorthand.Fragment.Compiler

/-- The bindings are under names of their own, and well-formed. -/
def Sound (c : Compiler) : Prop := (Node.map c.bindings).WellFormed

variable {c : Compiler}

theorem Sound.bind (h : c.Sound) (name : String) {value : Node} (hv : value.WellFormed) :
    (c.bind name value).Sound :=
  h.put name hv

theorem Sound.freshName (h : c.Sound) (avoid : List String) : (c.freshName avoid).2.Sound := h

theorem Sound.bindWhole (h : c.Sound) {whole : Node} (hw : whole.WellFormed) : (c.bindWhole whole).2.Sound :=
  (h.freshName []).bind _ hw

theorem Sound.foldl_bind (h : c.Sound) {entries : List (String × Node)} (he : ∀ e ∈ entries, e.2.WellFormed)
    (rename : String → String) :
    (entries.foldl (fun c (name, value) => c.bind (rename name) value) c).Sound := by
  induction entries generalizing c with
  | nil => exact h
  | cons e entries ih =>
      obtain ⟨hvalue, he⟩ := List.forall_mem_cons.mp he
      exact ih (h.bind _ hvalue) he

theorem Sound.renamings (h : c.Sound) (avoid : List String) (entries : List (String × Node)) :
    (c.renamings avoid entries).2.Sound := by
  induction entries generalizing c with
  | nil => exact h
  | cons e entries ih =>
      unfold Compiler.renamings
      simp only
      split
      · split
        · exact ih (h.freshName avoid)
        · exact ih h
      · exact ih h

theorem Sound.merge (h : c.Sound) {own : Table Node} {whole : Node} (ho : ∀ e ∈ own, e.2.WellFormed)
    (hw : whole.WellFormed) (template : String) : (c.merge template own whole).2.Sound := by
  have hr := h.renamings (Table.keys own) own
  unfold Compiler.merge
  simp only
  split
  · exact hr.bindWhole hw
  · exact hr.foldl_bind ho fun name => (Table.get? (c.renamings (Table.keys own) own).1 name).getD name

theorem Sound.splice (h : c.Sound) {name : String} {arg whole : Node} (ha : arg.WellFormed)
    (hw : whole.WellFormed) : (c.splice name arg whole).2.Sound := by
  have hb := h.bindWhole hw
  unfold Compiler.splice
  split
  · split
    · exact h
    · exact hb
  · split
    · split
      · exact h
      · exact h
      · exact hb
    · split
      · split
        · exact h
        · rename_i own
          have hown : (Node.map own).WellFormed := Node.wellFormed_list_iff.mp ha _ (by simp)
          exact h.merge (Node.wellFormed_map_iff.mp hown).2 hw _
        · exact hb
      · split
        · split
          · exact h
          · exact hb
        · split
          · exact h
          · exact hb

mutual
theorem Sound.walk {c : Compiler} (h : c.Sound) (node : Node) (hn : node.WellFormed) : (c.walk node).2.Sound := by
  match node with
  | .map [(name, arg)] =>
      have ha : arg.WellFormed := Node.wellFormed_call_iff.mp hn
      rw [Compiler.walk]
      split
      · exact h.splice ha hn
      · exact Sound.walk h arg ha
  | .map [] => exact h
  | .map (e :: e' :: entries) =>
      rw [Compiler.walk]
      · exact Sound.walkEntries h _ (Node.wellFormed_map_iff.mp hn).2
      · simp
  | .list items =>
      rw [Compiler.walk]
      exact Sound.walkItems h items (Node.wellFormed_list_iff.mp hn)
  | .text _ | .null | .bool _ | .number _ => exact h

theorem Sound.walkItems {c : Compiler} (h : c.Sound) (items : List Node) (hi : ∀ item ∈ items, item.WellFormed) :
    (c.walkItems items).2.Sound := by
  match items with
  | [] => exact h
  | item :: items =>
      obtain ⟨hitem, hi⟩ := List.forall_mem_cons.mp hi
      rw [Compiler.walkItems]
      exact Sound.walkItems (Sound.walk h item hitem) items hi

theorem Sound.walkEntries {c : Compiler} (h : c.Sound) (entries : List (String × Node))
    (he : ∀ e ∈ entries, e.2.WellFormed) : (c.walkEntries entries).2.Sound := by
  match entries with
  | [] => exact h
  | (key, value) :: entries =>
      obtain ⟨hvalue, he⟩ := List.forall_mem_cons.mp he
      rw [Compiler.walkEntries]
      exact Sound.walkEntries (Sound.walk h value hvalue) entries he
end

/-- What is compiled from a well-formed node is well-formed. -/
theorem wellFormed_compile (c : Compiler) {node : Node} (hn : node.WellFormed) :
    (c.compile node).1.toNode.WellFormed := by
  have h : Sound { c with bindings := [] } := Node.wellFormed_nil
  have hw := h.walk node hn
  unfold Compiler.compile
  simp only
  split
  · split
    · exact Node.wellFormed_call_iff.mpr trivial
    · refine Node.wellFormed_call_iff.mpr (Node.wellFormed_list_iff.mpr ?_)
      exact List.forall_mem_cons.mpr ⟨trivial, List.forall_mem_singleton.mpr hw⟩
  · exact trivial

end Shorthand.Fragment.Compiler
