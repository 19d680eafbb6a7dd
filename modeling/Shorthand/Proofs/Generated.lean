import Shorthand.Expansion
import Shorthand.Proofs.Api.WellFormed
import Shorthand.Proofs.Families

/-!
# Generated definitions are well-formed

Whatever well-formed sections generate is well-formed.
-/
namespace Shorthand

/-! ## Stamped bodies -/

namespace Matrix

theorem keys_stampEntries (values : Table String) (entries : List (String × Node)) :
    Table.keys (stampEntries values entries) = Table.keys entries := by
  induction entries with
  | nil => rfl
  | cons e entries ih => exact congrArg (e.1 :: ·) ih

mutual
theorem wellFormed_stamp (values : Table String) (node : Node) (h : node.WellFormed) :
    (stamp values node).WellFormed := by
  match node with
  | .map entries =>
      obtain ⟨hd, he⟩ := Node.wellFormed_map_iff.mp h
      refine Node.wellFormed_map_iff.mpr ⟨?_, wellFormed_stampEntries values entries he⟩
      rw [Table.Distinct, keys_stampEntries]
      exact hd
  | .list items =>
      exact Node.wellFormed_list_iff.mpr (wellFormed_stampItems values items (Node.wellFormed_list_iff.mp h))
  | .text s =>
      rw [stamp]
      split
      · exact trivial
      · exact trivial
  | .null | .bool _ | .number _ => exact trivial

theorem wellFormed_stampItems (values : Table String) (items : List Node)
    (h : ∀ item ∈ items, item.WellFormed) : ∀ item ∈ stampItems values items, item.WellFormed := by
  match items with
  | [] => simp [stampItems]
  | item :: items =>
      obtain ⟨hitem, h⟩ := List.forall_mem_cons.mp h
      exact List.forall_mem_cons.mpr ⟨wellFormed_stamp values item hitem, wellFormed_stampItems values items h⟩

theorem wellFormed_stampEntries (values : Table String) (entries : List (String × Node))
    (h : ∀ e ∈ entries, e.2.WellFormed) : ∀ e ∈ stampEntries values entries, e.2.WellFormed := by
  match entries with
  | [] => simp [stampEntries]
  | (key, value) :: entries =>
      obtain ⟨hvalue, h⟩ := List.forall_mem_cons.mp h
      exact List.forall_mem_cons.mpr
        ⟨wellFormed_stamp values value hvalue, wellFormed_stampEntries values entries h⟩
end

end Matrix

/-! ## Sections -/

namespace Matrices

theorem wellFormed_of_declare {ms ms' : Matrices} {params : Parameters} {id : String} {declaration : Node}
    {ds : List Definition} (hw : declaration.WellFormed)
    (h : ms.declare params id declaration = (.ok ds, ms')) : ∀ d ∈ ds, d.WellFormed := by
  obtain ⟨p, issued, hp, hi, _⟩ := declare_eq_ok h
  have hbody : p.body.WellFormed := ((hw.entries.erase "Dimensions").erase "LogicalId").of_get? (of_plan hp).2
  intro d hd
  obtain ⟨entry, _, hof⟩ := Outcome.exists_of_mem_right (forall₂_of_issue hi) hd
  exact Definition.wellFormed_of_ofNode (Matrix.wellFormed_stamp entry.values p.body hbody) hof

theorem wellFormed_of_declareAll {params : Parameters} {entries : List (String × Node)} {ms ms' : Matrices}
    {ds : List Definition} (hw : ∀ e ∈ entries, e.2.WellFormed)
    (h : Matrices.declareAll params entries ms = (.ok ds, ms')) : ∀ d ∈ ds, d.WellFormed := by
  induction entries generalizing ms ds with
  | nil =>
      obtain ⟨he, _⟩ := Prod.mk.inj h
      rw [← Except.ok.inj he]
      simp
  | cons entry entries ih =>
      obtain ⟨hentry, hw⟩ := List.forall_mem_cons.mp hw
      obtain ⟨first, middle, rest, hf, hr, rfl⟩ := declareAll_cons h
      exact List.forall_mem_append.mpr ⟨wellFormed_of_declare hentry hf, ih hw hr⟩

theorem wellFormed_of_expandSection {ms : Matrices} {params : Parameters} {node : Node} {ds : List Definition}
    (hw : node.WellFormed) (h : (ms.expandSection params node).1 = .ok ds) : ∀ d ∈ ds, d.WellFormed := by
  unfold Matrices.expandSection at h
  split at h
  · exact wellFormed_of_declareAll (Node.wellFormed_map_iff.mp hw).2 (Prod.ext h rfl)
  · cases h

end Matrices

namespace Apis

theorem wellFormed_of_declareAll {entries : List (String × Node)} {apis apis' : Apis} {ds : List Definition}
    (hw : ∀ e ∈ entries, e.2.WellFormed) (h : Apis.declareAll entries apis = (.ok ds, apis')) :
    ∀ d ∈ ds, d.WellFormed := by
  induction entries generalizing apis ds with
  | nil =>
      obtain ⟨he, _⟩ := Prod.mk.inj h
      rw [← Except.ok.inj he]
      simp
  | cons entry entries ih =>
      obtain ⟨hentry, hw⟩ := List.forall_mem_cons.mp hw
      obtain ⟨first, middle, rest, hf, hr, rfl⟩ := declareAll_cons h
      obtain ⟨_, registry, _, hexpand, _⟩ := declare_eq_ok hf
      exact List.forall_mem_append.mpr ⟨Api.Builder.wellFormed_of_expand hentry hexpand, ih hw hr⟩

theorem wellFormed_of_expandSection {apis : Apis} {node : Node} {ds : List Definition} (hw : node.WellFormed)
    (h : (apis.expandSection node).1 = .ok ds) : ∀ d ∈ ds, d.WellFormed := by
  unfold Apis.expandSection at h
  split at h
  · exact wellFormed_of_declareAll (Node.wellFormed_map_iff.mp hw).2 (Prod.ext h rfl)
  · cases h

end Apis

namespace Expansion

/-- What two well-formed sections generate is well-formed. -/
theorem wellFormed_of_generate {params : Parameters} {options : Options} {apiSection matrixSection : Option Node}
    {g : Generated} (ha : ∀ node, apiSection = some node → node.WellFormed)
    (hm : ∀ node, matrixSection = some node → node.WellFormed)
    (h : generate params options apiSection matrixSection = .ok g) : ∀ d ∈ g.definitions, d.WellFormed := by
  unfold generate at h
  obtain ⟨ads, hads, h⟩ := Outcome.bind_eq_ok.mp h
  obtain ⟨mds, hmds, h⟩ := Outcome.bind_eq_ok.mp h
  obtain rfl := Except.ok.inj h
  refine List.forall_mem_append.mpr ⟨?_, ?_⟩
  · cases apiSection with
    | none =>
        rw [← Except.ok.inj hads]
        simp
    | some node => exact Apis.wellFormed_of_expandSection (ha node rfl) hads
  · cases matrixSection with
    | none =>
        rw [← Except.ok.inj hmds]
        simp
    | some node => exact Matrices.wellFormed_of_expandSection (hm node rfl) hmds

end Expansion
end Shorthand
