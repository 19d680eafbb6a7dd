import Shorthand.Definition
import Shorthand.Proofs.Outcome
import Shorthand.Proofs.WellFormed

/-!
# Well-formed definitions

A definition that was read from a well-formed node is well-formed, and so is what is written of it. It is
read back from that.
-/
namespace Shorthand

/-- The two tables of a definition are well-formed. -/
structure Definition.WellFormed (d : Definition) : Prop where
  properties : (Node.map d.properties).WellFormed
  attributes : (Node.map d.attributes).WellFormed

namespace Definition

theorem WellFormed.new {id type : String} {properties : Table Node} (h : (Node.map properties).WellFormed) :
    (new id type properties).WellFormed :=
  ⟨h, Node.wellFormed_nil⟩

theorem wellFormed_readProperties {context : String} {node : Option Node} {properties : Table Node}
    (hn : ∀ n, node = some n → n.WellFormed) (h : readProperties context node = .ok properties) :
    (Node.map properties).WellFormed := by
  unfold readProperties at h
  split at h
  · exact Except.ok.inj h ▸ Node.wellFormed_nil
  · exact Except.ok.inj h ▸ Node.wellFormed_nil
  · exact Except.ok.inj h ▸ hn _ rfl
  · cases h

theorem wellFormed_of_ofNode {id : String} {node : Node} {d : Definition} (hw : node.WellFormed)
    (h : ofNode id node = .ok d) : d.WellFormed := by
  unfold ofNode at h
  split at h
  · simp only [Table.take, Outcome.bind_eq_ok] at h
    obtain ⟨_, _, _, _, _, _, properties, hp, h⟩ := h
    obtain rfl := Except.ok.inj h
    have hrest := ((hw.erase "Type").erase "Condition").erase "DependsOn"
    exact ⟨wellFormed_readProperties (fun _ hg => hrest.of_get? hg) hp, hrest.erase "Properties"⟩
  · cases h

theorem WellFormed.toNode {d : Definition} (h : d.WellFormed) : d.toNode.WellFormed := by
  refine Node.WellFormed.putAll (Node.wellFormed_map_iff.mpr ⟨?_, ?_⟩) (Node.wellFormed_map_iff.mp h.attributes).2
  · split <;> split <;> split <;> simp [Table.Distinct, Table.keys]
  · have hp := h.properties
    intro e he
    simp only [List.mem_append, List.mem_singleton] at he
    rcases he with ((rfl | he) | he) | he
    · trivial
    · split at he
      · rw [List.mem_singleton.mp he]
        trivial
      · cases he
    · split at he
      · cases he
      · rw [List.mem_singleton.mp he]
        exact Node.wellFormed_list_iff.mpr (by simp)
    · split at he
      · cases he
      · rw [List.mem_singleton.mp he]
        exact hp

/-! ## Reading back -/

/-- The keys of a resource that a definition has a field for. -/
def ownKeys : List String := ["Type", "Condition", "DependsOn", "Properties"]

/-- Definitions as they are made: each dependency stands there once, and each attribute, and none of these
is one that has its own field. -/
structure Settled (d : Definition) : Prop where
  dependsOn : d.dependsOn.Nodup
  distinct : Table.Distinct d.attributes
  other : ∀ key ∈ ownKeys, key ∉ Table.keys d.attributes

theorem settled_new (id type : String) (properties : Table Node) : (new id type properties).Settled :=
  ⟨List.nodup_nil, List.nodup_nil, fun _ _ h => nomatch h⟩

theorem foldl_addOnce_of_nodup {ids more : List String} (h : (ids ++ more).Nodup) :
    more.foldl addOnce ids = ids ++ more := by
  induction more generalizing ids with
  | nil => rw [List.foldl_nil, List.append_nil]
  | cons id more ih =>
      have hid : id ∉ ids := fun hm => (List.nodup_append'.mp h).2.2 hm List.mem_cons_self
      rw [List.append_cons] at h
      rw [List.foldl_cons, addOnce, if_neg (by simpa using hid), ih h, ← List.append_cons]

theorem nodup_foldl_addOnce {ids : List String} (h : ids.Nodup) (more : List String) :
    (more.foldl addOnce ids).Nodup := by
  induction more generalizing ids with
  | nil => exact h
  | cons id more ih =>
      refine ih ?_
      rw [addOnce]
      split
      · exact h
      · rename_i hid
        exact nodup_snoc h (by simpa using hid)

theorem nodup_readDependsOn {context : String} {node : Option Node} {ids : List String}
    (h : readDependsOn context node = .ok ids) : ids.Nodup := by
  unfold readDependsOn at h
  split at h
  · exact Except.ok.inj h ▸ List.nodup_nil
  · exact Except.ok.inj h ▸ List.nodup_nil
  · exact Except.ok.inj h ▸ List.nodup_singleton _
  · obtain ⟨ids, _, h⟩ := Outcome.bind_eq_ok.mp h
    exact Except.ok.inj h ▸ nodup_foldl_addOnce List.nodup_nil ids
  · cases h

theorem settled_of_ofNode {id : String} {node : Node} {d : Definition} (hw : node.WellFormed)
    (h : ofNode id node = .ok d) : d.Settled := by
  unfold ofNode at h
  split at h
  · rename_i entries
    simp only [Table.take, Outcome.bind_eq_ok] at h
    obtain ⟨_, _, _, _, ids, hids, _, _, h⟩ := h
    obtain rfl := Except.ok.inj h
    obtain ⟨hd, hother⟩ := hw.distinct.foldl_erase ownKeys
    exact ⟨nodup_readDependsOn hids, hd, hother⟩
  · cases h

/-- What is written for a key that may be left out. -/
def optional (key : String) (node : Option Node) : Table Node := node.toList.map (key, ·)

theorem take_optional {key : String} (node : Option Node) {rest : Table Node} (h : key ∉ Table.keys rest) :
    Table.take (optional key node ++ rest) key = (node, rest) := by
  cases node with
  | none => exact congrArg₂ Prod.mk (Table.get?_eq_none_iff.mpr h) (Table.erase_of_not_mem h)
  | some node => simp [optional, Table.take, Table.get?, Table.erase]

theorem keys_optional (key : String) (node : Option Node) : (Table.keys (optional key node)).Sublist [key] := by
  cases node with
  | none => exact List.nil_sublist _
  | some node => exact List.Sublist.refl _

theorem not_mem_keys_append {key other : String} (node : Option Node) {rest : Table Node} (hne : key ≠ other)
    (h : key ∉ Table.keys rest) : key ∉ Table.keys (optional other node ++ rest) := by
  rw [Table.keys, List.map_append, List.mem_append]
  rintro (hm | hm)
  · exact hne (List.mem_singleton.mp ((keys_optional other node).subset hm))
  · exact h hm

/-- The dependencies, where there are any. -/
def dependsOnNode (d : Definition) : Option Node :=
  if d.dependsOn.isEmpty then none else some (.list (d.dependsOn.map .text))

/-- The properties, where there are any. -/
def propertiesNode (d : Definition) : Option Node :=
  if d.properties.isEmpty then none else some (.map d.properties)

theorem readCondition_text (context : String) (condition : Option String) :
    readCondition context (condition.map .text) = .ok condition := by
  cases condition <;> rfl

theorem readDependsOn_node {d : Definition} (h : d.dependsOn.Nodup) (context : String) :
    readDependsOn context d.dependsOnNode = .ok d.dependsOn := by
  rw [dependsOnNode]
  split
  · rename_i he
    rw [List.isEmpty_iff.mp he]
    rfl
  · have hitems : (d.dependsOn.map Node.text).mapM (readDependency context) = .ok d.dependsOn := by
      refine Outcome.mapM_eq_ok.mpr ?_
      rw [List.forall₂_map_left_iff, List.forall₂_same]
      exact fun _ _ => rfl
    have hnodup : ([] ++ d.dependsOn).Nodup := h
    rw [readDependsOn, hitems, Outcome.ok_bind, foldl_addOnce_of_nodup hnodup, List.nil_append]

theorem readProperties_node (d : Definition) (context : String) :
    readProperties context d.propertiesNode = .ok d.properties := by
  rw [propertiesNode]
  split
  · rename_i he
    rw [List.isEmpty_iff.mp he]
    rfl
  · rfl

/-- What is written for the keys that have a field. -/
def ownEntries (d : Definition) : Table Node :=
  optional "Type" (some (.text d.type)) ++ optional "Condition" (d.condition.map .text) ++
    optional "DependsOn" d.dependsOnNode ++ optional "Properties" d.propertiesNode

theorem toNode_eq_putAll (d : Definition) : d.toNode = .map (Table.putAll d.ownEntries d.attributes) := by
  obtain ⟨id, type, condition, dependsOn, properties, attributes⟩ := d
  rw [toNode, ownEntries, dependsOnNode, propertiesNode]
  cases condition <;> cases dependsOn <;> cases properties <;> rfl

theorem keys_ownEntries_sublist (d : Definition) : (Table.keys d.ownEntries).Sublist ownKeys := by
  simp only [ownEntries, Table.keys, List.map_append]
  exact (((keys_optional _ _).append (keys_optional _ _)).append (keys_optional _ _)).append (keys_optional _ _)

theorem Settled.toNode_eq {d : Definition} (h : d.Settled) : d.toNode = .map (d.ownEntries ++ d.attributes) := by
  have hsub := d.keys_ownEntries_sublist
  rw [toNode_eq_putAll, Table.putAll_of_distinct]
  rw [Table.Distinct, Table.keys, List.map_append, List.nodup_append']
  exact ⟨hsub.nodup (by decide), h.distinct, fun key hk => h.other key (hsub.subset hk)⟩

/-- A definition is read back from what is written of it. -/
theorem ofNode_toNode {d : Definition} (h : d.Settled) : ofNode d.id d.toNode = .ok d := by
  -- none of the keys stands again behind the place where it is taken
  have hproperties : "Properties" ∉ Table.keys d.attributes := h.other _ (by decide)
  have hafter : ∀ key ∈ ownKeys, key ≠ "Properties" →
      key ∉ Table.keys (optional "Properties" d.propertiesNode ++ d.attributes) := fun key hk hne =>
    not_mem_keys_append d.propertiesNode hne (h.other key hk)
  have hdependsOn := hafter "DependsOn" (by decide) (by decide)
  have hcondition := not_mem_keys_append d.dependsOnNode (by decide : "Condition" ≠ "DependsOn")
    (hafter "Condition" (by decide) (by decide))
  have htype := not_mem_keys_append (d.condition.map .text) (by decide : "Type" ≠ "Condition")
    (not_mem_keys_append d.dependsOnNode (by decide : "Type" ≠ "DependsOn")
      (hafter "Type" (by decide) (by decide)))
  rw [h.toNode_eq]
  simp only [ofNode, ownEntries, List.append_assoc, take_optional _ htype, take_optional _ hcondition,
    take_optional _ hdependsOn, take_optional _ hproperties, readType, readCondition_text,
    readDependsOn_node h.dependsOn, readProperties_node, Outcome.ok_bind]

theorem toNode_injective {d d' : Definition} (h : d.Settled) (h' : d'.Settled) (hid : d.id = d'.id)
    (hn : d.toNode = d'.toNode) : d = d' := by
  have hread := ofNode_toNode h
  rw [hid, hn, ofNode_toNode h'] at hread
  exact (Except.ok.inj hread).symm

end Definition
end Shorthand
