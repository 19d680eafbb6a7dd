import Shorthand.Proofs.Api.Tree
import Shorthand.Proofs.Definition

/-!
# Definitions in wire form

What is written of a definition says all that was read: nothing but repetitions and empty values is left out, and it
is read as the same definition again. So are the definitions that an API is expanded to, each of which is made of
properties alone, but for the condition of the declaration and the dependencies of the deployment.
-/
namespace Shorthand
namespace Definition

/-! ## What is read -/

/-- The dependencies that stand under a key, in their order and with repetitions. -/
inductive Depends : Option Node → List String → Prop
  | absent : Depends none []
  | null : Depends (some .null) []
  | one (id : String) : Depends (some (.text id)) [id]
  | list (ids : List String) : Depends (some (.list (ids.map .text))) ids

/-- Properties that say nothing. -/
def isVoid : Node → Bool
  | .null | .map [] => true
  | _ => false

theorem foldl_addOnce (ids : List String) : ids.foldl addOnce [] = ids.eraseDups := by
  induction ids using List.reverseRecOn with
  | nil => rfl
  | append_singleton ids id ih =>
      rw [List.foldl_append, List.foldl_cons, List.foldl_nil, ih, addOnce, eraseDups_snoc]
      simp only [List.contains_iff_mem, List.mem_eraseDups]

theorem readType_eq_ok {context : String} {node : Option Node} {type : String}
    (h : readType context node = .ok type) : node = some (.text type) := by
  unfold readType at h
  split at h
  · rw [Except.ok.inj h]
  · cases h

theorem readCondition_eq_ok {context : String} {node : Option Node} {condition : Option String}
    (h : readCondition context node = .ok condition) :
    condition.map Node.text = node.filter fun node => !node.isNull := by
  unfold readCondition at h
  split at h
  · obtain rfl := Except.ok.inj h
    rfl
  · obtain rfl := Except.ok.inj h
    rfl
  · obtain rfl := Except.ok.inj h
    rfl
  · cases h

theorem readDependency_eq_ok {context : String} {node : Node} {id : String}
    (h : readDependency context node = .ok id) : node = .text id := by
  unfold readDependency at h
  split at h
  · rw [Except.ok.inj h]
  · cases h

theorem readDependsOn_eq_ok {context : String} {node : Option Node} {out : List String}
    (h : readDependsOn context node = .ok out) : ∃ ids, Depends node ids ∧ out = ids.eraseDups := by
  unfold readDependsOn at h
  split at h
  · exact ⟨[], .absent, (Except.ok.inj h).symm⟩
  · exact ⟨[], .null, (Except.ok.inj h).symm⟩
  · rename_i id
    exact ⟨[id], .one id, (Except.ok.inj h).symm⟩
  · obtain ⟨ids, hids, h⟩ := Outcome.bind_eq_ok.mp h
    have hitems : _ = ids.map Node.text :=
      List.forall₂_eq_eq_eq ▸ List.forall₂_map_right_iff.mpr
        ((Outcome.mapM_eq_ok.mp hids).imp fun _ _ => readDependency_eq_ok)
    rw [hitems]
    exact ⟨ids, .list ids, (Except.ok.inj h).symm.trans (foldl_addOnce ids)⟩
  · cases h

theorem readProperties_eq_ok {context : String} {node : Option Node} {d : Definition}
    (h : readProperties context node = .ok d.properties) :
    d.propertiesNode = node.filter fun node => !isVoid node := by
  unfold readProperties at h
  rw [propertiesNode]
  split at h
  · rw [← Except.ok.inj h]
    rfl
  · rw [← Except.ok.inj h]
    rfl
  · rw [← Except.ok.inj h]
    rename_i properties
    cases properties <;> rfl
  · cases h

/-- A definition has what stands under each of its own keys, and the other entries as they are. -/
theorem ofNode_eq_ok {id : String} {node : Node} {d : Definition} (h : ofNode id node = .ok d) :
    ∃ entries context, node = .map entries ∧ d.id = id ∧
      readType context (Table.get? entries "Type") = .ok d.type ∧
      readCondition context (Table.get? entries "Condition") = .ok d.condition ∧
      readDependsOn context (Table.get? entries "DependsOn") = .ok d.dependsOn ∧
      readProperties context (Table.get? entries "Properties") = .ok d.properties ∧
      d.attributes = ownKeys.foldl Table.erase entries := by
  unfold ofNode at h
  split at h
  · rename_i entries
    simp only [Table.take, Outcome.bind_eq_ok] at h
    obtain ⟨type, ht, condition, hc, ids, hids, properties, hp, h⟩ := h
    obtain rfl := Except.ok.inj h
    rw [Table.get?_erase_of_ne _ (by decide)] at hc
    rw [Table.get?_erase_of_ne _ (by decide), Table.get?_erase_of_ne _ (by decide)] at hids
    rw [Table.get?_erase_of_ne _ (by decide), Table.get?_erase_of_ne _ (by decide),
      Table.get?_erase_of_ne _ (by decide)] at hp
    exact ⟨entries, _, rfl, rfl, ht, hc, hids, hp, rfl⟩
  · cases h

/-! ## What is written -/

/-- Whatever stands under the keys that have a field. -/
def slots (d : Definition) : List (String × Option Node) :=
  [("Type", some (.text d.type)), ("Condition", d.condition.map .text), ("DependsOn", d.dependsOnNode),
    ("Properties", d.propertiesNode)]

theorem ownEntries_eq_present (d : Definition) : d.ownEntries = Table.present d.slots := by
  have hoptional (key : String) (node : Option Node) : optional key node = (node.map (key, ·)).toList := by
    cases node <;> rfl
  have hnil : Table.present ([] : List (String × Option Node)) = [] := rfl
  simp only [ownEntries, slots, Table.present_cons, hoptional, hnil, List.append_assoc, List.append_nil]

theorem distinct_slots (d : Definition) : Table.Distinct d.slots :=
  show ownKeys.Nodup by decide

theorem Settled.get?_toNode {d : Definition} (h : d.Settled) {key : String} (hk : key ∈ ownKeys) :
    Table.get? (d.ownEntries ++ d.attributes) key = (Table.get? d.slots key).join := by
  rw [Table.get?_append_of_not_mem _ (h.other key hk), ownEntries_eq_present, Table.get?_present d.distinct_slots]

/-- What is written of a definition, against the entries that it was read from. -/
structure Keeps (entries out : Table Node) : Prop where
  type : Table.get? out "Type" = Table.get? entries "Type"
  condition : Table.get? out "Condition" = (Table.get? entries "Condition").filter fun node => !node.isNull
  dependsOn : ∃ ids, Depends (Table.get? entries "DependsOn") ids ∧
    Table.get? out "DependsOn" = if ids = [] then none else some (.list (ids.eraseDups.map .text))
  properties : Table.get? out "Properties" = (Table.get? entries "Properties").filter fun node => !isVoid node
  /-- The keys that have a field go first, and the other entries follow in their order. -/
  attributes : ∃ own, out = own ++ entries.filter (fun e => e.1 ∉ ownKeys) ∧ (Table.keys own).Sublist ownKeys

theorem keepsEntries_of_ofNode {id : String} {node : Node} {d : Definition} (hw : node.WellFormed)
    (h : ofNode id node = .ok d) : ∃ entries out, node = .map entries ∧ d.toNode = .map out ∧ Keeps entries out := by
  have hs := settled_of_ofNode hw h
  obtain ⟨entries, context, rfl, -, htype, hcondition, hids, hproperties, hattributes⟩ := ofNode_eq_ok h
  obtain ⟨ids, hdepends, hids⟩ := readDependsOn_eq_ok hids
  have hnode : d.dependsOnNode = if ids = [] then none else some (.list (ids.eraseDups.map .text)) := by
    rw [dependsOnNode, hids]
    cases ids <;> simp [List.eraseDups_cons]
  refine ⟨entries, _, rfl, hs.toNode_eq, ?_, ?_, ⟨ids, hdepends, ?_⟩, ?_, ⟨d.ownEntries, ?_, d.keys_ownEntries_sublist⟩⟩
  · rw [hs.get?_toNode (by decide), readType_eq_ok htype]
    rfl
  · rw [hs.get?_toNode (by decide), ← readCondition_eq_ok hcondition]
    rfl
  · rw [hs.get?_toNode (by decide), ← hnode]
    rfl
  · rw [hs.get?_toNode (by decide), ← readProperties_eq_ok hproperties]
    rfl
  · rw [hattributes, hw.distinct.foldl_erase_eq_filter]

end Definition

/-! ## The definitions of an API -/

namespace Api.Builder

theorem Step.settled {b b' : Builder} (hs : Step b b') (h : ∀ d ∈ b.definitions, d.Settled) :
    ∀ d ∈ b'.definitions, d.Settled := by
  cases hs with
  | claim _ => exact h
  | @part part _ d hp _ _ =>
      refine List.forall_mem_append.mpr ⟨h, List.forall_mem_singleton.mpr ?_⟩
      rw [hp.eq_new]
      exact Definition.settled_new _ _ _
  | other hs => exact hs.definitions ▸ h

theorem Grows.settled {b b' : Builder} (hg : Grows b b') (h : ∀ d ∈ b.definitions, d.Settled) :
    ∀ d ∈ b'.definitions, d.Settled := by
  induction hg with
  | refl => exact h
  | tail _ hs ih => exact hs.settled ih

theorem settled_of_expand {api : String} (ha : IsId api) {digestLength : Nat} {declaration : Node}
    {registry : Registry} {ds : List Definition}
    (h : expand api digestLength declaration = .ok (registry, ds)) : ∀ d ∈ ds, d.Settled := by
  obtain ⟨b₁, b₂, b₃, b₄, b₅, _, h₁, h₂, h₃, h₄, _, h₅, rfl, rfl⟩ := expand_eq_ok h
  have hc := sound_container ha (containerProps api declaration)
  obtain ⟨-, hg⟩ := grows_of_parts ha h₁ h₂ h₃ h₄
  have hsettled := hg.settled (List.forall_mem_singleton.mpr (Definition.settled_new _ _ _))
  have hm := hg.matches hc (matches_container api _)
  have hids : b₄.methodIds.Nodup := by
    refine (methodIds_spec hm.ids).2.imp ?_
    rintro id _ hlt rfl
    exact String.lt_irrefl id hlt
  obtain ⟨_, _, _, rfl⟩ := addDeployment_eq_ok h₅
  refine List.forall_mem_append.mpr ⟨List.forall_mem_map.mpr fun d hd => ?_, List.forall_mem_singleton.mpr ?_⟩
  · have hd := hsettled d hd
    exact ⟨hd.dependsOn, hd.distinct, hd.other⟩
  · exact ⟨hids, List.nodup_nil, fun _ _ => List.not_mem_nil⟩

end Api.Builder

namespace Apis

theorem settled_of_declare {apis apis' : Apis} {id : String} {declaration : Node} {ds : List Definition}
    (h : apis.declare id declaration = .ok (ds, apis')) : ∀ d ∈ ds, d.Settled := by
  obtain ⟨hi, registry, _, he, _⟩ := declare_eq_ok h
  exact Api.Builder.settled_of_expand hi he

theorem settled_of_declareAll {entries : List (String × Node)} {apis apis' : Apis} {ds : List Definition}
    (h : Apis.declareAll entries apis = (.ok ds, apis')) : ∀ d ∈ ds, d.Settled := by
  induction entries generalizing apis ds with
  | nil =>
      obtain rfl := Except.ok.inj (Prod.mk.inj h).1
      exact fun _ hd => absurd hd List.not_mem_nil
  | cons entry entries ih =>
      obtain ⟨first, middle, rest, hf, hr, rfl⟩ := declareAll_cons h
      exact List.forall_mem_append.mpr ⟨settled_of_declare hf, ih hr⟩

theorem allSettled_of_expandSection {apis : Apis} {node : Node} {ds : List Definition}
    (h : (apis.expandSection node).1 = .ok ds) : ∀ d ∈ ds, d.Settled := by
  unfold Apis.expandSection at h
  split at h
  · exact settled_of_declareAll (Prod.ext h rfl)
  · cases h

end Apis

/-! ## The round trip -/

namespace Definition

/-- A definition that was read is read again from what is written of it, and that says all that was read. A definition
that an API is expanded to is read from what is written of it as well. -/
theorem survives_wireForm :
    (∀ {id : String} {node : Node} {d : Definition}, node.WellFormed → ofNode id node = .ok d →
      ofNode id d.toNode = .ok d ∧ ∃ entries out, node = .map entries ∧ d.toNode = .map out ∧ Keeps entries out) ∧
    (∀ {apis apis' : Apis} {id : String} {declaration : Node} {ds : List Definition},
      apis.declare id declaration = .ok (ds, apis') → ∀ d ∈ ds, ofNode d.id d.toNode = .ok d) ∧
    ∀ {apis : Apis} {node : Node} {ds : List Definition}, (apis.expandSection node).1 = .ok ds →
      ∀ d ∈ ds, ofNode d.id d.toNode = .ok d := by
  refine ⟨fun hw h => ⟨?_, keepsEntries_of_ofNode hw h⟩, fun h d hd => ?_, fun h d hd => ?_⟩
  · rw [← id_of_ofNode h]
    exact ofNode_toNode (settled_of_ofNode hw h)
  · exact ofNode_toNode (Apis.settled_of_declare h d hd)
  · exact ofNode_toNode (Apis.allSettled_of_expandSection h d hd)

/-- A resource with a repeated dependency, and empty values under other keys, among keys that have no field. -/
def repetitive : Node :=
  .map [("Zone", .text "a"), ("DependsOn", .list [.text "B", .text "A", .text "B"]), ("Condition", .null),
    ("Type", .text "T"), ("Metadata", .map [("Note", .null)]), ("Properties", .map [])]

theorem survives_wireForm_repetitive :
    (∃ d, ofNode "R" repetitive = .ok d ∧ ofNode "R" d.toNode = .ok d ∧
      d.toNode = .map [("Type", .text "T"), ("DependsOn", .list [.text "B", .text "A"]), ("Zone", .text "a"),
        ("Metadata", .map [("Note", .null)])]) ∧
    (∃ ds apis', ({ digestLength := 8 } : Apis).declare "Shop" (.map [("/a", .map [("$GET", .map [])])]) =
      .ok (ds, apis') ∧ ∀ d ∈ ds, ofNode d.id d.toNode = .ok d) ∧
    ∃ ds, (({ digestLength := 8 } : Apis).expandSection (.map Apis.nearNames)).1 = .ok ds ∧
      ∀ d ∈ ds, ofNode d.id d.toNode = .ok d := by
  obtain ⟨hread, hdeclare, hsection⟩ := survives_wireForm
  have hr : ofNode "R" repetitive = .ok ⟨"R", "T", none, ["B", "A"], [],
    [("Zone", .text "a"), ("Metadata", .map [("Note", .null)])]⟩ := rfl
  refine ⟨⟨_, hr, (hread ?_ hr).1, rfl⟩, ?_, ?_⟩
  · simp [repetitive, Node.WellFormed, Node.EntriesWellFormed, Node.AllWellFormed, Table.Distinct, Table.keys]
  · obtain ⟨⟨ds, apis'⟩, h⟩ := Outcome.exists_of_isOk (show (({ digestLength := 8 } : Apis).declare "Shop"
      (.map [("/a", .map [("$GET", .map [])])])).isOk = true by decide +kernel)
    exact ⟨ds, apis', h, hdeclare h⟩
  · obtain ⟨ds, h⟩ := Outcome.exists_of_isOk
      (show (({ digestLength := 8 } : Apis).expandSection (.map Apis.nearNames)).1.isOk = true by decide +kernel)
    exact ⟨ds, h, hsection h⟩

end Definition
end Shorthand
