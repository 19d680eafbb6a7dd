import Shorthand.Proofs.Pipeline.Emission

/-!
# Shorthand pipelines

Where the resources hold no shorthand pipeline there is nothing to expand, and after an expansion they hold
none any more.
-/
namespace Shorthand.Pipeline

/-! ## Stages with a mapping of actions -/

theorem hasActionMap_underCondition {condition : Option String} {node : Node}
    (h : hasActionMap node = false) : hasActionMap (underCondition condition node) = false := by
  cases condition with
  | none => exact h
  | some condition => rfl

theorem OrderedStage.hasActionMap_toNode {s : OrderedStage} (h : "Actions" ∉ Table.keys s.extra) :
    hasActionMap s.toNode = false := by
  refine hasActionMap_underCondition ?_
  rw [hasActionMap, Node.get?, Table.get?_putAll_of_not_mem h]
  rfl

theorem Orders.extra {stages : List Stage} {l : Linked} {made : List (List OrderedAction)}
    {ordered : List OrderedStage} (h : Orders stages l made ordered) {o : OrderedStage} (ho : o ∈ ordered) :
    ∃ stage ∈ stages, o.extra = stage.extra := by
  obtain ⟨⟨linked, s⟩, hmem, horder⟩ := Outcome.exists_of_mem_right (Outcome.mapM_eq_ok.mp h.order) ho
  obtain ⟨⟨stage, s'⟩, hstage, hlinks⟩ :=
    Outcome.exists_of_mem_right h.links (List.fst_mem_of_mem_zipIdx hmem)
  obtain ⟨orders, _, he⟩ := Outcome.bind_eq_ok.mp horder
  obtain rfl := Except.ok.inj he
  exact ⟨stage, List.fst_mem_of_mem_zipIdx hstage, hlinks.extra⟩

theorem hasActionMap_of_expandStages {id : String} {nodes : List Node} {node : Node} {summary : Summary}
    (hw : ∀ node ∈ nodes, node.WellFormed) (h : expandStages id nodes = .ok (node, summary)) :
    ∃ emitted, node = .list emitted ∧ ∀ stage ∈ emitted, hasActionMap stage = false := by
  obtain ⟨⟨stages, compiler⟩, hread, h⟩ := Outcome.bind_eq_ok.mp h
  obtain ⟨ordered, hbuild, h⟩ := Outcome.bind_eq_ok.mp h
  obtain ⟨rfl, _⟩ := Prod.mk.inj (Except.ok.inj h)
  obtain ⟨l, made, horders⟩ := orders_of_build (Outcome.ok_of_mapError hbuild)
  refine ⟨ordered.map OrderedStage.toNode, rfl, fun node hnode => ?_⟩
  obtain ⟨o, ho, rfl⟩ := List.mem_map.mp hnode
  obtain ⟨stage, hstage, hextra⟩ := horders.extra ho
  obtain ⟨node, hmem, _, _, hof⟩ := Outcome.exists_of_mem_right (Stage.forall₂_of_readAfter hread) hstage
  refine OrderedStage.hasActionMap_toNode ?_
  rw [hextra]
  exact Stage.not_mem_extra_of_ofNode (hw node hmem) hof (by decide)

/-! ## Resources -/

theorem stagesOf?_eq_some {resource : Node} {stages : List Node} (h : stagesOf? resource = some stages) :
    ∃ entries properties, resource = .map entries ∧ Table.get? entries "Properties" = some (.map properties) ∧
      Table.get? properties "Stages" = some (.list stages) := by
  simp only [stagesOf?, Option.bind_eq_some_iff] at h
  obtain ⟨node, ⟨inner, hinner, hnode⟩, hlist⟩ := h
  cases node with
  | list items =>
      obtain rfl := Option.some.inj hlist
      cases resource with
      | map entries =>
          cases inner with
          | map properties => exact ⟨entries, properties, rfl, hinner, hnode⟩
          | _ => cases hnode
      | _ => cases hinner
  | _ => cases hlist

theorem stagesOf?_putStages {resource : Node} {stages : List Node} (h : stagesOf? resource = some stages)
    (new : List Node) : stagesOf? (putStages (.list new) resource) = some new := by
  obtain ⟨entries, properties, rfl, hp, hs⟩ := stagesOf?_eq_some h
  simp only [putStages, mapAt, hp, hs, stagesOf?, Node.get?, Table.get?_put_self, Option.bind_some, Node.list?]

theorem wellFormed_of_stagesOf? {resource : Node} {stages : List Node} (hw : resource.WellFormed)
    (h : stagesOf? resource = some stages) : ∀ stage ∈ stages, stage.WellFormed := by
  obtain ⟨entries, properties, rfl, hp, hs⟩ := stagesOf?_eq_some h
  exact Node.wellFormed_list_iff.mp ((hw.of_get? hp).of_get? hs)

theorem isShorthand_eq_false_of_stages {types : List String} {resource : Node} {stages : List Node}
    (hs : stagesOf? resource = some stages) (h : ∀ stage ∈ stages, hasActionMap stage = false) :
    isShorthand types resource = false := by
  have hany : stages.any hasActionMap = false := List.any_eq_false.mpr fun stage hm => by simp [h stage hm]
  unfold isShorthand
  rw [hs]
  split
  · rename_i he
    obtain rfl := Option.some.inj he
    rw [hany, Bool.and_false]
  · rfl

theorem exists_stages_of_isShorthand {types : List String} {resource : Node}
    (h : isShorthand types resource = true) : ∃ stages, stagesOf? resource = some stages := by
  unfold isShorthand at h
  split at h
  · rename_i hs
    exact ⟨_, hs⟩
  · cases h

/-- An expansion of resources: each is kept, or it is a shorthand pipeline and gets the stages that are written for
its own. -/
inductive Expands (types : List String) : Table Node → List Summary → Table Node → Prop
  | nil : Expands types [] [] []
  | keep {e : String × Node} {resources out : Table Node} {summaries : List Summary}
      (hs : isShorthand types e.2 = false) (rest : Expands types resources summaries out) :
      Expands types (e :: resources) summaries (e :: out)
  | expand {e : String × Node} {stages : List Node} {node : Node} {summary : Summary} {resources out : Table Node}
      {summaries : List Summary} (hs : isShorthand types e.2 = true) (hstages : stagesOf? e.2 = some stages)
      (hexpand : expandStages e.1 stages = .ok (node, summary)) (rest : Expands types resources summaries out) :
      Expands types (e :: resources) (summary :: summaries) ((e.1, putStages node e.2) :: out)

theorem expands_of_expandAll {types : List String} {resources out : Table Node} {summaries : List Summary}
    (h : expandAll types resources = (.ok summaries, out)) : Expands types resources summaries out := by
  induction resources generalizing summaries out with
  | nil =>
      obtain ⟨hs, rfl⟩ := Prod.mk.inj h
      obtain rfl := Except.ok.inj hs
      exact .nil
  | cons e resources ih =>
      obtain ⟨id, resource⟩ := e
      rw [expandAll] at h
      split at h
      · rename_i hshort
        obtain ⟨stages, hstages⟩ := exists_stages_of_isShorthand hshort
        split at h
        · cases h
        · rename_i node summary hexpand
          obtain ⟨hs, rfl⟩ := Prod.mk.inj h
          obtain ⟨summaries, hr, rfl⟩ := Outcome.map_eq_ok.mp hs
          rw [hstages, Option.getD_some] at hexpand
          exact .expand hshort hstages hexpand (ih (Prod.ext hr rfl))
      · rename_i hshort
        obtain ⟨hs, rfl⟩ := Prod.mk.inj h
        exact .keep (Bool.eq_false_iff.mpr hshort) (ih (Prod.ext hs rfl))

/-- After an expansion there is nothing left to expand. -/
theorem Expands.not_isShorthand {types : List String} {resources out : Table Node} {summaries : List Summary}
    (h : Expands types resources summaries out) (hw : ∀ e ∈ resources, e.2.WellFormed) :
    ∀ e ∈ out, isShorthand types e.2 = false := by
  induction h with
  | nil => simp
  | keep hs _ ih => exact List.forall_mem_cons.mpr ⟨hs, ih (List.forall_mem_cons.mp hw).2⟩
  | expand _ hstages hexpand _ ih =>
      obtain ⟨hresource, hw⟩ := List.forall_mem_cons.mp hw
      obtain ⟨emitted, rfl, hlisted⟩ :=
        hasActionMap_of_expandStages (wellFormed_of_stagesOf? hresource hstages) hexpand
      refine List.forall_mem_cons.mpr ⟨?_, ih hw⟩
      exact isShorthand_eq_false_of_stages (stagesOf?_putStages hstages emitted) hlisted

theorem not_isShorthand_of_expandAll {types : List String} {resources out : Table Node}
    {summaries : List Summary} (hw : ∀ e ∈ resources, e.2.WellFormed)
    (h : expandAll types resources = (.ok summaries, out)) : ∀ e ∈ out, isShorthand types e.2 = false :=
  (expands_of_expandAll h).not_isShorthand hw

theorem expandAll_eq_self {types : List String} {resources : Table Node}
    (h : ∀ e ∈ resources, isShorthand types e.2 = false) : expandAll types resources = (.ok [], resources) := by
  induction resources with
  | nil => rfl
  | cons e resources ih =>
      obtain ⟨he, h⟩ := List.forall_mem_cons.mp h
      rw [expandAll, ih h, he]
      rfl

/-! ## What an expansion leaves alone -/

/-- Tables with the same keys in the same order, and with the same values but under one key. -/
def SameBut (key : String) (t t' : Table Node) : Prop :=
  List.Forall₂ (fun e e' => e'.1 = e.1 ∧ (e.1 ≠ key → e'.2 = e.2)) t t'

theorem sameBut_put {t : Table Node} {key : String} (hk : key ∈ Table.keys t) (value : Node) :
    SameBut key t (Table.put t key value) := by
  induction t with
  | nil => cases hk
  | cons e t ih =>
      obtain ⟨k, v⟩ := e
      rw [Table.put]
      split
      · rename_i he
        exact .cons ⟨he.symm, fun hne => absurd he hne⟩ (List.forall₂_same.mpr fun _ _ => ⟨rfl, fun _ => rfl⟩)
      · rename_i he
        exact .cons ⟨rfl, fun _ => rfl⟩ (ih ((List.mem_cons.mp hk).resolve_left (Ne.symm he)))

/-- Of a resource its stages are replaced, and nothing else. -/
def Restages (stages : List Node) (new resource resource' : Node) : Prop :=
  ∃ entries entries' properties properties', resource = .map entries ∧ resource' = .map entries' ∧
    SameBut "Properties" entries entries' ∧ Table.get? entries "Properties" = some (.map properties) ∧
    Table.get? entries' "Properties" = some (.map properties') ∧ SameBut "Stages" properties properties' ∧
    Table.get? properties "Stages" = some (.list stages) ∧ Table.get? properties' "Stages" = some new

theorem restages_putStages {resource : Node} {stages : List Node} (h : stagesOf? resource = some stages)
    (new : Node) : Restages stages new resource (putStages new resource) := by
  obtain ⟨entries, properties, rfl, hp, hs⟩ := stagesOf?_eq_some h
  refine ⟨entries, _, properties, _, rfl, ?_, sameBut_put (Table.mem_keys_of_get? hp) _, hp,
    Table.get?_put_self _ _ _, sameBut_put (Table.mem_keys_of_get? hs) new, hs, Table.get?_put_self _ _ _⟩
  simp only [putStages, mapAt, hp, hs]

/-- What becomes of a resource: one that is no shorthand pipeline is kept, and of one that is only the stages change,
to what is written for its own stages under its own key. -/
structure Becomes (types : List String) (e e' : String × Node) : Prop where
  key : e'.1 = e.1
  kept : isShorthand types e.2 = false → e'.2 = e.2
  restaged : isShorthand types e.2 = true → ∃ stages node summary,
    expandStages e.1 stages = .ok (node, summary) ∧ Restages stages node e.2 e'.2

theorem Expands.becomes {types : List String} {resources out : Table Node} {summaries : List Summary}
    (h : Expands types resources summaries out) : List.Forall₂ (Becomes types) resources out := by
  induction h with
  | nil => exact .nil
  | keep hs _ ih => exact .cons ⟨rfl, fun _ => rfl, fun hshort => absurd (hs.symm.trans hshort) (by simp)⟩ ih
  | expand hs hstages hexpand _ ih =>
      refine .cons ⟨rfl, fun hnot => absurd (hs.symm.trans hnot) (by simp), fun _ => ?_⟩ ih
      exact ⟨_, _, _, hexpand, restages_putStages hstages _⟩

def Sums (e : String × Node) (summary : Summary) : Prop :=
  ∃ stages node, stagesOf? e.2 = some stages ∧ expandStages e.1 stages = .ok (node, summary)

theorem Expands.sums {types : List String} {resources out : Table Node} {summaries : List Summary}
    (h : Expands types resources summaries out) :
    List.Forall₂ Sums (resources.filter fun e => isShorthand types e.2) summaries := by
  induction h with
  | nil => exact .nil
  | keep hs _ ih => rwa [List.filter_cons_of_neg (by simp [hs])]
  | expand hs hstages hexpand _ ih =>
      rw [List.filter_cons_of_pos (by exact hs)]
      exact .cons ⟨_, _, hstages, hexpand⟩ ih

/-- Only the stages of shorthand pipelines are touched, each pipeline by itself and once, and each is summed up in the
order of the resources. -/
theorem becomes_of_expandAll {types : List String} {resources out : Table Node} {summaries : List Summary}
    (hw : ∀ e ∈ resources, e.2.WellFormed) (h : expandAll types resources = (.ok summaries, out)) :
    Table.keys out = Table.keys resources ∧ List.Forall₂ (Becomes types) resources out ∧
      List.Forall₂ Sums (resources.filter fun e => isShorthand types e.2) summaries ∧
      expandAll types out = (.ok [], out) := by
  have hexpands := expands_of_expandAll h
  refine ⟨?_, hexpands.becomes, hexpands.sums, expandAll_eq_self (not_isShorthand_of_expandAll hw h)⟩
  exact (Table.keys_eq_of_forall₂ (hexpands.becomes.imp fun _ _ hb => hb.key.symm)).symm

def bucketAndPipeline (stages : List Node) : Table Node :=
  [("B", .map [("Type", .text "AWS::S3::Bucket")]),
   ("P", .map [("Type", .text "Pipeline"), ("Properties", .map [("Stages", .list stages), ("Name", .text "n")])])]

theorem becomes_bucketAndPipeline : ∃ summary out,
    expandAll ["Pipeline"] (bucketAndPipeline twoActions) = (.ok [summary], out) ∧ Table.keys out = ["B", "P"] ∧
      List.Forall₂ (Becomes ["Pipeline"]) (bucketAndPipeline twoActions) out ∧
      (∃ node, expandStages "P" twoActions = .ok (node, summary)) ∧ expandAll ["Pipeline"] out = (.ok [], out) := by
  obtain ⟨⟨result, out⟩, h⟩ : ∃ run, expandAll ["Pipeline"] (bucketAndPipeline twoActions) = run := ⟨_, rfl⟩
  obtain ⟨summaries, rfl⟩ : ∃ summaries, result = .ok summaries := by
    have hok : (expandAll ["Pipeline"] (bucketAndPipeline twoActions)).1.isOk = true := by decide +kernel
    rw [h] at hok
    exact Outcome.exists_of_isOk hok
  have hw : ∀ e ∈ bucketAndPipeline twoActions, e.2.WellFormed := by
    simp [bucketAndPipeline, twoActions, Node.AllWellFormed, Node.WellFormed, Node.EntriesWellFormed, Table.Distinct,
      Table.keys]
  obtain ⟨hkeys, hbecomes, hsums, hagain⟩ := becomes_of_expandAll hw h
  have hfilter : (bucketAndPipeline twoActions).filter (fun e => isShorthand ["Pipeline"] e.2) =
      (bucketAndPipeline twoActions).drop 1 := rfl
  rw [hfilter] at hsums
  obtain _ | ⟨hsum, hrest⟩ := hsums
  obtain rfl := List.forall₂_nil_left_iff.mp hrest
  obtain ⟨stages, node, hstages, hexpand⟩ := hsum
  obtain rfl : twoActions = stages := Option.some.inj hstages
  exact ⟨_, out, h, hkeys, hbecomes, ⟨node, hexpand⟩, hagain⟩

end Shorthand.Pipeline
