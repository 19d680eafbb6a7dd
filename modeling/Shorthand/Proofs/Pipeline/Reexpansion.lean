import Shorthand.Proofs.Equality
import Shorthand.Proofs.Pipeline.Built

/-!
# Expanded stages are expanded again

What is emitted for a pipeline can be expanded again. If its actions are settled, it is emitted as it was, but for the
order of keys. They are settled where no namespace that is asked for has a colon, and no overrides are a mapping.
-/
namespace Shorthand.Pipeline

/-! ## What is emitted again -/

namespace OrderedAction

theorem present_slots (a : OrderedAction) : Table.present a.slots =
    [("Name", .text a.action.name), ("ActionTypeId", a.action.type.toNode)] ++
      (entryUnless a.action.configuration.isEmpty "Configuration" (.map a.action.configuration) ++
        Table.present (a.slots.drop 3)) := by
  rw [slots, Table.present_cons, Table.present_cons, present_entryUnless]
  rfl

theorem permuted_again {a : OrderedAction} (h : a.Legible) : a.toNode.Permuted a.again.toNode := by
  have hperm := perm_again h
  have hnode : a.again.toNode = .map (Table.present a.again.slots) := by
    rw [toNode_eq (a := a.again) h.regular.extra]
    exact congrArg (underCondition · _) h.condition
  have hconfiguration : Node.PermutedEntries
      (entryUnless a.action.configuration.isEmpty "Configuration" (.map a.action.configuration))
      (entryUnless a.action.configuration.isEmpty "Configuration" (.map a.again.action.configuration)) := by
    cases a.action.configuration.isEmpty with
    | true => exact .nil
    | false => exact .cons (.map (.refl _) hperm) .nil
  rw [h.toNode_eq, hnode, present_slots, present_slots, ← hperm.isEmpty_eq]
  exact .map ((Node.PermutedEntries.refl _).append (hconfiguration.append (.refl _))) (.refl _)

end OrderedAction

namespace OrderedStage

theorem permuted_again {o : OrderedStage} (h : o.Legible) : o.toNode.Permuted o.again.toNode := by
  have hnode : o.again.toNode = .map (("Name", .text o.name) ::
      ("Actions", .list (o.again.actions.map OrderedAction.toNode)) :: o.extra) := toNode_eq h.distinct h.extra
  rw [h.toNode_eq, hnode, again, List.map_map]
  have hactions := Node.permutedItems_map fun a ha => OrderedAction.permuted_again (h.actions a ha)
  exact .map (.cons (.refl _) (.cons (.list hactions) (.refl _))) (.refl _)

theorem runOrders_again (o : OrderedStage) : o.again.runOrders = o.runOrders := by
  rw [runOrders, again, List.map_map]
  rfl

end OrderedStage

/-! ## Settled actions -/

/-- Nothing that a stage declares keeps its actions from being settled: no namespace has a colon, and no overrides are
a mapping. -/
structure Stage.Steady (stage : Stage) : Prop where
  namespaces : ∀ action ∈ stage.actions, ∀ name, action.ownNamespace = some name → ':' ∉ name.toList
  overrides : ∀ action ∈ stage.actions, ∀ node, action.overrides = some node → node.isMap = false

open StageVariable in
theorem variablesIn_renamed {N : StageVariable → String} (hN : ∀ v, ':' ∉ (N v).toList) (texts : List String) :
    variablesIn (texts.map (renameText N)) = [] := by
  rw [variablesIn, List.flatMap_map]
  exact List.flatMap_eq_nil_iff.mpr fun text _ => occurrences_renameText hN text

open StageVariable in
/-- An action whose variables were renamed without a colon is settled, if its overrides were not a mapping. -/
theorem Rewrites.settled {N : StageVariable → String} (hN : ∀ v, ':' ∉ (N v).toList) {action : Action}
    {a : OrderedAction} (h : Rewrites N action a.action) (hkind : a.action.kind = action.kind) (hd : action.Declared)
    (hov : ∀ node, action.overrides = some node → node.isMap = false) : a.Settled := by
  have hreads :
      variablesIn (Node.textsOfEntries (Node.mapTextsOfEntries (renameText N) action.configuration)) = [] := by
    rw [Node.textsOfEntries_mapTexts]
    exact variablesIn_renamed hN _
  unfold Rewrites at h
  split at h
  · rename_i hnone
    refine ⟨h ▸ hreads, fun hk node hg => ?_⟩
    rw [h, Node.get?_mapTexts] at hg
    obtain ⟨_, hg, _⟩ := Option.map_eq_some_iff.mp hg
    exact absurd (Table.mem_keys_of_get? hg) (hd.overrides (hkind ▸ hk) hnone)
  · rename_i overrides hsome
    obtain ⟨compiler, h⟩ := h
    have hnot : (overrides.mapTexts (renameText N)).isMap = false :=
      (Node.isMap_mapTexts _ _).trans (hov overrides hsome)
    rw [LinkContext.compileOverrides_of_not_isMap hnot] at h
    refine ⟨variablesIn_entries_eq_nil.mpr fun e he => ?_, fun _ node hg => ?_⟩
    · rcases Table.mem_of_mem_put (h ▸ he) with he | rfl
      · exact variablesIn_entries_eq_nil.mp hreads e he
      · rw [Node.texts_mapTexts]
        exact variablesIn_renamed hN _
    · rw [h, Table.get?_put_self] at hg
      exact Option.some.inj hg ▸ hnot

namespace Built
variable {stages : List Stage} {l : Linked} {made : List (List OrderedAction)} {ordered : List OrderedStage}

/-- What is built of steady stages is settled. -/
theorem settled (h : Built stages l made ordered) (hs : ∀ stage ∈ stages, stage.Steady) :
    ∀ o ∈ ordered, o.Settled := by
  have hcolon : l.namespaces.Each fun name => ':' ∉ name.toList :=
    h.each (fun stage hm => (hs stage hm).namespaces) Namespaces.colon_not_mem_hyphenated_derive
  have hN : ∀ v, ':' ∉ (nameOf stages l.namespaces v).toList := by
    intro v
    rw [nameOf]
    cases hg : (Table.get? (actionIndex stages) (v.stage, v.action)).bind l.namespaces.get? with
    | none => exact List.not_mem_nil
    | some name =>
        obtain ⟨id, _, hname⟩ := Option.bind_eq_some_iff.mp hg
        exact hcolon id name hname
  intro o hm a ha
  obtain ⟨s, ho⟩ := List.getElem?_of_mem hm
  obtain ⟨i, he⟩ := h.exists_emittedAt ho ha
  obtain ⟨stage, action, hat, hmade⟩ := h.exists_action he
  have hms := List.mem_of_getElem? hat.hs
  have hma := List.mem_of_getElem? hat.ha
  exact (h.rewrites hat he).settled hN hmade.kind ((h.regular stage hms).actions action hma)
    ((hs stage hms).overrides action hma)

end Built

/-! ## Expanding again -/

theorem regular_of_readAll {context : String} {compiler compiler' : Fragment.Compiler} {nodes : List Node}
    (hw : Node.AllWellFormed nodes) (hu : ∀ node ∈ nodes, Unconditional node) {stages : List Stage}
    (h : Stage.readAll context compiler nodes = .ok (stages, compiler')) : ∀ stage ∈ stages, stage.Regular := by
  intro stage hm
  obtain ⟨node, hnode, _, _, hof⟩ := Outcome.exists_of_mem_right (Stage.forall₂_of_readAfter h) hm
  exact Stage.regular_of_ofNode (Node.wellFormed_list_iff.mp hw node hnode) (hu node hnode) hof

/-- Stages are settled once they are built, if what was read is steady. -/
theorem settled_of_build {context : String} {compiler compiler' : Fragment.Compiler} {nodes : List Node}
    (hw : Node.AllWellFormed nodes) (hu : ∀ node ∈ nodes, Unconditional node) {stages : List Stage}
    (hread : Stage.readAll context compiler nodes = .ok (stages, compiler')) (hs : ∀ stage ∈ stages, stage.Steady)
    {c : Fragment.Compiler} {ordered : List OrderedStage} (hbuild : build stages c = .ok ordered) :
    ∀ o ∈ ordered, o.Settled := by
  obtain ⟨l, made, hbuilt⟩ :=
    exists_built (Stage.distinctNames_of_readAll hw hread) (regular_of_readAll hw hu hread) hbuild
  exact hbuilt.settled hs

/-- The list that a pipeline is expanded to is expanded to one that differs from it at most in the order of keys, and
with the same run orders, if all its actions are settled. -/
theorem permuted_of_expandStages {id : String} {nodes : List Node} (hw : Node.AllWellFormed nodes)
    (hu : ∀ node ∈ nodes, Unconditional node) {node : Node} {summary : Summary}
    (h : expandStages id nodes = .ok (node, summary)) {stages : List Stage} {compiler : Fragment.Compiler}
    (hread : Stage.readAll s!"pipeline '{id}'" {} nodes = .ok (stages, compiler)) {ordered : List OrderedStage}
    (hbuild : build stages compiler = .ok ordered) (hs : ∀ o ∈ ordered, o.Settled) :
    ∃ items again, node = .list items ∧ expandStages id items = .ok (again, summary) ∧ node.Permuted again := by
  obtain ⟨l, made, hbuilt⟩ :=
    exists_built (Stage.distinctNames_of_readAll hw hread) (regular_of_readAll hw hu hread) hbuild
  have hwire := hbuilt.wire
  -- the result of the first expansion
  obtain ⟨⟨_, _⟩, hread', h⟩ := Outcome.bind_eq_ok.mp h
  obtain ⟨rfl, rfl⟩ := Prod.mk.inj (Except.ok.inj (hread.symm.trans hread'))
  obtain ⟨_, hbuild', h⟩ := Outcome.bind_eq_ok.mp h
  obtain rfl := Except.ok.inj (hbuild.symm.trans (Outcome.ok_of_mapError hbuild'))
  obtain ⟨rfl, rfl⟩ := Prod.mk.inj (Except.ok.inj h)
  have hreread : Stage.readAll s!"pipeline '{id}'" {} (ordered.map OrderedStage.toNode) =
      .ok (ordered.map OrderedStage.reread, {}) :=
    OrderedStage.readAll_toNode hwire.legible hwire.names (fun _ _ hm => List.not_mem_nil hm) _ _
  have horders : (ordered.map OrderedStage.again).flatMap OrderedStage.runOrders =
      ordered.flatMap OrderedStage.runOrders := by
    rw [List.flatMap_map]
    exact List.flatMap_congr fun o _ => o.runOrders_again
  refine ⟨ordered.map OrderedStage.toNode, stagesNode (ordered.map OrderedStage.again), rfl, ?_, ?_⟩
  · refine Outcome.bind_eq_ok.mpr ⟨_, hreread, Outcome.bind_eq_ok.mpr ⟨ordered.map OrderedStage.again, ?_, ?_⟩⟩
    · rw [hwire.build_reread hs {}]
      rfl
    · rw [horders]
  · rw [stagesNode, stagesNode, List.map_map]
    exact .list (Node.permutedItems_map fun o ho => OrderedStage.permuted_again (hwire.legible o ho))

theorem permuted_twoActions : ∃ node summary items again, expandStages "P" twoActions = .ok (node, summary) ∧
    node = .list items ∧ expandStages "P" items = .ok (again, summary) ∧ node.Permuted again := by
  obtain ⟨⟨node, summary⟩, h⟩ : ∃ out, expandStages "P" twoActions = .ok out :=
    Outcome.exists_of_isOk (by decide +kernel)
  obtain ⟨ordered, hbuild⟩ : ∃ ordered, build twoActionsRead {} = .ok ordered :=
    Outcome.exists_of_isOk (by decide +kernel)
  have hw : Node.AllWellFormed twoActions := by
    simp [twoActions, Node.AllWellFormed, Node.WellFormed, Node.EntriesWellFormed, Table.Distinct, Table.keys]
  have hu : ∀ node ∈ twoActions, Unconditional node := by
    intro node hm
    obtain rfl := List.mem_singleton.mp hm
    exact ⟨by decide, by decide, by decide⟩
  have hread : Stage.readAll "pipeline 'P'" {} twoActions = .ok (twoActionsRead, {}) := rfl
  have hs : ∀ stage ∈ twoActionsRead, stage.Steady := by
    intro stage hm
    obtain rfl := List.mem_singleton.mp hm
    exact ⟨by simp [buildAction, sourceAction], by simp [buildAction, sourceAction]⟩
  obtain ⟨items, again, hnode, hagain, hperm⟩ :=
    permuted_of_expandStages hw hu h hread hbuild (settled_of_build hw hu hread hs hbuild)
  exact ⟨node, summary, items, again, h, hnode, hagain, hperm⟩

/-! ## Overrides that are compiled -/

/-- A stage in wire form with one action, which has these overrides. -/
def overriding (overrides : Node) : Node :=
  .map [("Name", .text "S"), ("Actions", .list [.map [("Name", .text "A"),
    ("ActionTypeId", .map [("Category", .text "Deploy"), ("Owner", .text "AWS"), ("Provider", .text "CloudFormation"),
      ("Version", .text "1")]),
    ("Configuration", .map [("ActionMode", .text "CREATE_UPDATE"), ("ParameterOverrides", overrides)]),
    ("RunOrder", .whole 1)]])]

def overridingAction (overrides : Node) : Action where
  name := "A"
  kind := .cloudFormation
  type := ⟨"Deploy", "AWS", "CloudFormation", "1"⟩
  inputs := []
  outputs := []
  dependsOn := []
  ownNamespace := none
  runOrder := some 1
  condition := none
  configuration := [("ActionMode", .text "CREATE_UPDATE")]
  overrides := some overrides
  extra := []

theorem readAll_overriding (overrides : Node) : Stage.readAll "pipeline 'P'" {} [overriding overrides] =
    .ok ([⟨"S", none, [overridingAction overrides], []⟩], {}) := by
  let declared : Table Node := [("ActionMode", .text "CREATE_UPDATE"), ("ParameterOverrides", overrides)]
  let body : Table Node :=
    [("ActionTypeId", .map [("Category", .text "Deploy"), ("Owner", .text "AWS"), ("Provider", .text "CloudFormation"),
      ("Version", .text "1")]), ("Configuration", .map declared), ("RunOrder", .whole 1)]
  have hread : Action.ReadFrom "pipeline 'P' stage 'S' action 'A'" {} body (overridingAction overrides) {} := by
    constructor
    case configuration =>
      have hnone : (Action.sharedKeys ++ Action.ownKeys).foldl Table.erase body = [] := by
        simp [body, Action.sharedKeys, Action.ownKeys, Table.erase]
      rw [hnone]
      exact ⟨declared, ⟨[], overridingAction overrides |>.configuration⟩, rfl, rfl, rfl⟩
    all_goals rfl
  have haction : Action.ofNode "pipeline 'P' stage 'S'" {} "A" (.map body) = .ok (overridingAction overrides, {}) :=
    Action.ofNode_eq_ok_iff.mpr ⟨rfl, rfl, hread⟩
  have hstage : Stage.ofNode "pipeline 'P'" {} (overriding overrides) =
      .ok (⟨"S", none, [overridingAction overrides], []⟩, {}) := by
    apply Stage.ofNode_eq_ok_iff.mpr ⟨rfl, rfl, rfl, ?_, by simp, rfl⟩
    exact Outcome.bind_eq_ok.mpr ⟨_, haction, rfl⟩
  exact Outcome.bind_eq_ok.mpr ⟨_, hstage, rfl⟩

/-- Overrides with a call in them, as they are compiled. -/
def compiledOverrides : Node := .call Call.sub (.text "\x7b\"A\":\"$\x7bB\x7d\"\x7d")

/-- The same when they are compiled once more. -/
def recompiledOverrides : Node := .call Call.sub (.text "\"\x7b\\\"A\\\":\\\"$\x7bB\x7d\\\"\x7d\"")

/-- Compiled overrides with a call in them are a mapping again, and are quoted when they are read again. -/
theorem recompiled_overriding :
    (∃ summary, expandStages "P" [overriding (.map [("A", .refTo "B")])] =
        .ok (.list [overriding compiledOverrides], summary) ∧
      expandStages "P" [overriding compiledOverrides] = .ok (.list [overriding recompiledOverrides], summary)) ∧
    Unconditional (overriding (.map [("A", .refTo "B")])) ∧
    ¬ (Node.list [overriding compiledOverrides]).Permuted (.list [overriding recompiledOverrides]) := by
  have hrun (overrides out : Node)
      (hb : (build [⟨"S", none, [overridingAction overrides], []⟩] {}).map (fun ordered =>
        (stagesNode ordered, ordered.flatMap OrderedStage.runOrders)) = .ok (.list [overriding out], [("S:A", 1)])) :
      expandStages "P" [overriding overrides] = .ok (.list [overriding out], ⟨"P", [("S:A", 1)]⟩) := by
    obtain ⟨ordered, hbuild, he⟩ := Outcome.map_eq_ok.mp hb
    obtain ⟨hnode, horders⟩ := Prod.mk.inj he
    refine Outcome.bind_eq_ok.mpr ⟨_, readAll_overriding overrides, Outcome.bind_eq_ok.mpr ⟨ordered, ?_, ?_⟩⟩
    · rw [hbuild]
      rfl
    · rw [hnode, horders]
  refine ⟨⟨_, hrun _ _ (by cbv), hrun _ _ (by cbv)⟩, ⟨by decide, by decide, by decide⟩, fun hp => ?_⟩
  have hw : (Node.list [overriding compiledOverrides]).WellFormed := by
    simp [overriding, compiledOverrides, Node.WellFormed, Node.AllWellFormed, Node.EntriesWellFormed, Node.whole,
      Table.Distinct, Table.keys]
  have hsame := hp.same hw
  revert hsame
  decide +kernel

end Shorthand.Pipeline
