import Mathlib.Data.List.Permutation
import Shorthand.Proofs.Pipeline.Emission
import Shorthand.Proofs.Pipeline.WireForm

/-!
# Pipelines as they are written

One node is written for each stage, and in it one for each action: in run order, and those of one order as they were
declared. All that an action or a stage has stands under its own key there, and the summary tells what is written.
-/
namespace Shorthand.Pipeline

/-- A stable sort: what comes first is not above, and where it is not below either it was first before. -/
theorem pairwise_mergeSort_zipIdx {α : Type} {le : α → α → Bool} (trans : ∀ a b c, le a b → le b c → le a c)
    (total : ∀ a b, le a b || le b a) (as : List α) :
    (as.zipIdx.mergeSort (List.zipIdxLE le)).Pairwise fun p q => le p.1 q.1 ∧ (le q.1 p.1 → p.2 < q.2) := by
  have hsorted := List.pairwise_mergeSort (List.zipIdxLE_trans trans) (List.zipIdxLE_total total) as.zipIdx
  have hplaces : (as.zipIdx.map Prod.snd).Nodup := by
    rw [List.zipIdx_map_snd]
    exact List.nodup_range'
  have hdistinct := ((List.mergeSort_perm as.zipIdx (List.zipIdxLE le)).map Prod.snd).nodup_iff.mpr hplaces
  -- where neither is above the other the places decide, and no two are at one place
  refine (hsorted.and (List.pairwise_map.mp hdistinct)).imp fun {p q} h => ?_
  obtain ⟨hle, hne⟩ := h
  unfold List.zipIdxLE at hle
  split at hle
  · rename_i hpq
    refine ⟨hpq, fun hqp => ?_⟩
    rw [if_pos hqp] at hle
    exact Nat.lt_of_le_of_ne (of_decide_eq_true hle) hne
  · cases hle

/-! ## Actions -/

namespace OrderedAction
variable {a : OrderedAction}

/-- All that an action has stands under its key, and no key is given twice. -/
structure WrittenIn (a : OrderedAction) (body : Table Node) : Prop where
  distinct : Table.Distinct body
  name : Table.get? body "Name" = some (.text a.action.name)
  type : Table.get? body "ActionTypeId" = some a.action.type.toNode
  configuration : Table.get? body "Configuration" =
    if a.action.configuration.isEmpty then none else some (.map a.action.configuration)
  inputs : Table.get? body "InputArtifacts" =
    if a.action.inputs.isEmpty then none else some (artifactNodes a.action.inputs)
  outputs : Table.get? body "OutputArtifacts" =
    if a.action.outputs.isEmpty then none else some (artifactNodes a.action.outputs)
  namespaceName : Table.get? body "Namespace" = a.namespaceName.map .text
  runOrder : Table.get? body "RunOrder" = some (.whole a.runOrder.toNat)
  extra : ∀ e ∈ a.action.extra, Table.get? body e.1 = some e.2
  keys : ∀ key ∈ Table.keys body, key ∈ keys

def WrittenAs (a : OrderedAction) (node : Node) : Prop :=
  ∃ body, node = underCondition a.action.condition (.map body) ∧ a.WrittenIn body

theorem writtenIn_present (hx : Action.ownEntries a.action.extra = a.action.extra) :
    a.WrittenIn (Table.present a.slots) := by
  have hget := Table.get?_present a.distinct_slots
  constructor
  case distinct => exact Table.distinct_present a.distinct_slots
  case extra =>
    intro e he
    have hk : e.1 ∈ Action.ownKeys := Action.mem_ownKeys_of_mem (hx ▸ he)
    have hd : Table.Distinct a.action.extra := hx ▸ Action.distinct_ownEntries _
    rw [hget, a.get?_slots hk, Option.join_some]
    exact hd.get?_of_mem he
  case keys => exact fun key hk => a.keys_slots ▸ (Table.keys_present_sublist _).subset hk
  all_goals
    rw [hget]
    rfl

theorem writtenAs_toNode (hx : Action.ownEntries a.action.extra = a.action.extra) : a.WrittenAs a.toNode :=
  ⟨_, toNode_eq hx, writtenIn_present hx⟩

/-- The run order decides, and among actions of one order the place at which they were declared. -/
def Before (p q : OrderedAction × Nat) : Prop :=
  p.1.runOrder < q.1.runOrder ∨ p.1.runOrder = q.1.runOrder ∧ p.2 < q.2

/-- The actions, each with its place among these, in the order in which they are written. -/
structure Arranges (as : List OrderedAction) (placed : List (OrderedAction × Nat)) : Prop where
  perm : placed.Perm as.zipIdx
  sorted : placed.Pairwise Before

theorem exists_arranges (as : List OrderedAction) :
    ∃ placed, Arranges as placed ∧
      (as.mergeSort fun a b => decide (a.runOrder ≤ b.runOrder)) = placed.map Prod.fst := by
  refine ⟨_, ⟨List.mergeSort_perm as.zipIdx _, ?_⟩, List.mergeSort_zipIdx.symm⟩
  refine (pairwise_mergeSort_zipIdx (fun a b c => ?_) (fun a b => ?_) as).imp fun {p q} h => ?_
  · simpa only [decide_eq_true_eq] using UInt64.le_trans
  · simpa only [Bool.or_eq_true, decide_eq_true_eq] using UInt64.le_total a.runOrder b.runOrder
  · simp only [decide_eq_true_eq, UInt64.le_iff_toNat_le] at h
    rw [Before, UInt64.lt_iff_toNat_lt, ← UInt64.toNat_inj]
    omega

end OrderedAction

/-! ## Stages -/

/-- The other attributes of a stage and of its actions are under keys of their own. -/
structure Stage.Parted (stage : Stage) : Prop where
  distinct : Table.Distinct stage.extra
  extra : ∀ key ∈ Stage.ownKeys, key ∉ Table.keys stage.extra
  actions : ∀ action ∈ stage.actions, Action.ownEntries action.extra = action.extra

structure Stage.WrittenIn (stage : Stage) (actions : List Node) (body : Table Node) : Prop where
  distinct : Table.Distinct body
  name : Table.get? body "Name" = some (.text stage.name)
  actions : Table.get? body "Actions" = some (.list actions)
  extra : ∀ e ∈ stage.extra, Table.get? body e.1 = some e.2

/-- The actions of a stage as they are once it is linked and ordered: each as it was declared but for its
configuration, with the run order and the namespace of its place. -/
structure Linked.Makes (l : Linked) (s : Nat) (stage : Stage) (made : List OrderedAction) : Prop where
  actions : List.Forall₂ OrderedAction.MadeOf stage.actions made
  runOrders : ∃ linked orders, l.stages[s]? = some linked ∧ linked.runOrders = .ok orders ∧
    ∀ i a, made[i]? = some a → Table.get? orders i = some a.runOrder
  namespaces : ∀ i a, made[i]? = some a → l.namespaces.get? ⟨s, i⟩ = a.namespaceName

def Linked.Writes (l : Linked) (s : Nat) (stage : Stage) (node : Node) : Prop :=
  ∃ made placed actions body, l.Makes s stage made ∧ OrderedAction.Arranges made placed ∧
    List.Forall₂ (fun (p : OrderedAction × Nat) action => p.1.WrittenAs action) placed actions ∧
    stage.WrittenIn actions body ∧ node = underCondition stage.condition (.map body)

/-! ## What is read -/

/-- The actions that a stage declares, each with the name that it is declared under. -/
def declaredActions : Option Node → List (Option String × Node)
  | some (.map entries) => entries.map fun (name, body) => (some name, body)
  | some (.list items) => items.map fun item =>
    ((Table.get? item.entries "Name").bind Node.text?, .map (Table.erase item.entries "Name"))
  | _ => []

namespace Stage

/-- A stage is read from this node, and each of its actions from the one that is declared at its place. -/
structure ReadAs (context : String) (declared : Node) (stage : Stage) : Prop where
  read : ∃ c c', ofNode context c declared = .ok (stage, c')
  actions : List.Forall₂ (fun (body : Option String × Node) action => body.1 = some action.name ∧
      ∃ c c', Action.ofNode s!"{context} stage '{stage.name}'" c action.name body.2 = .ok (action, c'))
    (declaredActions (Table.get? declared.entries "Actions")) stage.actions

theorem readAs_of_ofNode {context : String} {compiler compiler' : Fragment.Compiler} {declared : Node} {stage : Stage}
    (h : ofNode context compiler declared = .ok (stage, compiler')) : ReadAs context declared stage := by
  refine ⟨⟨_, _, h⟩, ?_⟩
  have hactions := (ofNode_eq_ok_iff.mp h).2.actions
  unfold readActions at hactions
  split at hactions
  · rename_i hg
    rw [hg, declaredActions, List.forall₂_map_left_iff]
    refine (forall₂_of_readEntries hactions).imp fun e action hof => ?_
    obtain ⟨c, c', hof⟩ := hof
    have hname := (Action.of_ofNode hof).1
    exact ⟨congrArg some hname.symm, c, c', hname ▸ hof⟩
  · rename_i hg
    rw [hg, declaredActions, List.forall₂_map_left_iff]
    exact (forall₂_of_readItems hactions).imp fun item action hof => ⟨bind_text?_eq_some.mpr hof.1, hof.2⟩
  · cases hactions

theorem ReadAs.parted {context : String} {declared : Node} {stage : Stage} (h : ReadAs context declared stage)
    (hw : declared.WellFormed) : stage.Parted := by
  obtain ⟨_, _, hof⟩ := h.read
  constructor
  · rw [(ofNode_eq_ok_iff.mp hof).2.extra]
    exact (hw.entries.distinct.foldl_erase ownKeys).1
  · exact fun key hk => not_mem_extra_of_ofNode hw hof hk
  · intro action ha
    obtain ⟨_, _, -, _, _, hof⟩ := Outcome.exists_of_mem_right h.actions ha
    rw [(Action.ofNode_eq_ok_iff.mp hof).2.2.extra, Action.ownEntries_ownEntries]

end Stage

/-! ## What is told of it -/

/-- What stands in a condition, and anything else as it is. -/
def unconditioned (node : Node) : Node :=
  match node.single? with
  | some (name, .list [_, inner, _]) => if name = Call.conditional then inner else node
  | _ => node

theorem unconditioned_underCondition {body : Table Node} {value : Node} (h : Table.get? body "Name" = some value)
    (condition : Option String) : unconditioned (underCondition condition (.map body)) = .map body := by
  cases condition with
  | some condition => rfl
  | none =>
      unfold unconditioned underCondition
      split
      · rename_i name _ inner _ hs
        split
        · rename_i hname
          cases body with
          | nil => cases hs
          | cons e body =>
              cases body with
              | cons _ _ => cases hs
              | nil =>
                  obtain rfl := Option.some.inj hs
                  rw [hname] at h
                  cases h
        · rfl
      · rfl

def textAt (key : String) (node : Node) : String := ((node.get? key).bind Node.text?).getD ""

def writtenOrders (stage : Node) : List (String × Node) :=
  let stage := unconditioned stage
  (((stage.get? "Actions").bind Node.list?).getD []).map fun action =>
    let action := unconditioned action
    let (stageName, name) := (textAt "Name" stage, textAt "Name" action)
    (s!"{stageName}:{name}", (action.get? "RunOrder").getD .null)

theorem OrderedStage.writtenOrders_underCondition {o : OrderedStage} {body : Table Node}
    (hname : Table.get? body "Name" = some (.text o.name))
    (hactions : Table.get? body "Actions" = some (.list (o.actions.map OrderedAction.toNode)))
    (hw : ∀ a ∈ o.actions, a.WrittenAs a.toNode) (condition : Option String) :
    writtenOrders (underCondition condition (.map body)) = o.runOrders.map fun e => (e.1, Node.whole e.2.toNat) := by
  simp only [writtenOrders, unconditioned_underCondition hname, Node.get?, hactions, Option.bind_some, Node.list?,
    Option.getD_some, runOrders, List.map_map]
  refine List.map_congr_left fun a ha => ?_
  obtain ⟨inner, hnode, hinner⟩ := hw a ha
  simp [hnode, unconditioned_underCondition hinner.name, textAt, Node.get?, Node.text?, hname, hinner.name,
    hinner.runOrder]

/-! ## Pipelines -/

theorem Linked.makes_assign {stages : List Stage} {l : Linked} {s : Nat} {stage : Stage} {linked : LinkedStage}
    {orders : RunOrders} (hs : stages[s]? = some stage) (hl : l.stages[s]? = some linked)
    (hlinks : (registered stages).Links (stage, s) linked) (hr : linked.runOrders = .ok orders) :
    l.Makes s stage (l.assign s linked orders) := by
  obtain ⟨-, hall⟩ := LinkedStage.filled_of_runOrders (hlinks.closed hs) hr
  constructor
  · exact Assigns.madeOf ⟨orders, hr, rfl⟩ hlinks
  · refine ⟨linked, orders, hl, hr, fun i a ha => ?_⟩
    obtain ⟨hi, horder, -⟩ := of_getElem?_assign ha
    obtain ⟨order, hg⟩ := Table.exists_get?_of_mem_keys (hall i hi)
    rw [horder, hg, Option.getD_some]
  · intro i a ha
    exact (of_getElem?_assign ha).2.2.symm

theorem Linked.writes_of_order {stages : List Stage} {l : Linked} (hlinks : LinksTo stages l)
    (hconditions : List.Forall₂ (fun stage (l : LinkedStage) => l.condition = stage.condition) stages l.stages)
    {ordered : List OrderedStage} (ho : l.order = .ok ordered) {s : Nat} {stage : Stage} (hs : stages[s]? = some stage)
    (hp : stage.Parted) :
    ∃ o, ordered[s]? = some o ∧ l.Writes s stage o.toNode ∧
      writtenOrders o.toNode = o.runOrders.map fun e => (e.1, Node.whole e.2.toNat) := by
  obtain ⟨linked, hl, hlinks⟩ := hlinks.exists_linked hs
  obtain ⟨_, hl', hcondition⟩ := Outcome.exists_right hconditions hs
  obtain rfl := Option.some.inj (hl.symm.trans hl')
  obtain ⟨o, ho, horder⟩ := Outcome.exists_right (Outcome.mapM_eq_ok.mp ho) (Outcome.getElem?_zipIdx_of hl)
  obtain ⟨orders, hr, he⟩ := Outcome.bind_eq_ok.mp horder
  obtain ⟨placed, harranged, hsort⟩ := OrderedAction.exists_arranges (l.assign s linked orders)
  have hmakes := makes_assign hs hl hlinks hr
  obtain ⟨hname, hextra, hcond, hactions⟩ : o.name = stage.name ∧ o.extra = stage.extra ∧
      o.condition = stage.condition ∧ o.actions = placed.map Prod.fst := by
    rw [← Except.ok.inj he]
    exact ⟨hlinks.name, hlinks.extra, hcondition, hsort⟩
  -- the extra entries are as they were read, so they hide none of the keys that are written
  have hwritten : ∀ a ∈ o.actions, a.WrittenAs a.toNode := by
    intro a ha
    rw [hactions] at ha
    obtain ⟨⟨a, i⟩, hm, rfl⟩ := List.mem_map.mp ha
    obtain ⟨action, haction, hmade⟩ :=
      Outcome.exists_of_mem_right hmakes.actions (List.fst_mem_of_mem_zipIdx (harranged.perm.mem_iff.mp hm))
    refine OrderedAction.writtenAs_toNode ?_
    rw [hmade.extra]
    exact hp.actions action haction
  have hd := OrderedStage.distinct_entries (o := o) (hextra ▸ hp.distinct) (hextra ▸ hp.extra)
  have hnode := OrderedStage.toNode_eq (o := o) (hextra ▸ hp.distinct) (hextra ▸ hp.extra)
  refine ⟨o, ho, ⟨_, placed, o.actions.map OrderedAction.toNode, _, hmakes, harranged, ?_, ⟨hd, ?_, rfl, ?_⟩, ?_⟩, ?_⟩
  · rw [hactions, List.map_map, List.forall₂_map_right_iff, List.forall₂_same]
    exact fun p hm => hwritten p.1 (hactions ▸ List.mem_map_of_mem hm)
  · rw [hname]
    rfl
  · intro e he
    exact hd.get?_of_mem (List.mem_cons_of_mem _ (List.mem_cons_of_mem _ (hextra ▸ he)))
  · rw [hnode, hcond]
  · rw [hnode]
    exact OrderedStage.writtenOrders_underCondition rfl rfl hwritten _

/-- The stages of a pipeline are written in the order of declaration, each with its actions in run order, and the
summary tells the run orders of all that is written. -/
theorem writes_of_expandStages {id : String} {nodes : List Node} (hw : Node.AllWellFormed nodes) {node : Node}
    {summary : Summary} (h : expandStages id nodes = .ok (node, summary)) :
    ∃ stages compiler r l compiler' emitted,
      Stage.readAll s!"pipeline '{id}'" {} nodes = .ok (stages, compiler) ∧
      List.Forall₂ (Stage.ReadAs s!"pipeline '{id}'") nodes stages ∧
      register stages = .ok r ∧ r.link compiler = .ok (l, compiler') ∧
      node = .list emitted ∧ emitted.length = stages.length ∧
      (∀ (s : Nat) stage, stages[s]? = some stage → ∃ node, emitted[s]? = some node ∧ l.Writes s stage node) ∧
      summary.id = id ∧
      (summary.runOrders.map fun e => (e.1, Node.whole e.2.toNat)) = emitted.flatMap writtenOrders := by
  obtain ⟨⟨stages, compiler⟩, hread, h⟩ := Outcome.bind_eq_ok.mp h
  obtain ⟨ordered, hbuild, h⟩ := Outcome.bind_eq_ok.mp h
  obtain ⟨rfl, rfl⟩ := Prod.mk.inj (Except.ok.inj h)
  have hreads : List.Forall₂ (Stage.ReadAs s!"pipeline '{id}'") nodes stages := by
    refine (Stage.forall₂_of_readAfter hread).imp fun declared stage hof => ?_
    obtain ⟨_, _, hof⟩ := hof
    exact Stage.readAs_of_ofNode hof
  obtain ⟨r, hr, h⟩ := Outcome.bind_eq_ok.mp (Outcome.ok_of_mapError hbuild)
  obtain ⟨⟨l, compiler'⟩, hl, ho⟩ := Outcome.bind_eq_ok.mp h
  obtain ⟨-, _, -, hlinked⟩ := linked_of_link hr hl
  have hconditions := Registered.condition_of_linkStages hlinked
  have hall : ∀ (s : Nat) stage, stages[s]? = some stage → ∃ o, ordered[s]? = some o ∧ l.Writes s stage o.toNode ∧
      writtenOrders o.toNode = o.runOrders.map fun e => (e.1, Node.whole e.2.toNat) := by
    intro s stage hs
    obtain ⟨declared, hm, hdeclared⟩ := Outcome.exists_of_mem_right hreads (List.mem_of_getElem? hs)
    exact Linked.writes_of_order (Registered.links_of_linkStages hlinked) hconditions ho hs
      (hdeclared.parted (Node.wellFormed_list_iff.mp hw declared hm))
  have hlength : stages.length = ordered.length := by
    rw [hconditions.length_eq, ← (Outcome.mapM_eq_ok.mp ho).length_eq, List.length_zipIdx]
  refine ⟨stages, compiler, r, l, compiler', ordered.map OrderedStage.toNode, hread, hreads, hr, hl, rfl, ?_, ?_, rfl,
    ?_⟩
  · rw [List.length_map, hlength]
  · intro s stage hs
    obtain ⟨o, ho, hwrites, -⟩ := hall s stage hs
    exact ⟨o.toNode, by rw [List.getElem?_map, ho]; rfl, hwrites⟩
  · rw [List.map_flatMap, List.flatMap_map]
    refine List.flatMap_congr fun o hm => ?_
    obtain ⟨s, hlt, rfl⟩ := List.mem_iff_getElem.mp hm
    obtain ⟨o, ho, -, htold⟩ := hall s _ (List.getElem?_eq_getElem (hlength ▸ hlt))
    obtain rfl := Option.some.inj ((List.getElem?_eq_getElem hlt).symm.trans ho)
    exact htold.symm

/-- A stage under a condition, with three actions. The first runs after the last, and the one between them is under a
condition of its own. -/
def threeActions : List Node :=
  [.map [("Name", .text "S"), ("Condition", .text "C"), ("Actions", .map
    [("A", .map [("Type", .text "Build"), ("Project", .text "p"), ("DependsOn", .text "E")]),
     ("B", .map [("Type", .text "Build"), ("Project", .text "p"), ("Condition", .text "D"), ("Region", .text "r")]),
     ("E", .map [("Type", .text "Build"), ("Project", .text "p")])])]]

theorem writes_threeActions : ∃ node summary emitted, expandStages "P" threeActions = .ok (node, summary) ∧
    node = .list emitted ∧ emitted.flatMap writtenOrders = [("S:B", .whole 1), ("S:E", .whole 1), ("S:A", .whole 2)] ∧
    ∃ (l : Linked) (stage : Stage), ∃ node ∈ emitted, l.Writes 0 stage node := by
  obtain ⟨⟨node, summary⟩, h⟩ : ∃ out, expandStages "P" threeActions = .ok out :=
    Outcome.exists_of_isOk (by decide +kernel)
  have hw : Node.AllWellFormed threeActions := by
    simp [threeActions, Node.AllWellFormed, Node.WellFormed, Node.EntriesWellFormed, Table.Distinct, Table.keys]
  have horders : (expandStages "P" threeActions).map (fun out => out.2.runOrders) =
      .ok [("S:B", 1), ("S:E", 1), ("S:A", 2)] := by cbv
  obtain ⟨stages, _, _, l, _, emitted, -, hreads, -, -, hnode, -, hall, -, htold⟩ := writes_of_expandStages hw h
  obtain ⟨stage, hs, -⟩ := Outcome.exists_right hreads (i := 0) rfl
  obtain ⟨node', hnode', hwrites⟩ := hall 0 stage hs
  rw [h] at horders
  have horders : summary.runOrders = _ := Except.ok.inj horders
  rw [horders] at htold
  exact ⟨node, summary, emitted, h, hnode, htold.symm, l, stage, node', List.mem_of_getElem? hnode', hwrites⟩

end Shorthand.Pipeline
