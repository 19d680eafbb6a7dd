import Shorthand.Pipeline.Emission
import Shorthand.Proofs.Pipeline.Graph

/-!
# Emitted pipelines

In an emitted pipeline every action runs after all that it needs: these are in earlier stages, or in its
own stage with smaller run orders.
-/
namespace Shorthand.Pipeline

/-! ## Emitted actions -/

/-- An emitted action is as it was declared, but for its configuration. -/
def OrderedAction.MadeOf (action : Action) (a : OrderedAction) : Prop :=
  a.action = { action with configuration := a.action.configuration, overrides := none }

namespace OrderedAction.MadeOf
variable {action : Action} {a : OrderedAction} (h : OrderedAction.MadeOf action a)
include h

theorem name : a.action.name = action.name := (congrArg Action.name h).trans rfl

theorem kind : a.action.kind = action.kind := (congrArg Action.kind h).trans rfl

theorem inputs : a.action.inputs = action.inputs := (congrArg Action.inputs h).trans rfl

theorem outputs : a.action.outputs = action.outputs := (congrArg Action.outputs h).trans rfl

theorem condition : a.action.condition = action.condition := (congrArg Action.condition h).trans rfl

theorem extra : a.action.extra = action.extra := (congrArg Action.extra h).trans rfl

end OrderedAction.MadeOf

/-- What is emitted for a stage: its actions, given in the order of declaration too. -/
structure EmittedAs (stage : Stage) (as : List OrderedAction) (o : OrderedStage) : Prop where
  name : o.name = stage.name
  actions : List.Forall₂ OrderedAction.MadeOf stage.actions as
  perm : as.Perm o.actions
  sorted : o.actions.Pairwise fun a b => a.runOrder ≤ b.runOrder

/-- What is emitted for stages. -/
structure Emits (stages : List Stage) (made : List (List OrderedAction)) (ordered : List OrderedStage) :
    Prop where
  length : ordered.length = stages.length
  stage : ∀ {s : Nat} {stage : Stage}, stages[s]? = some stage →
    ∃ as o, made[s]? = some as ∧ ordered[s]? = some o ∧ EmittedAs stage as o

/-- The action at one position runs before that at another: in an earlier stage, or in the same stage
with a smaller run order. -/
inductive Earlier (made : List (List OrderedAction)) (q p : ActionId) : Prop
  | stage (h : q.stage < p.stage)
  | order {as : List OrderedAction} {b a : OrderedAction} (h : q.stage = p.stage)
      (hs : made[p.stage]? = some as) (hb : as[q.index]? = some b) (ha : as[p.index]? = some a)
      (hlt : b.runOrder < a.runOrder)

/-- All that an action needs is there and runs before it. -/
structure Respected (stages : List Stage) (made : List (List OrderedAction)) (p : ActionId) (stage : Stage)
    (action : Action) : Prop where
  /-- Each input is an output of one action, and of no other. -/
  inputs : ∀ x ∈ action.inputs, ∃ q, Earlier made q p ∧ ∀ q', Claims Action.outputs stages q' x ↔ q' = q
  named : ∀ name ∈ action.dependsOn, ∃ q, Earlier made q p ∧
    Names stages (name.stage.getD stage.name) name.action q
  read : ∀ v ∈ action.variables, ∃ q, Earlier made q p ∧ Names stages v.stage v.action q

/-! ## One stage -/

namespace Linked

/-- The actions of a stage with these run orders, in the order of declaration. -/
def assign (l : Linked) (s : Nat) (stage : LinkedStage) (orders : RunOrders) : List OrderedAction :=
  stage.actions.zipIdx.map fun (linked, i) =>
    ⟨linked.action, (Table.get? orders i).getD 1, l.namespaces.get? ⟨s, i⟩⟩

theorem getElem?_assign {l : Linked} {s : Nat} {stage : LinkedStage} {orders : RunOrders} {i : Nat}
    {linked : LinkedAction} (h : stage.actions[i]? = some linked) :
    (l.assign s stage orders)[i]? =
      some ⟨linked.action, (Table.get? orders i).getD 1, l.namespaces.get? ⟨s, i⟩⟩ := by
  rw [assign, List.getElem?_map, Outcome.getElem?_zipIdx_of h, Option.map_some]

theorem of_getElem?_assign {l : Linked} {s : Nat} {stage : LinkedStage} {orders : RunOrders} {i : Nat}
    {a : OrderedAction} (h : (l.assign s stage orders)[i]? = some a) :
    i < stage.actions.length ∧ a.runOrder = (Table.get? orders i).getD 1 ∧
      a.namespaceName = l.namespaces.get? ⟨s, i⟩ := by
  have hi : i < (l.assign s stage orders).length := (List.getElem?_eq_some_iff.mp h).1
  rw [assign, List.length_map, List.length_zipIdx] at hi
  rw [getElem?_assign (List.getElem?_eq_getElem hi)] at h
  obtain rfl := Option.some.inj h
  exact ⟨hi, rfl, rfl⟩

/-- The actions of a stage are these once it got its run orders. -/
def Assigns (l : Linked) (declared : LinkedStage × Nat) (as : List OrderedAction) : Prop :=
  ∃ orders, declared.1.runOrders = .ok orders ∧ as = l.assign declared.2 declared.1 orders

theorem assigns_of_orderStage {l : Linked} {linked : LinkedStage} {s : Nat} {o : OrderedStage}
    (h : l.orderStage s linked = .ok o) :
    o.name = linked.name ∧ o.actions.Pairwise (fun a b => a.runOrder ≤ b.runOrder) ∧
      ∃ as, l.Assigns (linked, s) as ∧ as.Perm o.actions := by
  obtain ⟨orders, hr, he⟩ := Outcome.bind_eq_ok.mp h
  obtain rfl := Except.ok.inj he
  refine ⟨rfl, ?_, _, ⟨orders, hr, rfl⟩, (List.mergeSort_perm _ _).symm⟩
  refine (List.pairwise_mergeSort (fun a b c => ?_) (fun a b => ?_) _).imp of_decide_eq_true
  · simpa only [decide_eq_true_eq] using UInt64.le_trans
  · simpa only [Bool.or_eq_true, decide_eq_true_eq] using UInt64.le_total a.runOrder b.runOrder

theorem Assigns.madeOf {r : Registered} {l : Linked} {stage : Stage} {linked : LinkedStage} {s : Nat}
    {as : List OrderedAction} (h : l.Assigns (linked, s) as) (hl : r.Links (stage, s) linked) :
    List.Forall₂ OrderedAction.MadeOf stage.actions as := by
  obtain ⟨orders, _, rfl⟩ := h
  rw [assign, List.forall₂_map_right_iff]
  exact (Outcome.forall₂_zipIdx hl.actions 0).imp fun _ _ hlink => hlink.same

theorem Assigns.lt {l : Linked} {linked : LinkedStage} {s : Nat} {as : List OrderedAction}
    (h : l.Assigns (linked, s) as) (hc : linked.Closed) {i j : Nat} (hj : linked.After i j) :
    ∃ b a, as[j]? = some b ∧ as[i]? = some a ∧ b.runOrder < a.runOrder := by
  obtain ⟨orders, ho, rfl⟩ := h
  obtain ⟨hf, hall⟩ := LinkedStage.filled_of_runOrders hc ho
  have hi : i < linked.actions.length := LinkedStage.lt_of_after hj
  obtain ⟨order, hoi⟩ := Table.exists_get?_of_mem_keys (hall i hi)
  obtain ⟨order', hoj, hlt⟩ := hf.lt_of_after hoi hj
  refine ⟨_, _, getElem?_assign (List.getElem?_eq_getElem (hc hj)),
    getElem?_assign (List.getElem?_eq_getElem hi), ?_⟩
  rw [hoi, hoj]
  exact hlt

end Linked

/-! ## All stages -/

/-- Stages with what they are linked to, and with their actions once these got their run orders. -/
structure Orders (stages : List Stage) (l : Linked) (made : List (List OrderedAction))
    (ordered : List OrderedStage) : Prop where
  granted : Granted stages
  links : LinksTo stages l
  order : l.order = .ok ordered
  assigns : List.Forall₂ l.Assigns l.stages.zipIdx made
  perm : List.Forall₂ (fun as o => as.Perm o.actions) made ordered

theorem exists_orders {stages : List Stage} {l : Linked} {ordered : List OrderedStage} (hg : Granted stages)
    (hl : LinksTo stages l) (ho : l.order = .ok ordered) : ∃ made, Orders stages l made ordered := by
  obtain ⟨made, hassigns, hperm⟩ := Outcome.exists_between
    ((Outcome.mapM_eq_ok.mp ho).imp fun _ _ horder => (Linked.assigns_of_orderStage horder).2.2)
  exact ⟨made, hg, hl, ho, hassigns, hperm⟩

theorem orders_of_build {stages : List Stage} {compiler : Fragment.Compiler} {ordered : List OrderedStage}
    (h : build stages compiler = .ok ordered) : ∃ l made, Orders stages l made ordered := by
  obtain ⟨hg, l, hl, ho⟩ := linksTo_of_build h
  obtain ⟨made, horders⟩ := exists_orders hg hl ho
  exact ⟨l, made, horders⟩

namespace Orders
variable {stages : List Stage} {l : Linked} {made : List (List OrderedAction)} {ordered : List OrderedStage}

theorem exists_assigns (h : Orders stages l made ordered) {s : Nat} {stage : Stage}
    (hs : stages[s]? = some stage) :
    ∃ linked as, (registered stages).Links (stage, s) linked ∧ l.stages.zipIdx[s]? = some (linked, s) ∧
      made[s]? = some as ∧ l.Assigns (linked, s) as := by
  obtain ⟨linked, hl, hlinks⟩ := h.links.exists_linked hs
  have hz : l.stages.zipIdx[s]? = some (linked, s) := Outcome.getElem?_zipIdx_of hl
  obtain ⟨as, has, hassigns⟩ := Outcome.exists_right h.assigns hz
  exact ⟨linked, as, hlinks, hz, has, hassigns⟩

theorem emits (h : Orders stages l made ordered) : Emits stages made ordered := by
  refine ⟨?_, fun {s stage} hs => ?_⟩
  · rw [← h.perm.length_eq, ← h.assigns.length_eq, List.length_zipIdx, ← h.links.length_eq, List.length_zipIdx]
  · obtain ⟨linked, as, hlinks, hz, has, hassigns⟩ := h.exists_assigns hs
    obtain ⟨o, ho, hperm⟩ := Outcome.exists_right h.perm has
    obtain ⟨o', ho', horder⟩ := Outcome.exists_right (Outcome.mapM_eq_ok.mp h.order) hz
    obtain rfl := Option.some.inj (ho.symm.trans ho')
    obtain ⟨hname, hsorted, _⟩ := Linked.assigns_of_orderStage horder
    exact ⟨as, o, has, ho, hname.trans hlinks.name, hassigns.madeOf hlinks, hperm, hsorted⟩

theorem earlier_of_waitsFor (h : Orders stages l made ordered) {p q : ActionId} {stage : Stage} {action : Action}
    (hat : At stages p stage action) (hw : ((registered stages).context p.stage stage).WaitsFor action q)
    (hle : q.stage ≤ p.stage) : Earlier made q p := by
  rcases Nat.lt_or_eq_of_le hle with hlt | heq
  · exact .stage hlt
  · obtain ⟨linked, as, hlinks, _, has, hassigns⟩ := h.exists_assigns hat.hs
    obtain ⟨s, j⟩ := q
    obtain rfl : s = p.stage := heq
    have hj : linked.After p.index j := hlinks.after_iff.mpr ⟨action, hat.ha, hw⟩
    obtain ⟨b, a, hb, ha, hlt⟩ := hassigns.lt (hlinks.closed hat.hs) hj
    exact .order rfl has hb ha hlt

theorem respected (h : Orders stages l made ordered) {p : ActionId} {stage : Stage} {action : Action}
    (hat : At stages p stage action) :
    Respected stages made p stage action := by
  obtain ⟨linked, _, hlinks⟩ := h.links.exists_linked hat.hs
  obtain ⟨_, _, hlink⟩ := Outcome.exists_right hlinks.actions hat.ha
  refine ⟨fun x hx => ?_, fun name hn => ?_, fun v hv => ?_⟩
  · obtain ⟨q, hq, hle⟩ := h.granted.inputs p x ⟨stage, action, hat, hx⟩
    refine ⟨q, h.earlier_of_waitsFor hat (.input hx ?_) hle, fun q' => ⟨fun hq' => ?_, ?_⟩⟩
    · exact (Registered.get?_eq_some_iff h.granted.outputs).mpr hq
    · exact claims_unique h.granted.outputs hq' hq
    · rintro rfl
      exact hq
  · obtain ⟨q, hreach⟩ := hlink.resolved.named name hn
    obtain ⟨hname, hle⟩ := Registered.names_of_reaches hreach
    exact ⟨q, h.earlier_of_waitsFor hat (.named hn hreach) hle, hname⟩
  · obtain ⟨q, hreach⟩ := hlink.resolved.read v hv
    obtain ⟨hname, hle⟩ := Registered.names_of_reaches hreach
    exact ⟨q, h.earlier_of_waitsFor hat (.read hv hreach) hle, hname⟩

end Orders

/-- A pipeline is emitted with the stages and actions that were read, and all that an action needs is there
and runs before it. -/
theorem respected_of_expandStages {id : String} {nodes : List Node} {node : Node} {summary : Summary}
    (h : expandStages id nodes = .ok (node, summary)) {stages : List Stage} {compiler : Fragment.Compiler}
    (hread : Stage.readAll s!"pipeline '{id}'" {} nodes = .ok (stages, compiler)) :
    ∃ made ordered, node = stagesNode ordered ∧ Emits stages made ordered ∧
      ∀ p stage action, At stages p stage action → Respected stages made p stage action := by
  obtain ⟨⟨stages', compiler'⟩, hread', h⟩ := Outcome.bind_eq_ok.mp h
  obtain ⟨rfl, rfl⟩ := Prod.mk.inj (Except.ok.inj (hread.symm.trans hread'))
  obtain ⟨ordered, hbuild, h⟩ := Outcome.bind_eq_ok.mp h
  obtain ⟨rfl, _⟩ := Prod.mk.inj (Except.ok.inj h)
  obtain ⟨l, made, horders⟩ := orders_of_build (Outcome.ok_of_mapError hbuild)
  exact ⟨made, ordered, rfl, horders.emits, fun p stage action hat => horders.respected hat⟩

theorem earlier_twoActions : ∃ node summary made ordered,
    expandStages "P" twoActions = .ok (node, summary) ∧ node = stagesNode ordered ∧
      Emits twoActionsRead made ordered ∧ Earlier made ⟨0, 1⟩ ⟨0, 0⟩ := by
  obtain ⟨⟨node, summary⟩, h⟩ : ∃ out, expandStages "P" twoActions = .ok out :=
    Outcome.exists_of_isOk (by decide +kernel)
  have hread : Stage.readAll "pipeline 'P'" {} twoActions = .ok (twoActionsRead, {}) := rfl
  obtain ⟨made, ordered, hnode, hemits, hall⟩ := respected_of_expandStages h hread
  have hat : At twoActionsRead ⟨0, 0⟩ ⟨"S", none, [buildAction, sourceAction], []⟩ buildAction := ⟨rfl, rfl⟩
  obtain ⟨q, hearlier, hq⟩ := (hall _ _ _ hat).inputs "x" List.mem_cons_self
  have hsource : (⟨0, 1⟩ : ActionId) = q :=
    (hq ⟨0, 1⟩).mp ⟨_, sourceAction, ⟨rfl, rfl⟩, List.mem_cons_self⟩
  exact ⟨node, summary, made, ordered, h, hnode, hemits, hsource ▸ hearlier⟩

end Shorthand.Pipeline
