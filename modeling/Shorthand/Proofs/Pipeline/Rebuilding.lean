import Shorthand.Proofs.Pipeline.Renaming
import Shorthand.Proofs.Pipeline.WireForm

/-!
# Stages in wire form are built again

In a wire form nothing is left to resolve: every action has its namespace, asks for its run order, and waits only for
those whose artifacts it takes. Where these run before it, the search gives each action the order it asks for.
-/
namespace Shorthand.Pipeline

/-! ## Nothing to resolve -/

/-- An action that names no other action and reads no variable, and whose overrides are compiled. -/
structure Action.Still (a : Action) : Prop where
  dependsOn : a.dependsOn = []
  reads : a.variables = []
  overrides : ∀ node, a.overrides = some node → node.isMap = false

/-- The action with its overrides in its configuration. -/
def Action.joined (a : Action) : Action :=
  { a with
    configuration := a.overrides.elim a.configuration fun node => Table.put a.configuration "ParameterOverrides" node
    overrides := none }

namespace LinkContext
variable (k : LinkContext)

/-- A still action that is linked. -/
def still (a : Action) : LinkedAction := ⟨a.joined, k.addInputs a.inputs []⟩

theorem compileOverrides_of_not_isMap {node : Node} (h : node.isMap = false) (compiler : Fragment.Compiler) :
    compileOverrides compiler node = (node, compiler) := by
  cases node with
  | map => cases h
  | _ => rfl

theorem linkAction_still {a : Action} (h : a.Still) (namespaces : Namespaces) (compiler : Fragment.Compiler) :
    k.linkAction a namespaces compiler = .ok (k.still a, namespaces, compiler) := by
  have hv := h.reads
  rw [Action.variables, List.append_eq_nil_iff] at hv
  rw [linkAction, h.dependsOn, addNames]
  simp only [StageVariable.rewriteEntries_self _ _ hv.1, Outcome.ok_bind, still, Action.joined, h.dependsOn]
  cases ho : a.overrides with
  | none => simp only [Option.elim_none]
  | some node =>
      have hn := hv.2
      rw [ho] at hn
      simp only [StageVariable.rewriteNode_self _ node hn, Outcome.ok_bind,
        compileOverrides_of_not_isMap (h.overrides node ho), Option.elim_some]

theorem linkActions_still {as : List Action} (h : ∀ a ∈ as, a.Still) (namespaces : Namespaces)
    (compiler : Fragment.Compiler) :
    k.linkActions as namespaces compiler = .ok (as.map k.still, namespaces, compiler) := by
  induction as with
  | nil => rfl
  | cons a as ih =>
      obtain ⟨ha, h⟩ := List.forall_mem_cons.mp h
      exact Outcome.bind_eq_ok.mpr ⟨_, k.linkAction_still ha _ _, Outcome.bind_eq_ok.mpr ⟨_, ih h, rfl⟩⟩

end LinkContext

namespace Registered
variable (r : Registered)

/-- A stage of still actions that is linked. -/
def still (declared : Stage × Nat) : LinkedStage :=
  ⟨declared.1.name, declared.1.condition, declared.1.extra,
    declared.1.actions.map (r.context declared.2 declared.1).still⟩

theorem linkStages_still {stages : List Stage} (h : ∀ stage ∈ stages, ∀ a ∈ stage.actions, a.Still)
    (first : Nat) (namespaces : Namespaces) (compiler : Fragment.Compiler) :
    r.linkStages first stages namespaces compiler =
      .ok ((stages.zipIdx first).map r.still, namespaces, compiler) := by
  induction stages generalizing first with
  | nil => rfl
  | cons stage stages ih =>
      obtain ⟨hs, h⟩ := List.forall_mem_cons.mp h
      exact Outcome.bind_eq_ok.mpr ⟨_, (r.context first stage).linkActions_still hs _ _,
        Outcome.bind_eq_ok.mpr ⟨_, ih h (first + 1), rfl⟩⟩

end Registered

/-! ## Run orders that are asked for -/

namespace LinkedStage
variable {stage : LinkedStage}

/-- Where everything that a position runs after asks for less, each position gets what it asks for. -/
theorem runOrders_of_floors (hc : stage.Closed) (hone : ∀ i, 1 ≤ stage.floorAt i)
    (hlt : ∀ i j, stage.After i j → stage.floorAt j < stage.floorAt i) :
    ∃ orders, stage.runOrders = .ok orders ∧
      ∀ i < stage.actions.length, Table.get? orders i = some (stage.floorAt i) := by
  have hlt' : ∀ i j, stage.After i j → (stage.floorAt j).toNat < (stage.floorAt i).toNat :=
    fun i j h => UInt64.lt_iff_toNat_lt.mp (hlt i j h)
  have hfits : stage.Fits := by
    intro i n k hsteps _
    have hle : (stage.floorAt k).toNat + n ≤ (stage.floorAt i).toNat := by
      induction hsteps with
      | nil => exact Nat.le_refl _
      | cons hj _ ih =>
          have hnext := hlt' _ _ hj
          omega
    have hleast : 1 ≤ (stage.floorAt k).toNat := hone k
    have hsize := (stage.floorAt i).toNat_lt_size
    rw [leastAt]
    omega
  obtain ⟨orders, ho⟩ := (runOrders_eq_ok_iff hc).mpr ⟨not_transGen_self hlt', hfits⟩
  obtain ⟨hf, hall⟩ := filled_of_runOrders hc ho
  have hget : ∀ {i o}, Table.get? orders i = some o → o = stage.floorAt i := by
    intro i o hg
    -- whatever the position runs after stands before it in the table
    induction hm : (Table.keys orders).idxOf i using Nat.strong_induction_on generalizing i o with
    | _ m ih =>
        have hdeep : (deepest orders 0 (stage.afterAt i)).toNat < (stage.floorAt i).toNat := by
          rcases deepest_eq orders 0 (stage.afterAt i) with hd | ⟨j, hj, hd⟩
          · rw [hd]
            exact hone i
          · obtain ⟨o', hg'⟩ := hf.exists_order_of_after hg hj
            have hidx := (hf.idxOf_lt (Table.mem_keys_of_get? hg) hj).2
            rw [hd, hg', Option.getD_some, ih _ (hm ▸ hidx) hg' rfl]
            exact hlt' i j hj
        rw [← UInt64.toNat_inj, hf.order_eq hg]
        omega
  refine ⟨orders, ho, fun i hi => ?_⟩
  obtain ⟨o, hg⟩ := Table.exists_get?_of_mem_keys (hall i hi)
  rw [hg, hget hg]

end LinkedStage
/-! ## What is emitted is built again -/

/-- What stages in wire form are like: each can be read, artifacts and namespaces are claimed once, inputs come from
the same stage or an earlier one, and actions stand in run order, with larger ones than those whose artifacts they
take. -/
structure Wire (ordered : List OrderedStage) : Prop where
  legible : ∀ o ∈ ordered, o.Legible
  names : (ordered.map OrderedStage.name).Nodup
  outputs : (ordered.flatMap fun o => o.actions.flatMap fun a => a.action.outputs).Nodup
  inputs : ∀ (s : Nat) (o : OrderedStage), ordered[s]? = some o → ∀ a ∈ o.actions, ∀ x ∈ a.action.inputs,
    ∃ s' o', ordered[s']? = some o' ∧ s' ≤ s ∧ ∃ b ∈ o'.actions, x ∈ b.action.outputs
  namespaces : (ordered.flatMap fun o => o.actions.flatMap fun a => a.namespaceName.toList).Nodup
  sorted : ∀ o ∈ ordered, o.actions.Pairwise fun a b => a.runOrder ≤ b.runOrder
  artifacts : ∀ o ∈ ordered, ∀ a ∈ o.actions, ∀ b ∈ o.actions,
    ∀ x ∈ a.action.inputs, x ∈ b.action.outputs → b.runOrder < a.runOrder

/-- Nothing is left to do for an action: its configuration holds no stage variable, and its overrides, if it is one
that has any, are not a mapping. -/
structure OrderedAction.Settled (a : OrderedAction) : Prop where
  reads : variablesIn (Node.textsOfEntries a.action.configuration) = []
  overrides : a.action.kind = .cloudFormation → ∀ node,
    Table.get? a.action.configuration "ParameterOverrides" = some node → node.isMap = false

/-- All actions of a stage are settled. -/
def OrderedStage.Settled (o : OrderedStage) : Prop := ∀ a ∈ o.actions, a.Settled

/-- What an emitted action is emitted as when it is read and built again. -/
def OrderedAction.again (a : OrderedAction) : OrderedAction := ⟨a.reread.joined, a.runOrder, a.namespaceName⟩

def OrderedStage.again (o : OrderedStage) : OrderedStage :=
  ⟨o.name, none, o.extra, o.actions.map OrderedAction.again⟩

theorem variablesIn_entries_eq_nil {t : Table Node} :
    variablesIn (Node.textsOfEntries t) = [] ↔ ∀ e ∈ t, variablesIn e.2.texts = [] := by
  induction t with
  | nil => simp [Node.textsOfEntries, variablesIn]
  | cons e t ih => rw [Node.textsOfEntries, variablesIn_append, List.append_eq_nil_iff, ih, List.forall_mem_cons]

theorem OrderedAction.Settled.still {a : OrderedAction} (h : a.Settled) (hl : a.Legible) : a.reread.Still := by
  have hreads := variablesIn_entries_eq_nil.mp h.reads
  refine ⟨rfl, List.append_eq_nil_iff.mpr ⟨?_, ?_⟩, fun node hn => ?_⟩
  · exact variablesIn_entries_eq_nil.mpr fun e he => hreads e (Action.mem_of_mem_alone hl.regular.distinct he)
  · cases hn : a.reread.overrides with
    | none => rfl
    | some node => exact hreads _ (Table.mem_of_get? (Action.of_alone_eq_some hn).2)
  · obtain ⟨hkind, hget⟩ := Action.of_alone_eq_some hn
    exact h.overrides hkind node hget

theorem OrderedAction.perm_again {a : OrderedAction} (h : a.Legible) :
    a.action.configuration.Perm a.again.action.configuration := Action.perm_alone h.regular.distinct a.action.kind

namespace Wire
variable {ordered : List OrderedStage}

theorem exists_of_at {id : ActionId} {stage : Stage} {action : Action}
    (h : At (ordered.map OrderedStage.reread) id stage action) :
    ∃ o a, ordered[id.stage]? = some o ∧ o.actions[id.index]? = some a ∧ stage = o.reread ∧ action = a.reread := by
  have hs := h.hs
  rw [List.getElem?_map, Option.map_eq_some_iff] at hs
  obtain ⟨o, ho, rfl⟩ := hs
  have ha : (o.actions.map OrderedAction.reread)[id.index]? = some action := h.ha
  rw [List.getElem?_map, Option.map_eq_some_iff] at ha
  obtain ⟨a, ha, rfl⟩ := ha
  exact ⟨o, a, ho, ha, rfl, rfl⟩

theorem at_of_getElem? {s i : Nat} {o : OrderedStage} {a : OrderedAction} (ho : ordered[s]? = some o)
    (ha : o.actions[i]? = some a) : At (ordered.map OrderedStage.reread) ⟨s, i⟩ o.reread a.reread := by
  refine ⟨?_, ?_⟩
  · rw [List.getElem?_map, ho]
    rfl
  · rw [OrderedStage.reread, List.getElem?_map, ha]
    rfl

theorem granted (h : Wire ordered) : Granted (ordered.map OrderedStage.reread) := by
  refine ⟨?_, fun id x hx => ?_, ?_⟩
  · rw [keys_claims, List.flatMap_map]
    simpa [OrderedStage.reread, List.flatMap_map, OrderedAction.reread] using h.outputs
  · obtain ⟨_, _, hat, hx⟩ := hx
    obtain ⟨o, a, ho, ha, rfl, rfl⟩ := exists_of_at hat
    obtain ⟨s', o', ho', hle, b, hb, hxb⟩ := h.inputs _ o ho a (List.mem_of_getElem? ha) x hx
    obtain ⟨j, hj⟩ := List.getElem?_of_mem hb
    exact ⟨⟨s', j⟩, ⟨_, _, at_of_getElem? ho' hj, hxb⟩, hle⟩
  · rw [keys_claims, List.flatMap_map]
    simpa [OrderedStage.reread, List.flatMap_map, Registered.asked, OrderedAction.reread] using h.namespaces

/-- What an action waits for in a wire form is one whose artifact it takes. -/
theorem lt_of_waitsFor (hs : ∀ o ∈ ordered, o.Settled) (hw : Wire ordered) {s i j : Nat} {o : OrderedStage}
    {a : OrderedAction} (ho : ordered[s]? = some o) (ha : o.actions[i]? = some a)
    (h : ((registered (ordered.map OrderedStage.reread)).context s o.reread).WaitsFor a.reread ⟨s, j⟩) :
    ∃ b, o.actions[j]? = some b ∧ b.runOrder < a.runOrder := by
  have hom := List.mem_of_getElem? ho
  have ham := List.mem_of_getElem? ha
  have hstill := (hs o hom a ham).still ((hw.legible o hom).actions a ham)
  cases h with
  | @input x hx hp =>
      obtain ⟨_, _, hat, hxb⟩ := Registered.claims_of_get? hp
      obtain ⟨o', b, ho', hb, rfl, rfl⟩ := exists_of_at hat
      obtain rfl := Option.some.inj (ho.symm.trans ho')
      exact ⟨b, hb, hw.artifacts o hom a ham b (List.mem_of_getElem? hb) x hx hxb⟩
  | named hn => exact absurd hn List.not_mem_nil
  | read hv => exact absurd (hstill.reads ▸ hv) List.not_mem_nil

theorem getElem?_still {r : Registered} {s : Nat} {o : OrderedStage} {i : Nat} {a : OrderedAction}
    (ha : o.actions[i]? = some a) :
    (r.still (o.reread, s)).actions[i]? = some ((r.context s o.reread).still a.reread) := by
  rw [Registered.still, OrderedStage.reread, List.getElem?_map, List.getElem?_map, ha]
  rfl

theorem floorAt_still {r : Registered} {s : Nat} {o : OrderedStage} {i : Nat} {a : OrderedAction}
    (ha : o.actions[i]? = some a) : (r.still (o.reread, s)).floorAt i = a.runOrder := by
  rw [LinkedStage.floorAt, getElem?_still ha]
  rfl

/-- The namespace that was emitted for an action is its own again. -/
theorem namespace_of_declared {ns : Namespaces}
    (hns : ∀ id name, ns.get? id = some name ↔ Claims Registered.asked (ordered.map OrderedStage.reread) id name)
    {s i : Nat} {o : OrderedStage} {a : OrderedAction} (ho : ordered[s]? = some o) (ha : o.actions[i]? = some a) :
    ns.get? ⟨s, i⟩ = a.namespaceName := by
  refine Option.ext fun name => (hns _ _).trans ?_
  have hasked : name ∈ Registered.asked a.reread ↔ a.namespaceName = some name := Option.mem_toList
  constructor
  · rintro ⟨_, _, hat, hname⟩
    obtain ⟨rfl, rfl⟩ := hat.unique (at_of_getElem? ho ha)
    exact hasked.mp hname
  · exact fun hname => ⟨_, _, at_of_getElem? ho ha, hasked.mpr hname⟩

/-- A stage of a wire form is put in the order that it has. -/
theorem orderStage_still (hw : Wire ordered) (hs : ∀ o ∈ ordered, o.Settled) {l : Linked} {s : Nat}
    {o : OrderedStage} (ho : ordered[s]? = some o)
    (hns : ∀ id name, l.namespaces.get? id = some name ↔
      Claims Registered.asked (ordered.map OrderedStage.reread) id name)
    (hlinks : (registered (ordered.map OrderedStage.reread)).Links (o.reread, s)
      ((registered (ordered.map OrderedStage.reread)).still (o.reread, s))) :
    l.orderStage s ((registered (ordered.map OrderedStage.reread)).still (o.reread, s)) = .ok o.again := by
  have hom := List.mem_of_getElem? ho
  have hstage : (ordered.map OrderedStage.reread)[s]? = some o.reread := by
    rw [List.getElem?_map, ho]
    rfl
  generalize hl : (registered (ordered.map OrderedStage.reread)).still (o.reread, s) = linked at hlinks
  have hlength : linked.actions.length = o.actions.length := by
    rw [← hl, Registered.still, OrderedStage.reread, List.length_map, List.length_map]
  have hfloor : ∀ {i a}, o.actions[i]? = some a → linked.floorAt i = a.runOrder := fun ha => hl ▸ floorAt_still ha
  have hone : ∀ i, 1 ≤ linked.floorAt i := by
    intro i
    cases ha : o.actions[i]? with
    | none =>
        rw [LinkedStage.floorAt, List.getElem?_eq_none (hlength ▸ List.getElem?_eq_none_iff.mp ha)]
        exact UInt64.le_refl 1
    | some a =>
        rw [hfloor ha]
        exact ((hw.legible o hom).actions a (List.mem_of_getElem? ha)).runOrder
  have hlt : ∀ i j, linked.After i j → linked.floorAt j < linked.floorAt i := by
    intro i j hj
    obtain ⟨action, haction, hwaits⟩ := hlinks.after_iff.mp hj
    rw [OrderedStage.reread, List.getElem?_map, Option.map_eq_some_iff] at haction
    obtain ⟨a, ha, rfl⟩ := haction
    obtain ⟨b, hb, hlt⟩ := lt_of_waitsFor hs hw ho ha hwaits
    rw [hfloor ha, hfloor hb]
    exact hlt
  obtain ⟨orders, horders, hget⟩ := LinkedStage.runOrders_of_floors (hlinks.closed hstage) hone hlt
  have hassign : l.assign s linked orders = o.actions.map OrderedAction.again := by
    refine List.ext_getElem? fun i => ?_
    rw [List.getElem?_map]
    cases ha : o.actions[i]? with
    | none =>
        rw [Option.map_none, List.getElem?_eq_none_iff, Linked.assign, List.length_map, List.length_zipIdx, hlength]
        exact List.getElem?_eq_none_iff.mp ha
    | some a =>
        have hi : i < linked.actions.length := hlength ▸ (List.getElem?_eq_some_iff.mp ha).1
        rw [Linked.getElem?_assign (hl ▸ getElem?_still ha), hget i hi, hfloor ha, namespace_of_declared hns ho ha]
        rfl
  have hsorted : (o.actions.map OrderedAction.again).mergeSort (fun a b => decide (a.runOrder ≤ b.runOrder)) =
      o.actions.map OrderedAction.again := by
    refine List.mergeSort_of_pairwise (List.pairwise_map.mpr ((hw.sorted o hom).imp fun h => ?_))
    exact decide_eq_true h
  refine Outcome.bind_eq_ok.mpr ⟨orders, horders, ?_⟩
  change Except.ok (OrderedStage.mk _ _ _ ((l.assign s linked orders).mergeSort _)) = _
  rw [hassign, hsorted, ← hl]
  rfl

/-- Stages in wire form that are settled are built as they are, but for the order of keys. -/
theorem build_reread (hw : Wire ordered) (hs : ∀ o ∈ ordered, o.Settled) (compiler : Fragment.Compiler) :
    build (ordered.map OrderedStage.reread) compiler = .ok (ordered.map OrderedStage.again) := by
  have hg := hw.granted
  have hreg : register (ordered.map OrderedStage.reread) = .ok (registered (ordered.map OrderedStage.reread)) :=
    Outcome.bind_eq_ok.mpr ⟨_, Producers.ofStages_eq_ok.mpr ⟨rfl, hg.outputs, hg.inputs⟩, rfl⟩
  obtain ⟨ns, hns⟩ := Registered.declareNamespaces_eq_ok.mpr hg.namespaces
  have hstill : ∀ stage ∈ ordered.map OrderedStage.reread, ∀ a ∈ stage.actions, a.Still := by
    intro stage hm a ha
    obtain ⟨o, ho, rfl⟩ := List.mem_map.mp hm
    obtain ⟨b, hb, rfl⟩ := List.mem_map.mp ha
    exact (hs o ho b hb).still ((hw.legible o ho).actions b hb)
  have hlinked := (registered (ordered.map OrderedStage.reread)).linkStages_still hstill 0 ns compiler
  have hlinks := List.forall₂_same.mp (List.forall₂_map_right_iff.mp (Registered.links_of_linkStages hlinked))
  obtain ⟨l, rfl, hstages⟩ : ∃ l : Linked, l.namespaces = ns ∧ l.stages =
      (ordered.map OrderedStage.reread).zipIdx.map (registered (ordered.map OrderedStage.reread)).still :=
    ⟨⟨_, ns⟩, rfl, rfl⟩
  have hlink : (registered (ordered.map OrderedStage.reread)).link compiler = .ok (l, compiler) :=
    Outcome.bind_eq_ok.mpr ⟨_, hns, Outcome.bind_eq_ok.mpr ⟨_, hstages ▸ hlinked, rfl⟩⟩
  refine Outcome.bind_eq_ok.mpr ⟨_, hreg, Outcome.bind_eq_ok.mpr ⟨_, hlink, ?_⟩⟩
  refine Outcome.mapM_eq_ok.mpr (List.forall₂_iff_get.mpr ⟨by simp [hstages], fun s hs₁ hs₂ => ?_⟩)
  have hlt : s < ordered.length := by simpa using hs₂
  have ho : ordered[s]? = some ordered[s] := List.getElem?_eq_getElem hlt
  have hz : (ordered[s].reread, s) ∈ (ordered.map OrderedStage.reread).zipIdx := by
    rw [List.mk_mem_zipIdx_iff_getElem?, List.getElem?_map, ho]
    rfl
  have horder := orderStage_still hw hs ho (fun _ _ => Registered.get?_of_declareNamespaces hns) (hlinks _ hz)
  simpa [hstages] using horder

end Wire
end Shorthand.Pipeline
