import Shorthand.Proofs.Pipeline.Linking
import Shorthand.Proofs.Pipeline.Search
import Shorthand.Proofs.Pipeline.Stage

/-!
# Well-formed pipelines

Which actions need which others, and why exactly the well-formed pipelines are built whose run orders have room.
-/
namespace Shorthand.Pipeline

/-! ## Names -/

theorem eq_of_nodup_map {α β : Type} {f : α → β} {as : List α} (hn : (as.map f).Nodup) {i j : Nat} {a b : α}
    (hi : as[i]? = some a) (hj : as[j]? = some b) (h : f a = f b) : i = j := by
  have hlt : i < (as.map f).length := by
    rw [List.length_map]
    exact (List.getElem?_eq_some_iff.mp hi).1
  refine (List.getElem?_inj hlt hn).mp ?_
  rw [List.getElem?_map, List.getElem?_map, hi, hj, Option.map_some, Option.map_some, h]

theorem names_unique {stages : List Stage} (hd : DistinctNames stages) {stageName actionName : String}
    {id id' : ActionId} (h : Names stages stageName actionName id)
    (h' : Names stages stageName actionName id') : id = id' := by
  obtain ⟨stage, action, hat, hs, ha⟩ := h
  obtain ⟨stage', action', hat', hs', ha'⟩ := h'
  have hstage : id.stage = id'.stage := eq_of_nodup_map hd.names hat.hs hat'.hs (hs.trans hs'.symm)
  obtain rfl : stage = stage' := by
    have := hat'.hs
    rw [← hstage, hat.hs] at this
    exact Option.some.inj this
  have hindex : id.index = id'.index :=
    eq_of_nodup_map (hd.stages _ (List.mem_of_getElem? hat.hs)).names hat.ha hat'.ha (ha.trans ha'.symm)
  cases id
  cases id'
  cases hstage
  cases hindex
  rfl

/-! ## Needs -/

/-- One action needs another: it takes an artifact of it, depends on it by name, or reads a variable of
it. -/
inductive Needs (stages : List Stage) (id id' : ActionId) : Prop
  | artifact {x : String} (h : Claims Action.inputs stages id x) (hp : Claims Action.outputs stages id' x)
  | named {stage : Stage} {action : Action} {name : DependencyName} (hat : At stages id stage action)
      (h : name ∈ action.dependsOn) (hn : Names stages (name.stage.getD stage.name) name.action id')
  | read {stage : Stage} {action : Action} {v : StageVariable} (hat : At stages id stage action)
      (h : v ∈ action.variables) (hn : Names stages v.stage v.action id')

theorem Needs.exists_at {stages : List Stage} {id id' : ActionId} (h : Needs stages id id') :
    (∃ stage action, At stages id stage action) ∧ ∃ stage action, At stages id' stage action := by
  cases h with
  | artifact h hp =>
      obtain ⟨stage, action, hat, _⟩ := h
      obtain ⟨stage', action', hat', _⟩ := hp
      exact ⟨⟨stage, action, hat⟩, ⟨stage', action', hat'⟩⟩
  | named hat _ hn | read hat _ hn => exact ⟨⟨_, _, hat⟩, hn.exists_at⟩

/-- One action needs another of its own stage. -/
def NeedsBeside (stages : List Stage) (id id' : ActionId) : Prop :=
  Needs stages id id' ∧ id'.stage = id.stage

/-- The least run order that an action asks for. -/
def Action.leastOrder (action : Action) : Nat := max 1 (action.runOrder.getD 1).toNat

/-- No chain of actions of one stage, each of which needs the next, asks for more than the largest run order: its
last action asks for one, and each action before it for one more. -/
def ChainsFit (stages : List Stage) : Prop :=
  ∀ id n id', Steps (NeedsBeside stages) id n id' → ∀ stage action, At stages id' stage action →
    action.leastOrder + n < UInt64.size

theorem stage_eq_of_steps {stages : List Stage} {id id' : ActionId} {n : Nat}
    (h : Steps (NeedsBeside stages) id n id') : id'.stage = id.stage := by
  induction h with
  | nil => rfl
  | cons hn _ ih => exact ih.trans hn.2

/-- What stages must satisfy to be a pipeline. -/
structure WellFormed (stages : List Stage) : Prop where
  /-- No artifact is an output of two actions. -/
  outputs : ∀ x id id', Claims Action.outputs stages id x → Claims Action.outputs stages id' x → id = id'
  /-- Every input is an output of an action of the same or an earlier stage. -/
  inputs : ∀ id x, Claims Action.inputs stages id x →
    ∃ id', Claims Action.outputs stages id' x ∧ id'.stage ≤ id.stage
  /-- No two actions ask for the same namespace. -/
  namespaces : ∀ x id id', Claims Registered.asked stages id x → Claims Registered.asked stages id' x → id = id'
  /-- Every dependency names an action of the same or an earlier stage. -/
  named : ∀ id stage action, At stages id stage action → ∀ name ∈ action.dependsOn,
    ∃ id', Names stages (name.stage.getD stage.name) name.action id' ∧ id'.stage ≤ id.stage
  /-- Every variable is one of an action of the same or an earlier stage. -/
  read : ∀ id stage action, At stages id stage action → ∀ v ∈ action.variables,
    ∃ id', Names stages v.stage v.action id' ∧ id'.stage ≤ id.stage
  /-- No action needs itself, through others of its stage or not. -/
  acyclic : ∀ id, ¬ Relation.TransGen (NeedsBeside stages) id id

/-! ## What linking knows -/

/-- Stages with all claims for outputs. -/
def registered (stages : List Stage) : Registered := ⟨stages, claims Action.outputs 0 stages⟩

namespace Registered
variable {stages : List Stage} {s : Nat} {stage : Stage}

theorem claims_of_get? {x : String} {id : ActionId}
    (h : Table.get? (registered stages).producers x = some id) : Claims Action.outputs stages id x :=
  mem_claims_zero.mp (Table.mem_of_get? h)

theorem get?_eq_some_iff (hu : (Table.keys (claims Action.outputs 0 stages)).Nodup) {x : String}
    {id : ActionId} :
    Table.get? (registered stages).producers x = some id ↔ Claims Action.outputs stages id x := by
  constructor
  · exact claims_of_get?
  · intro h
    have hk : x ∈ Table.keys (registered stages).producers :=
      List.mem_map_of_mem (f := Prod.fst) (mem_claims_zero.mpr h)
    obtain ⟨id', hid⟩ := Table.exists_get?_of_mem_keys hk
    rw [hid, claims_unique hu h (claims_of_get? hid)]

theorem names_of_reaches {name : DependencyName} {id : ActionId}
    (h : ((registered stages).context s stage).Reaches name id) :
    Names stages (name.stage.getD stage.name) name.action id ∧ id.stage ≤ s :=
  ⟨names_of_get? h.get?, h.le⟩

theorem reaches_iff (hd : DistinctNames stages) {name : DependencyName} {id : ActionId} :
    ((registered stages).context s stage).Reaches name id ↔
      Names stages (name.stage.getD stage.name) name.action id ∧ id.stage ≤ s := by
  refine ⟨names_of_reaches, fun ⟨hn, hle⟩ => ⟨?_, hle⟩⟩
  obtain ⟨id', hid⟩ := exists_get?_of_names hn
  rw [names_unique hd hn (names_of_get? hid)]
  exact hid

theorem needs_of_waitsFor {id id' : ActionId} {action : Action} (hat : At stages id stage action)
    (h : ((registered stages).context id.stage stage).WaitsFor action id') : Needs stages id id' := by
  cases h with
  | input h hp => exact .artifact ⟨stage, action, hat, h⟩ (claims_of_get? hp)
  | named h hr => exact .named hat h (names_of_reaches hr).1
  | read h hr => exact .read hat h (names_of_reaches hr).1

theorem waitsFor_of_needs (hd : DistinctNames stages)
    (hu : (Table.keys (claims Action.outputs 0 stages)).Nodup) {id id' : ActionId} {action : Action}
    (hat : At stages id stage action) (h : Needs stages id id') (hle : id'.stage ≤ id.stage) :
    ((registered stages).context id.stage stage).WaitsFor action id' := by
  cases h with
  | artifact h hp =>
      obtain ⟨_, _, hat', hx⟩ := h
      obtain ⟨rfl, rfl⟩ := hat.unique hat'
      exact .input hx ((get?_eq_some_iff hu).mpr hp)
  | named hat' h hn =>
      obtain ⟨rfl, rfl⟩ := hat.unique hat'
      exact .named h ((reaches_iff hd).mpr ⟨hn, hle⟩)
  | read hat' h hn =>
      obtain ⟨rfl, rfl⟩ := hat.unique hat'
      exact .read h ((reaches_iff hd).mpr ⟨hn, hle⟩)

/-! ## Linked stages -/

theorem Links.after_iff {r : Registered} {l : LinkedStage} (h : r.Links (stage, s) l) {i j : Nat} :
    l.After i j ↔ ∃ action, stage.actions[i]? = some action ∧ (r.context s stage).WaitsFor action ⟨s, j⟩ := by
  rw [LinkedStage.After, LinkedStage.afterAt]
  constructor
  · intro hj
    cases hl : l.actions[i]? with
    | none =>
        rw [hl] at hj
        cases hj
    | some linked =>
        obtain ⟨action, ha, hlink⟩ := Outcome.exists_left h.actions hl
        rw [hl] at hj
        exact ⟨action, ha, (hlink.after j).mp hj⟩
  · rintro ⟨action, ha, hw⟩
    obtain ⟨linked, hl, hlink⟩ := Outcome.exists_right h.actions ha
    rw [hl]
    exact (hlink.after j).mpr hw

theorem Links.needs {l : LinkedStage} (h : (registered stages).Links (stage, s) l)
    (hs : stages[s]? = some stage) {i j : Nat} (hj : l.After i j) : NeedsBeside stages ⟨s, i⟩ ⟨s, j⟩ := by
  obtain ⟨action, ha, hw⟩ := h.after_iff.mp hj
  exact ⟨needs_of_waitsFor ⟨hs, ha⟩ hw, rfl⟩

theorem Links.after_of_needs {l : LinkedStage} (h : (registered stages).Links (stage, s) l)
    (hd : DistinctNames stages) (hu : (Table.keys (claims Action.outputs 0 stages)).Nodup)
    (hs : stages[s]? = some stage) {i : Nat} {id : ActionId} (hn : NeedsBeside stages ⟨s, i⟩ id) :
    l.After i id.index := by
  obtain ⟨hn, hstage⟩ := hn
  obtain ⟨stage', action, hat⟩ := hn.exists_at.1
  obtain rfl := Option.some.inj (hs.symm.trans hat.hs)
  obtain ⟨s', j⟩ := id
  obtain rfl : s' = s := hstage
  exact h.after_iff.mpr ⟨action, hat.ha, waitsFor_of_needs hd hu hat hn (Nat.le_refl _)⟩

theorem Links.closed {l : LinkedStage} (h : (registered stages).Links (stage, s) l)
    (hs : stages[s]? = some stage) : l.Closed := by
  intro i j hj
  obtain ⟨stage', action, hat⟩ := (h.needs hs hj).1.exists_at.2
  obtain rfl := Option.some.inj (hs.symm.trans hat.hs)
  rw [← h.actions.length_eq]
  exact (List.getElem?_eq_some_iff.mp hat.ha).1

/-- Positions of a linked stage run after themselves if and only if they need themselves. -/
theorem Links.transGen_iff {l : LinkedStage} (h : (registered stages).Links (stage, s) l)
    (hd : DistinctNames stages) (hu : (Table.keys (claims Action.outputs 0 stages)).Nodup)
    (hs : stages[s]? = some stage) {i : Nat} :
    Relation.TransGen l.After i i ↔ Relation.TransGen (NeedsBeside stages) ⟨s, i⟩ ⟨s, i⟩ := by
  constructor
  · exact Relation.TransGen.lift (ActionId.mk s) (fun _ _ hj => h.needs hs hj) i i
  · -- nothing says beforehand that the actions in between are in the stage
    have hlift : ∀ {id}, Relation.TransGen (NeedsBeside stages) ⟨s, i⟩ id →
        id.stage = s ∧ Relation.TransGen l.After i id.index := by
      intro id ht
      induction ht with
      | single hn => exact ⟨hn.2, .single (h.after_of_needs hd hu hs hn)⟩
      | @tail mid id _ hn ih =>
          obtain ⟨rfl, hmid⟩ := ih
          exact ⟨hn.2, hmid.tail (h.after_of_needs hd hu hs hn)⟩
    exact fun ht => (hlift ht).2

theorem Links.floorAt_eq {r : Registered} {linked : LinkedStage} (h : r.Links (stage, s) linked) {i : Nat}
    {action : Action} (ha : stage.actions[i]? = some action) : linked.floorAt i = action.runOrder.getD 1 := by
  obtain ⟨la, hla, hlink⟩ := Outcome.exists_right h.actions ha
  rw [LinkedStage.floorAt, hla, Option.bind_some, hlink.same]

theorem Links.leastAt_eq {r : Registered} {linked : LinkedStage} (h : r.Links (stage, s) linked) {i : Nat}
    {action : Action} (ha : stage.actions[i]? = some action) : linked.leastAt i = action.leastOrder := by
  rw [LinkedStage.leastAt, h.floorAt_eq ha, Action.leastOrder]

theorem Links.steps {l : LinkedStage} (h : (registered stages).Links (stage, s) l) (hs : stages[s]? = some stage)
    {i n k : Nat} (hsteps : Steps l.After i n k) : Steps (NeedsBeside stages) ⟨s, i⟩ n ⟨s, k⟩ := by
  induction hsteps with
  | nil i => exact .nil _
  | cons hj _ ih => exact .cons (h.needs hs hj) ih

theorem Links.steps_of_needs {l : LinkedStage} (h : (registered stages).Links (stage, s) l)
    (hd : DistinctNames stages) (hu : (Table.keys (claims Action.outputs 0 stages)).Nodup)
    (hs : stages[s]? = some stage) {id id' : ActionId} {n : Nat} (hsteps : Steps (NeedsBeside stages) id n id')
    (hid : id.stage = s) : Steps l.After id.index n id'.index := by
  induction hsteps with
  | nil => exact .nil _
  | @cons id _ _ _ hn _ ih =>
      obtain ⟨_, i⟩ := id
      obtain rfl : _ = s := hid
      exact .cons (h.after_of_needs hd hu hs hn) (ih hn.2)

/-- Where the chains of actions fit, those of positions do. -/
theorem Links.fits {l : LinkedStage} (h : (registered stages).Links (stage, s) l) (hs : stages[s]? = some stage)
    (hfit : ChainsFit stages) : l.Fits := by
  intro i n k hsteps hn
  rcases Nat.lt_or_ge k l.actions.length with hk | hk
  · obtain ⟨action, ha, _⟩ := Outcome.exists_left h.actions (List.getElem?_eq_getElem hk)
    rw [h.leastAt_eq ha]
    exact hfit _ _ _ (h.steps hs hsteps) _ _ ⟨hs, ha⟩
  · -- no action stands at the end of the chain, so it has no step
    cases hsteps with
    | nil => rw [LinkedStage.leastAt_of_le hk]; decide
    | cons hj hrest => exact absurd (LinkedStage.lt_of_steps (h.closed hs) hrest (h.closed hs hj)) (Nat.not_lt.mpr hk)

end Registered

/-! ## All steps -/

/-- All claims are granted: artifacts and namespaces are claimed once, and inputs are produced in time. -/
structure Granted (stages : List Stage) : Prop where
  outputs : (Table.keys (claims Action.outputs 0 stages)).Nodup
  inputs : ∀ id x, Claims Action.inputs stages id x →
    ∃ id', Claims Action.outputs stages id' x ∧ id'.stage ≤ id.stage
  namespaces : (Table.keys (claims Registered.asked 0 stages)).Nodup

/-- Stages as they are linked. -/
def LinksTo (stages : List Stage) (l : Linked) : Prop :=
  List.Forall₂ (registered stages).Links stages.zipIdx l.stages

/-- What stages that are linked went through. -/
theorem linked_of_link {stages : List Stage} {r : Registered} (hr : register stages = .ok r)
    {compiler compiler' : Fragment.Compiler} {l : Linked} (hl : r.link compiler = .ok (l, compiler')) :
    Granted stages ∧ ∃ ns, Registered.declareNamespaces stages = .ok ns ∧
      (registered stages).linkStages 0 stages ns compiler = .ok (l.stages, l.namespaces, compiler') := by
  obtain ⟨ps, hps, he⟩ := Outcome.bind_eq_ok.mp hr
  obtain rfl := Except.ok.inj he
  obtain ⟨rfl, hu, hin⟩ := Producers.ofStages_eq_ok.mp hps
  obtain ⟨ns, hns, hl⟩ := Outcome.bind_eq_ok.mp hl
  obtain ⟨⟨linked, ns₁, c⟩, hlinked, he⟩ := Outcome.bind_eq_ok.mp hl
  obtain ⟨rfl, rfl⟩ := Prod.mk.inj (Except.ok.inj he)
  exact ⟨⟨hu, hin, Registered.declareNamespaces_eq_ok.mp ⟨ns, hns⟩⟩, ns, hns, hlinked⟩

/-- What stages that are built went through. -/
theorem linked_of_build {stages : List Stage} {compiler : Fragment.Compiler} {ordered : List OrderedStage}
    (h : build stages compiler = .ok ordered) :
    Granted stages ∧ ∃ (ns : Namespaces) (l : Linked) (compiler' : Fragment.Compiler),
      Registered.declareNamespaces stages = .ok ns ∧
      (registered stages).linkStages 0 stages ns compiler = .ok (l.stages, l.namespaces, compiler') ∧
      l.order = .ok ordered := by
  obtain ⟨r, hr, h⟩ := Outcome.bind_eq_ok.mp h
  obtain ⟨⟨l, c⟩, hl, ho⟩ := Outcome.bind_eq_ok.mp h
  obtain ⟨hg, ns, hns, hlinked⟩ := linked_of_link hr hl
  exact ⟨hg, ns, l, c, hns, hlinked, ho⟩

theorem linksTo_of_build {stages : List Stage} {compiler : Fragment.Compiler} {ordered : List OrderedStage}
    (h : build stages compiler = .ok ordered) :
    Granted stages ∧ ∃ l, LinksTo stages l ∧ l.order = .ok ordered := by
  obtain ⟨hg, _, l, _, _, hl, ho⟩ := linked_of_build h
  exact ⟨hg, l, Registered.links_of_linkStages hl, ho⟩

theorem exists_linksTo {stages : List Stage} (hg : Granted stages)
    (hres : ∀ id stage action, At stages id stage action →
      ((registered stages).context id.stage stage).Resolved action) (compiler : Fragment.Compiler) :
    ∃ l, LinksTo stages l ∧ build stages compiler = l.order := by
  have hreg : register stages = .ok (registered stages) :=
    Outcome.bind_eq_ok.mpr ⟨_, Producers.ofStages_eq_ok.mpr ⟨rfl, hg.outputs, hg.inputs⟩, rfl⟩
  obtain ⟨ns, hd⟩ := Registered.declareNamespaces_eq_ok.mpr hg.namespaces
  have hall : ∀ stage s, (stage, s) ∈ stages.zipIdx →
      ∀ action ∈ stage.actions, ((registered stages).context s stage).Resolved action := by
    intro stage s hm action ha
    obtain ⟨i, hi⟩ := List.getElem?_of_mem ha
    exact hres ⟨s, i⟩ stage action ⟨List.mk_mem_zipIdx_iff_getElem?.mp hm, hi⟩
  obtain ⟨⟨linked, ns₁, c₁⟩, hl⟩ := Registered.linkStages_ok hall ns compiler
  have hlink : (registered stages).link compiler = .ok (⟨linked, ns₁⟩, c₁) :=
    Outcome.bind_eq_ok.mpr ⟨ns, hd, Outcome.bind_eq_ok.mpr ⟨_, hl, rfl⟩⟩
  refine ⟨⟨linked, ns₁⟩, Registered.links_of_linkStages hl, ?_⟩
  rw [build, hreg, Outcome.ok_bind, hlink, Outcome.ok_bind]

theorem LinksTo.exists_linked {stages : List Stage} {l : Linked} (h : LinksTo stages l) {s : Nat}
    {stage : Stage} (hs : stages[s]? = some stage) :
    ∃ linked, l.stages[s]? = some linked ∧ (registered stages).Links (stage, s) linked := by
  exact Outcome.exists_right h (Outcome.getElem?_zipIdx_of hs)

theorem LinksTo.exists_stage {stages : List Stage} {l : Linked} (h : LinksTo stages l) {s : Nat}
    {linked : LinkedStage} (hl : l.stages[s]? = some linked) :
    ∃ stage, stages[s]? = some stage ∧ (registered stages).Links (stage, s) linked := by
  obtain ⟨⟨stage, s'⟩, hz, hlinks⟩ := Outcome.exists_left h hl
  rw [List.getElem?_zipIdx, Option.map_eq_some_iff] at hz
  obtain ⟨stage', hs, he⟩ := hz
  obtain ⟨rfl, rfl⟩ := Prod.mk.inj he
  rw [Nat.zero_add] at hlinks
  exact ⟨stage', hs, hlinks⟩

theorem Linked.order_eq_ok_iff {l : Linked} :
    (∃ ordered, l.order = .ok ordered) ↔ ∀ stage ∈ l.stages, ∃ orders, stage.runOrders = .ok orders := by
  constructor
  · rintro ⟨ordered, h⟩ stage hm
    obtain ⟨s, hs⟩ := List.getElem?_of_mem hm
    obtain ⟨_, _, ho⟩ := Outcome.exists_right (Outcome.mapM_eq_ok.mp h) (Outcome.getElem?_zipIdx_of hs)
    obtain ⟨orders, hr, _⟩ := Outcome.bind_eq_ok.mp ho
    exact ⟨orders, hr⟩
  · intro h
    refine Outcome.mapM_ok fun a ha => ?_
    obtain ⟨orders, hr⟩ := h a.1 (List.fst_mem_of_mem_zipIdx ha)
    exact ⟨_, Outcome.bind_eq_ok.mpr ⟨orders, hr, rfl⟩⟩

theorem Linked.fails_of_order {l : Linked} (hc : ∀ stage ∈ l.stages, stage.Closed) {e : Error}
    (h : l.order = .error e) : ∃ stage ∈ l.stages, stage.Fails e := by
  obtain ⟨⟨stage, s⟩, hm, h⟩ := Outcome.exists_of_mapM_eq_error h
  have hs := List.fst_mem_of_mem_zipIdx hm
  rcases Outcome.bind_eq_error.mp h with h | ⟨_, _, h⟩
  · exact ⟨stage, hs, LinkedStage.fails_of_runOrders (hc stage hs) h⟩
  · cases h

theorem LinksTo.closed {stages : List Stage} {l : Linked} (h : LinksTo stages l) :
    ∀ stage ∈ l.stages, stage.Closed := by
  intro linked hm
  obtain ⟨s, hs⟩ := List.getElem?_of_mem hm
  obtain ⟨stage, hstage, hlinks⟩ := h.exists_stage hs
  exact hlinks.closed hstage

/-! ## Which pipelines are built -/

section
variable {stages : List Stage}

theorem nodup_outputs (hd : DistinctNames stages) :
    ∀ stage ∈ stages, ∀ action ∈ stage.actions, action.outputs.Nodup :=
  fun stage hs => (hd.stages stage hs).outputs

theorem nodup_asked (action : Action) : (Registered.asked action).Nodup := by
  rw [Registered.asked]
  cases action.ownNamespace with
  | none => exact List.nodup_nil
  | some name => exact List.nodup_singleton name

theorem WellFormed.granted (h : WellFormed stages) (hd : DistinctNames stages) : Granted stages where
  outputs := (nodup_keys_claims (nodup_outputs hd)).mpr h.outputs
  inputs := h.inputs
  namespaces := (nodup_keys_claims fun _ _ action _ => nodup_asked action).mpr h.namespaces

theorem wellFormed_of_build (hd : DistinctNames stages) {compiler : Fragment.Compiler}
    {ordered : List OrderedStage} (h : build stages compiler = .ok ordered) : WellFormed stages := by
  obtain ⟨hg, l, hl, ho⟩ := linksTo_of_build h
  have hres : ∀ {id stage action}, At stages id stage action →
      ((registered stages).context id.stage stage).Resolved action := by
    intro id stage action hat
    obtain ⟨linked, _, hlinks⟩ := hl.exists_linked hat.hs
    obtain ⟨_, _, hlink⟩ := Outcome.exists_right hlinks.actions hat.ha
    exact hlink.resolved
  refine ⟨fun x id id' => claims_unique hg.outputs, hg.inputs, fun x id id' => claims_unique hg.namespaces,
    fun id stage action hat name hn => ?_, fun id stage action hat v hv => ?_, fun id ht => ?_⟩
  · obtain ⟨id', hr⟩ := (hres hat).named name hn
    exact ⟨id', Registered.names_of_reaches hr⟩
  · obtain ⟨id', hr⟩ := (hres hat).read v hv
    exact ⟨id', Registered.names_of_reaches hr⟩
  · obtain ⟨mid, hfirst, _⟩ := Relation.TransGen.head'_iff.mp ht
    obtain ⟨stage, action, hat⟩ := hfirst.1.exists_at.1
    obtain ⟨linked, hs, hlinks⟩ := hl.exists_linked hat.hs
    have hrun := Linked.order_eq_ok_iff.mp ⟨ordered, ho⟩ linked (List.mem_of_getElem? hs)
    exact ((LinkedStage.runOrders_eq_ok_iff (hlinks.closed hat.hs)).mp hrun).1 id.index
      ((hlinks.transGen_iff hd hg.outputs hat.hs).mpr ht)

theorem chainsFit_of_build (hd : DistinctNames stages) {compiler : Fragment.Compiler}
    {ordered : List OrderedStage} (h : build stages compiler = .ok ordered) : ChainsFit stages := by
  obtain ⟨hg, l, hl, ho⟩ := linksTo_of_build h
  intro id n id' hsteps stage action hat
  obtain ⟨linked, hs, hlinks⟩ := hl.exists_linked hat.hs
  obtain ⟨orders, hrun⟩ := Linked.order_eq_ok_iff.mp ⟨ordered, ho⟩ linked (List.mem_of_getElem? hs)
  obtain ⟨hf, hall⟩ := LinkedStage.filled_of_runOrders (hlinks.closed hat.hs) hrun
  rw [← hlinks.leastAt_eq hat.ha]
  exact hf.lt_size_of_steps hall (hlinks.steps_of_needs hd hg.outputs hat.hs hsteps (stage_eq_of_steps hsteps).symm)

/-- Well-formed stages are linked, and none of their positions runs after itself. -/
theorem WellFormed.exists_linksTo (h : WellFormed stages) (hd : DistinctNames stages) (compiler : Fragment.Compiler) :
    ∃ l, LinksTo stages l ∧ build stages compiler = l.order ∧
      ∀ stage ∈ l.stages, ∀ i, ¬ Relation.TransGen stage.After i i := by
  have hg := h.granted hd
  have hres : ∀ id stage action, At stages id stage action →
      ((registered stages).context id.stage stage).Resolved action := by
    intro id stage action hat
    refine ⟨fun name hn => ?_, fun v hv => ?_⟩
    · obtain ⟨id', hname, hle⟩ := h.named id stage action hat name hn
      exact ⟨id', (Registered.reaches_iff hd).mpr ⟨hname, hle⟩⟩
    · obtain ⟨id', hname, hle⟩ := h.read id stage action hat v hv
      exact ⟨id', (Registered.reaches_iff hd).mpr ⟨hname, hle⟩⟩
  obtain ⟨l, hl, hbuild⟩ := Pipeline.exists_linksTo hg hres compiler
  refine ⟨l, hl, hbuild, fun linked hm i ht => ?_⟩
  obtain ⟨s, hs⟩ := List.getElem?_of_mem hm
  obtain ⟨stage, hstage, hlinks⟩ := hl.exists_stage hs
  exact h.acyclic ⟨s, i⟩ ((hlinks.transGen_iff hd hg.outputs hstage).mp ht)

theorem build_ok_of_wellFormed (hd : DistinctNames stages) (h : WellFormed stages) (hfit : ChainsFit stages)
    (compiler : Fragment.Compiler) : ∃ ordered, build stages compiler = .ok ordered := by
  obtain ⟨l, hl, hbuild, ha⟩ := h.exists_linksTo hd compiler
  rw [hbuild]
  refine Linked.order_eq_ok_iff.mpr fun linked hm => ?_
  obtain ⟨s, hs⟩ := List.getElem?_of_mem hm
  obtain ⟨stage, hstage, hlinks⟩ := hl.exists_stage hs
  exact (LinkedStage.runOrders_eq_ok_iff (hlinks.closed hstage)).mpr ⟨ha linked hm, hlinks.fits hstage hfit⟩

theorem build_overflow_of_wellFormed (hd : DistinctNames stages) (h : WellFormed stages) (hfit : ¬ ChainsFit stages)
    (compiler : Fragment.Compiler) : build stages compiler = .error .overflow := by
  obtain ⟨l, hl, hbuild, ha⟩ := h.exists_linksTo hd compiler
  cases ho : l.order with
  | ok ordered => exact absurd (chainsFit_of_build hd (hbuild.trans ho)) hfit
  | error e =>
      obtain ⟨stage, hm, hfails⟩ := Linked.fails_of_order hl.closed ho
      obtain ⟨rfl, _⟩ := hfails.of_acyclic (ha stage hm)
      exact hbuild.trans ho

end

/-- Stages that were read are built if and only if they make a well-formed pipeline in which no chain of actions asks
for more than the largest run order. A well-formed pipeline that is not built overflows. -/
theorem build_eq_ok_iff_wellFormed {context : String} {compiler compiler' : Fragment.Compiler}
    {nodes : List Node} (hw : Node.AllWellFormed nodes) {stages : List Stage}
    (h : Stage.readAll context compiler nodes = .ok (stages, compiler')) (c : Fragment.Compiler) :
    ((∃ ordered, build stages c = .ok ordered) ↔ WellFormed stages ∧ ChainsFit stages) ∧
      (WellFormed stages → ¬ ChainsFit stages → build stages c = .error .overflow) := by
  have hd := Stage.distinctNames_of_readAll hw h
  refine ⟨⟨?_, ?_⟩, ?_⟩
  · rintro ⟨ordered, hb⟩
    exact ⟨wellFormed_of_build hd hb, chainsFit_of_build hd hb⟩
  · rintro ⟨hwf, hfit⟩
    exact build_ok_of_wellFormed hd hwf hfit c
  · intro hwf hfit
    exact build_overflow_of_wellFormed hd hwf hfit c

/-- A stage with two actions. The first takes an artifact of the second, depends on it by name and reads a
variable of it. -/
def twoActions : List Node :=
  [.map [("Name", .text "S"), ("Actions", .map
    [("B", .map [("Type", .text "Build"), ("Project", .text "p"), ("InputArtifacts", .text "x"),
      ("DependsOn", .text "A"), ("Configuration", .map [("V", .text "#\x7bS:A.F\x7d")])]),
     ("A", .map [("Type", .text "S3Source"), ("Bucket", .text "b"), ("Key", .text "k"),
      ("OutputArtifacts", .text "x")])])]]

def buildAction : Action where
  name := "B"
  kind := .build
  type := ⟨"Build", "AWS", "CodeBuild", "1"⟩
  inputs := ["x"]
  outputs := []
  dependsOn := [⟨none, "A"⟩]
  ownNamespace := none
  runOrder := none
  condition := none
  configuration := [("V", .text "#\x7bS:A.F\x7d"), ("ProjectName", .text "p")]
  overrides := none
  extra := []

def sourceAction : Action where
  name := "A"
  kind := .s3Source
  type := ⟨"Source", "AWS", "S3", "1"⟩
  inputs := []
  outputs := ["x"]
  dependsOn := []
  ownNamespace := none
  runOrder := none
  condition := none
  configuration :=
    [("S3Bucket", .text "b"), ("S3ObjectKey", .text "k"), ("PollForSourceChanges", .bool false)]
  overrides := none
  extra := []

/-- The stage as it is read. -/
def twoActionsRead : List Stage := [⟨"S", none, [buildAction, sourceAction], []⟩]

theorem wellFormed_twoActions : Stage.readAll "pipeline 'P'" {} twoActions = .ok (twoActionsRead, {}) ∧
    WellFormed twoActionsRead ∧ ChainsFit twoActionsRead := by
  have hr : Stage.readAll "pipeline 'P'" {} twoActions = .ok (twoActionsRead, {}) := rfl
  have hw : Node.AllWellFormed twoActions := by
    simp [twoActions, Node.AllWellFormed, Node.WellFormed, Node.EntriesWellFormed, Table.Distinct, Table.keys]
  have hb : ∃ ordered, build twoActionsRead {} = .ok ordered :=
    Outcome.exists_of_isOk (by decide +kernel)
  exact ⟨hr, (build_eq_ok_iff_wellFormed hw hr {}).1.mp hb⟩

/-- A stage in which one action asks for the largest run order, and another runs after it. -/
def largestFirst : List Node :=
  [.map [("Name", .text "S"), ("Actions", .map
    [("A", .map [("Type", .text "Build"), ("Project", .text "p"), ("RunOrder", .whole 18446744073709551615)]),
     ("B", .map [("Type", .text "Build"), ("Project", .text "p"), ("DependsOn", .text "A")])])]]

/-- An action of it, as it is read. -/
def largestAction (name : String) (dependsOn : List DependencyName) (runOrder : Option UInt64) : Action where
  name := name
  kind := .build
  type := ⟨"Build", "AWS", "CodeBuild", "1"⟩
  inputs := []
  outputs := []
  dependsOn := dependsOn
  ownNamespace := none
  runOrder := runOrder
  condition := none
  configuration := [("ProjectName", .text "p")]
  overrides := none
  extra := []

def largestFirstRead : List Stage :=
  [⟨"S", none,
    [largestAction "A" [] (some 18446744073709551615), largestAction "B" [⟨none, "A"⟩] none], []⟩]

theorem at_largestFirst {id : ActionId} {stage : Stage} {action : Action} (h : At largestFirstRead id stage action) :
    stage.name = "S" ∧ (id = ⟨0, 0⟩ ∧ action = largestAction "A" [] (some 18446744073709551615) ∨
      id = ⟨0, 1⟩ ∧ action = largestAction "B" [⟨none, "A"⟩] none) := by
  obtain ⟨s, i⟩ := id
  obtain ⟨hs, ha⟩ := h
  match s, i with
  | 0, 0 => obtain rfl := Option.some.inj hs; exact ⟨rfl, .inl ⟨rfl, (Option.some.inj ha).symm⟩⟩
  | 0, 1 => obtain rfl := Option.some.inj hs; exact ⟨rfl, .inr ⟨rfl, (Option.some.inj ha).symm⟩⟩
  | 0, _ + 2 => obtain rfl := Option.some.inj hs; cases ha
  | _ + 1, _ => cases hs

theorem needsBeside_largestFirst {id id' : ActionId} (h : NeedsBeside largestFirstRead id id') :
    id = ⟨0, 1⟩ ∧ id' = ⟨0, 0⟩ := by
  cases h.1 with
  | artifact hclaim =>
      obtain ⟨_, _, hat, hx⟩ := hclaim
      obtain ⟨-, ⟨-, rfl⟩ | ⟨-, rfl⟩⟩ := at_largestFirst hat <;> cases hx
  | read hat hv =>
      obtain ⟨-, ⟨-, rfl⟩ | ⟨-, rfl⟩⟩ := at_largestFirst hat <;> cases hv
  | named hat hname hn =>
      obtain ⟨hstage, ⟨-, rfl⟩ | ⟨rfl, rfl⟩⟩ := at_largestFirst hat
      · cases hname
      · obtain rfl := List.mem_singleton.mp hname
        obtain ⟨_, _, hat', -, ha⟩ := hn
        obtain ⟨-, ⟨rfl, rfl⟩ | ⟨rfl, rfl⟩⟩ := at_largestFirst hat'
        · exact ⟨rfl, rfl⟩
        · exact absurd ha (by decide : "B" ≠ "A")

theorem wellFormed_largestFirst : WellFormed largestFirstRead := by
  constructor
  -- neither action claims anything
  case outputs | namespaces =>
    rintro x id id' ⟨_, _, hat, hx⟩
    obtain ⟨-, ⟨-, rfl⟩ | ⟨-, rfl⟩⟩ := at_largestFirst hat <;> cases hx
  case inputs =>
    rintro id x ⟨_, _, hat, hx⟩
    obtain ⟨-, ⟨-, rfl⟩ | ⟨-, rfl⟩⟩ := at_largestFirst hat <;> cases hx
  case named =>
    intro id stage action hat name hname
    obtain ⟨hstage, ⟨-, rfl⟩ | ⟨rfl, rfl⟩⟩ := at_largestFirst hat
    · cases hname
    · obtain rfl := List.mem_singleton.mp hname
      exact ⟨⟨0, 0⟩, ⟨_, _, ⟨rfl, rfl⟩, hstage.symm, rfl⟩, Nat.le_refl 0⟩
  case read =>
    intro id stage action hat v hv
    obtain ⟨-, ⟨-, rfl⟩ | ⟨-, rfl⟩⟩ := at_largestFirst hat <;> cases hv
  case acyclic =>
    refine not_transGen_self (f := ActionId.index) fun id id' h => ?_
    obtain ⟨rfl, rfl⟩ := needsBeside_largestFirst h
    exact Nat.zero_lt_one

/-- It is well-formed, and it is not built. -/
theorem overflow_largestFirst :
    Stage.readAll "pipeline 'P'" {} largestFirst = .ok (largestFirstRead, {}) ∧ WellFormed largestFirstRead ∧
      build largestFirstRead {} = .error .overflow :=
  ⟨by rfl, wellFormed_largestFirst, by rfl⟩

end Shorthand.Pipeline
