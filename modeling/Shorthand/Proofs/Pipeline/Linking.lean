import Shorthand.Proofs.Pipeline.Register
import Shorthand.Proofs.Pipeline.Variable

/-!
# Linked actions

Linking resolves every dependency and every variable of an action. What it leaves for the order is which
actions of the same stage an action waits for.
-/
namespace Shorthand.Pipeline

/-! ## The index of all actions -/

/-- The action at this position has these names. -/
def Names (stages : List Stage) (stageName actionName : String) (id : ActionId) : Prop :=
  ∃ stage action, At stages id stage action ∧ stage.name = stageName ∧ action.name = actionName

theorem Names.exists_at {stages : List Stage} {stageName actionName : String} {id : ActionId}
    (h : Names stages stageName actionName id) : ∃ stage action, At stages id stage action := by
  obtain ⟨stage, action, hat, _⟩ := h
  exact ⟨stage, action, hat⟩

theorem mem_actionIndex {stages : List Stage} {stageName actionName : String} {id : ActionId} :
    ((stageName, actionName), id) ∈ actionIndex stages ↔ Names stages stageName actionName id := by
  simp only [actionIndex, List.mem_flatMap, List.mem_map, Prod.exists, List.mk_mem_zipIdx_iff_getElem?,
    Prod.mk.injEq]
  constructor
  · rintro ⟨stage, s, hs, action, i, ha, ⟨rfl, rfl⟩, rfl⟩
    exact ⟨stage, action, ⟨hs, ha⟩, rfl, rfl⟩
  · rintro ⟨stage, action, hat, rfl, rfl⟩
    exact ⟨stage, id.stage, hat.hs, action, id.index, hat.ha, ⟨rfl, rfl⟩, rfl⟩

theorem names_of_get? {stages : List Stage} {stageName actionName : String} {id : ActionId}
    (h : Table.get? (actionIndex stages) (stageName, actionName) = some id) :
    Names stages stageName actionName id :=
  mem_actionIndex.mp (Table.mem_of_get? h)

theorem exists_get?_of_names {stages : List Stage} {stageName actionName : String} {id : ActionId}
    (h : Names stages stageName actionName id) :
    ∃ id', Table.get? (actionIndex stages) (stageName, actionName) = some id' := by
  have hk : (stageName, actionName) ∈ Table.keys (actionIndex stages) :=
    List.mem_map_of_mem (f := Prod.fst) (mem_actionIndex.mpr h)
  exact Table.exists_get?_of_mem_keys hk

/-! ## What an action waits for -/

/-- The name of the action that a variable is read from. -/
def StageVariable.source (v : StageVariable) : DependencyName := ⟨some v.stage, v.action⟩

namespace LinkContext
variable {k : LinkContext}

/-- A name stands for the action at this position, and that is not in a later stage. -/
structure Reaches (k : LinkContext) (name : DependencyName) (id : ActionId) : Prop where
  get? : Table.get? k.index (name.stage.getD k.stageName, name.action) = some id
  le : id.stage ≤ k.stage

theorem target_eq_ok {context : String} {name : DependencyName} {id : ActionId} :
    k.target context name = .ok id ↔ k.Reaches name id := by
  rw [target]
  constructor
  · intro h
    split at h
    · cases h
    · rename_i hg
      split at h
      · cases h
      · rename_i hle
        obtain rfl := Except.ok.inj h
        exact ⟨hg, Nat.not_lt.mp hle⟩
  · intro h
    rw [h.get?]
    exact if_neg (Nat.not_lt.mpr h.le)

theorem Reaches.iff {name : DependencyName} {id id' : ActionId} (h : k.Reaches name id) :
    k.Reaches name id' ↔ id = id' := by
  constructor
  · intro h'
    exact Option.some.inj (h.get?.symm.trans h'.get?)
  · rintro rfl
    exact h

/-- The actions that an action waits for, in whatever stage. -/
inductive WaitsFor (k : LinkContext) (action : Action) (id : ActionId) : Prop
  | input {x : String} (h : x ∈ action.inputs) (hp : Table.get? k.producers x = some id)
  | named {name : DependencyName} (h : name ∈ action.dependsOn) (hr : k.Reaches name id)
  | read {v : StageVariable} (h : v ∈ action.variables) (hr : k.Reaches v.source id)

/-- All names and variables of an action stand for something. -/
structure Resolved (k : LinkContext) (action : Action) : Prop where
  named : ∀ name ∈ action.dependsOn, ∃ id, k.Reaches name id
  read : ∀ v ∈ action.variables, ∃ id, k.Reaches v.source id

/-- A linked action is as it was declared, but for its configuration, and runs after the actions of its
stage that it waits for. -/
structure Links (k : LinkContext) (action : Action) (linked : LinkedAction) : Prop where
  same : linked.action = { action with configuration := linked.action.configuration, overrides := none }
  after : ∀ j, j ∈ linked.after ↔ k.WaitsFor action ⟨k.stage, j⟩
  resolved : k.Resolved action

/-! ## One action -/

theorem mem_addAfter {id : ActionId} {after : List Nat} {j : Nat} :
    j ∈ k.addAfter id after ↔ j ∈ after ∨ id = ⟨k.stage, j⟩ := by
  obtain ⟨s, i⟩ := id
  rw [addAfter, ActionId.mk.injEq]
  split
  · rename_i h
    rw [List.mem_append, List.mem_singleton]
    exact or_congr_right ⟨fun he => ⟨h.1, he.symm⟩, fun he => he.2.symm⟩
  · rename_i h
    refine ⟨Or.inl, fun ho => ho.elim id ?_⟩
    rintro ⟨hs, rfl⟩
    by_contra hn
    exact h ⟨hs, hn⟩

theorem mem_addInputs {artifacts : List String} {after : List Nat} {j : Nat} :
    j ∈ k.addInputs artifacts after ↔
      j ∈ after ∨ ∃ x ∈ artifacts, Table.get? k.producers x = some ⟨k.stage, j⟩ := by
  rw [addInputs]
  induction artifacts generalizing after with
  | nil => simp
  | cons x artifacts ih =>
      rw [List.foldl_cons, ih, List.exists_mem_cons_iff, ← or_assoc]
      refine or_congr_left ?_
      cases Table.get? k.producers x with
      | none => simp
      | some id => rw [mem_addAfter, Option.some.injEq]

theorem of_addNames {context : String} {names : List DependencyName} {after after' : List Nat}
    (h : k.addNames context names after = .ok after') :
    (∀ name ∈ names, ∃ id, k.Reaches name id) ∧
      ∀ j, j ∈ after' ↔ j ∈ after ∨ ∃ name ∈ names, k.Reaches name ⟨k.stage, j⟩ := by
  induction names generalizing after with
  | nil =>
      obtain rfl := Except.ok.inj h
      simp
  | cons name names ih =>
      obtain ⟨id, ht, h⟩ := Outcome.bind_eq_ok.mp h
      have hr := target_eq_ok.mp ht
      obtain ⟨hall, hafter⟩ := ih h
      refine ⟨List.forall_mem_cons.mpr ⟨⟨id, hr⟩, hall⟩, fun j => ?_⟩
      rw [hafter, mem_addAfter, List.exists_mem_cons_iff, or_assoc, hr.iff]

theorem addNames_ok (context : String) {names : List DependencyName}
    (h : ∀ name ∈ names, ∃ id, k.Reaches name id) (after : List Nat) :
    ∃ after', k.addNames context names after = .ok after' := by
  induction names generalizing after with
  | nil => exact ⟨after, rfl⟩
  | cons name names ih =>
      obtain ⟨⟨id, hr⟩, hall⟩ := List.forall_mem_cons.mp h
      obtain ⟨after', h'⟩ := ih hall (k.addAfter id after)
      exact ⟨after', Outcome.bind_eq_ok.mpr ⟨id, target_eq_ok.mpr hr, h'⟩⟩

theorem of_visit {context name : String} {v : StageVariable} {s s' : LinkState}
    (h : k.visit context v s = (.ok name, s')) :
    ∃ id, k.Reaches v.source id ∧ s'.after = k.addAfter id s.after := by
  rw [visit] at h
  split at h
  · cases h
  · rename_i id ht
    obtain ⟨_, rfl⟩ := Prod.mk.inj h
    exact ⟨id, target_eq_ok.mp ht, rfl⟩

theorem of_runs_visit {context : String} {vs : List StageVariable} {s s' : LinkState}
    (h : StageVariable.Runs (k.visit context) vs s s') :
    (∀ v ∈ vs, ∃ id, k.Reaches v.source id) ∧
      ∀ j, j ∈ s'.after ↔ j ∈ s.after ∨ ∃ v ∈ vs, k.Reaches v.source ⟨k.stage, j⟩ := by
  induction h with
  | nil s => simp
  | @cons v vs s s₁ s₂ name hv _ ih =>
      obtain ⟨id, hr, hs⟩ := of_visit hv
      refine ⟨List.forall_mem_cons.mpr ⟨⟨id, hr⟩, ih.1⟩, fun j => ?_⟩
      rw [ih.2, hs, mem_addAfter, List.exists_mem_cons_iff, or_assoc, hr.iff]

theorem visit_ok {context : String} {v : StageVariable} {id : ActionId} (h : k.Reaches v.source id)
    (s : LinkState) : ∃ name s', k.visit context v s = (.ok name, s') := by
  have ht : k.target context ⟨some v.stage, v.action⟩ = .ok id := target_eq_ok.mpr h
  rw [visit, ht]
  exact ⟨_, _, rfl⟩

theorem waitsFor_iff {action : Action} {id : ActionId} :
    k.WaitsFor action id ↔ ((∃ x ∈ action.inputs, Table.get? k.producers x = some id) ∨
      ∃ name ∈ action.dependsOn, k.Reaches name id) ∨ ∃ v ∈ action.variables, k.Reaches v.source id := by
  constructor
  · intro h
    cases h with
    | input h hp => exact .inl (.inl ⟨_, h, hp⟩)
    | named h hr => exact .inl (.inr ⟨_, h, hr⟩)
    | read h hr => exact .inr ⟨_, h, hr⟩
  · rintro ((⟨_, h, hp⟩ | ⟨_, h, hr⟩) | ⟨_, h, hr⟩)
    · exact .input h hp
    · exact .named h hr
    · exact .read h hr

theorem links_of_linkAction {action : Action} {namespaces namespaces' : Namespaces}
    {compiler compiler' : Fragment.Compiler} {linked : LinkedAction}
    (h : k.linkAction action namespaces compiler = .ok (linked, namespaces', compiler')) :
    k.Links action linked := by
  obtain ⟨after, hnames, h⟩ := Outcome.bind_eq_ok.mp h
  obtain ⟨hnamed, hafter⟩ := of_addNames hnames
  obtain ⟨configuration, hc, h⟩ := Outcome.bind_eq_ok.mp h
  have hrun := (StageVariable.rewriteEntries_eq_ok _).mp ⟨_, Prod.ext hc rfl⟩
  split at h
  · rename_i ho
    obtain rfl := (Prod.mk.inj (Except.ok.inj h)).1
    have hv : action.variables = variablesIn (Node.textsOfEntries action.configuration) := by
      rw [Action.variables, ho, Option.elim_none, List.append_nil]
    obtain ⟨hread, hs⟩ := of_runs_visit hrun
    refine ⟨?_, fun j => ?_, ⟨hnamed, hv ▸ hread⟩⟩
    · rw [← ho]
    · rw [hs, hafter, mem_addInputs, waitsFor_iff, hv]
      simp
  · rename_i overrides ho
    obtain ⟨overrides', hov, h⟩ := Outcome.bind_eq_ok.mp h
    obtain rfl := (Prod.mk.inj (Except.ok.inj h)).1
    have hv : action.variables =
        variablesIn (Node.textsOfEntries action.configuration) ++ variablesIn overrides.texts := by
      rw [Action.variables, ho, Option.elim_some]
    -- the overrides are visited in the state that the configuration left: one run through both
    have hrun₂ := (StageVariable.rewriteNode_eq_ok overrides).mp ⟨_, Prod.ext hov rfl⟩
    obtain ⟨hread, hs⟩ := of_runs_visit (StageVariable.runs_append.mpr ⟨_, hrun, hrun₂⟩)
    rw [← hv] at hread hs
    refine ⟨rfl, fun j => ?_, ⟨hnamed, hread⟩⟩
    rw [hs, hafter, mem_addInputs, waitsFor_iff]
    simp

theorem linkAction_ok {action : Action} (h : k.Resolved action) (namespaces : Namespaces)
    (compiler : Fragment.Compiler) : ∃ out, k.linkAction action namespaces compiler = .ok out := by
  obtain ⟨after, hnames⟩ :=
    addNames_ok (placeName k.stageName action.name) h.named (k.addInputs action.inputs [])
  have hvisit : ∀ v ∈ action.variables, ∀ s,
      ∃ name s', k.visit (placeName k.stageName action.name) v s = (.ok name, s') := by
    intro v hv
    obtain ⟨id, hr⟩ := h.read v hv
    exact visit_ok hr
  obtain ⟨s', hrun⟩ := StageVariable.exists_runs hvisit ⟨after, namespaces⟩
  obtain ⟨s₁, hrun₁, hrun₂⟩ := StageVariable.runs_append.mp hrun
  obtain ⟨configuration, hc⟩ := (StageVariable.rewriteEntries_eq_ok action.configuration).mpr hrun₁
  simp only [linkAction, hnames, hc, Outcome.ok_bind]
  cases ho : action.overrides with
  | none => exact ⟨_, rfl⟩
  | some overrides =>
      rw [ho] at hrun₂
      obtain ⟨overrides', hov⟩ := (StageVariable.rewriteNode_eq_ok overrides).mpr hrun₂
      simp only [hov, Outcome.ok_bind]
      exact ⟨_, rfl⟩

/-! ## All actions -/

theorem links_of_linkActions {actions : List Action} {namespaces namespaces' : Namespaces}
    {compiler compiler' : Fragment.Compiler} {linked : List LinkedAction}
    (h : k.linkActions actions namespaces compiler = .ok (linked, namespaces', compiler')) :
    List.Forall₂ k.Links actions linked := by
  induction actions generalizing namespaces namespaces' compiler compiler' linked with
  | nil =>
      obtain rfl := (Prod.mk.inj (Except.ok.inj h)).1
      exact .nil
  | cons action actions ih =>
      obtain ⟨⟨first, ns₁, c₁⟩, h₁, h⟩ := Outcome.bind_eq_ok.mp h
      obtain ⟨⟨more, ns₂, c₂⟩, h₂, h⟩ := Outcome.bind_eq_ok.mp h
      obtain ⟨rfl, he⟩ := Prod.mk.inj (Except.ok.inj h)
      exact .cons (links_of_linkAction h₁) (ih h₂)

theorem linkActions_ok {actions : List Action} (h : ∀ action ∈ actions, k.Resolved action)
    (namespaces : Namespaces) (compiler : Fragment.Compiler) :
    ∃ out, k.linkActions actions namespaces compiler = .ok out := by
  induction actions generalizing namespaces compiler with
  | nil => exact ⟨_, rfl⟩
  | cons action actions ih =>
      obtain ⟨ha, hall⟩ := List.forall_mem_cons.mp h
      obtain ⟨⟨first, ns₁, c₁⟩, h₁⟩ := linkAction_ok ha namespaces compiler
      obtain ⟨⟨more, ns₂, c₂⟩, h₂⟩ := ih hall ns₁ c₁
      exact ⟨_, Outcome.bind_eq_ok.mpr ⟨_, h₁, Outcome.bind_eq_ok.mpr ⟨_, h₂, rfl⟩⟩⟩

end LinkContext

/-! ## All stages -/

namespace Registered

/-- What is known while the actions of the stage at this position are linked. -/
def context (r : Registered) (s : Nat) (stage : Stage) : LinkContext :=
  ⟨actionIndex r.stages, r.producers, s, stage.name⟩

/-- A linked stage has the linked actions of the stage, in order, and its other attributes. -/
structure Links (r : Registered) (declared : Stage × Nat) (linked : LinkedStage) : Prop where
  name : linked.name = declared.1.name
  extra : linked.extra = declared.1.extra
  actions : List.Forall₂ (r.context declared.2 declared.1).Links declared.1.actions linked.actions

theorem links_of_linkStages {r : Registered} {first : Nat} {stages : List Stage}
    {namespaces namespaces' : Namespaces} {compiler compiler' : Fragment.Compiler} {linked : List LinkedStage}
    (h : r.linkStages first stages namespaces compiler = .ok (linked, namespaces', compiler')) :
    List.Forall₂ r.Links (stages.zipIdx first) linked := by
  induction stages generalizing first namespaces namespaces' compiler compiler' linked with
  | nil =>
      obtain rfl := (Prod.mk.inj (Except.ok.inj h)).1
      exact .nil
  | cons stage stages ih =>
      obtain ⟨⟨actions, ns₁, c₁⟩, h₁, h⟩ := Outcome.bind_eq_ok.mp h
      obtain ⟨⟨more, ns₂, c₂⟩, h₂, h⟩ := Outcome.bind_eq_ok.mp h
      obtain ⟨rfl, he⟩ := Prod.mk.inj (Except.ok.inj h)
      exact .cons ⟨rfl, rfl, LinkContext.links_of_linkActions h₁⟩ (ih h₂)

theorem condition_of_linkStages {r : Registered} {first : Nat} {stages : List Stage}
    {namespaces namespaces' : Namespaces} {compiler compiler' : Fragment.Compiler} {linked : List LinkedStage}
    (h : r.linkStages first stages namespaces compiler = .ok (linked, namespaces', compiler')) :
    List.Forall₂ (fun stage (l : LinkedStage) => l.condition = stage.condition) stages linked := by
  induction stages generalizing first namespaces compiler linked with
  | nil =>
      obtain ⟨rfl, -⟩ := Prod.mk.inj (Except.ok.inj h)
      exact .nil
  | cons stage stages ih =>
      obtain ⟨⟨actions, ns₁, c₁⟩, _, h⟩ := Outcome.bind_eq_ok.mp h
      obtain ⟨⟨more, ns₂, c₂⟩, h₂, h⟩ := Outcome.bind_eq_ok.mp h
      obtain ⟨rfl, he⟩ := Prod.mk.inj (Except.ok.inj h)
      obtain ⟨rfl, rfl⟩ := Prod.mk.inj he
      exact .cons rfl (ih h₂)

theorem linkStages_ok {r : Registered} {first : Nat} {stages : List Stage}
    (h : ∀ stage s, (stage, s) ∈ stages.zipIdx first →
      ∀ action ∈ stage.actions, (r.context s stage).Resolved action)
    (namespaces : Namespaces) (compiler : Fragment.Compiler) :
    ∃ out, r.linkStages first stages namespaces compiler = .ok out := by
  induction stages generalizing first namespaces compiler with
  | nil => exact ⟨_, rfl⟩
  | cons stage stages ih =>
      obtain ⟨⟨actions, ns₁, c₁⟩, h₁⟩ :=
        LinkContext.linkActions_ok (h stage first List.mem_cons_self) namespaces compiler
      obtain ⟨⟨more, ns₂, c₂⟩, h₂⟩ :=
        ih (fun stage' s hm => h stage' s (List.mem_cons_of_mem _ hm)) ns₁ c₁
      exact ⟨_, Outcome.bind_eq_ok.mpr ⟨_, h₁, Outcome.bind_eq_ok.mpr ⟨_, h₂, rfl⟩⟩⟩

end Registered
end Shorthand.Pipeline
