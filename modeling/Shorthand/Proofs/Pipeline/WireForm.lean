import Shorthand.Pipeline.Emission
import Shorthand.Proofs.Pipeline.Stage

/-!
# Stages in wire form

An emitted stage can be read again. Dependencies by name are gone then, every run order and every namespace is asked
for, and a configuration is as it was but for the order of its keys and for overrides, which are taken out of it.
-/
namespace Shorthand.Pipeline

/-! ## Values -/

namespace Action

theorem collectArtifacts_named (context key : String) {seen names : List String} (hn : (seen ++ names).Nodup) :
    collectArtifacts context key seen (names.map fun name => .map [("Name", .text name)]) = .ok (seen ++ names) := by
  induction names generalizing seen with
  | nil => rw [List.append_nil]; rfl
  | cons name names ih =>
      have hnew : name ∉ seen := fun hm => (List.nodup_middle.mp hn).notMem (List.mem_append_left _ hm)
      have hsnoc : seen ++ name :: names = (seen ++ [name]) ++ names := by simp
      rw [List.map_cons, collectArtifacts, hsnoc]
      refine Outcome.bind_eq_ok.mpr ⟨name, rfl, ?_⟩
      rw [if_neg (by simpa using hnew)]
      exact ih (hsnoc ▸ hn)

theorem readArtifacts_named (context key : String) {names : List String} (hn : names.Nodup) :
    readArtifacts context key (if names.isEmpty then none else some (artifactNodes names)) = .ok names := by
  cases names with
  | nil => rfl
  | cons name names =>
      have hn : ([] ++ name :: names).Nodup := hn
      exact collectArtifacts_named context key hn

theorem readName_text (context key : String) {name : Option String} (h : name ≠ some "") :
    readName context key (name.map .text) = .ok name := by
  cases name with
  | none => rfl
  | some name => exact if_neg fun he => h (congrArg some he)

theorem readConfiguration_map (context : String) (t : Table Node) :
    readConfiguration context (if t.isEmpty then none else some (.map t)) = .ok t := by
  cases t <;> rfl

end Action

/-! ## Actions -/

namespace OrderedAction

/-- Whatever an emitted action may have, by its keys. -/
def slots (a : OrderedAction) : List (String × Option Node) :=
  ("Name", some (.text a.action.name)) ::
  ("ActionTypeId", some a.action.type.toNode) ::
  ("Configuration", if a.action.configuration.isEmpty then none else some (.map a.action.configuration)) ::
  ("InputArtifacts", if a.action.inputs.isEmpty then none else some (artifactNodes a.action.inputs)) ::
  ("OutputArtifacts", if a.action.outputs.isEmpty then none else some (artifactNodes a.action.outputs)) ::
  ("Namespace", a.namespaceName.map .text) ::
  ("RunOrder", some (.whole a.runOrder.toNat)) ::
  Action.ownKeys.map fun key => (key, Table.get? a.action.extra key)

/-- The keys that an emitted action may have. -/
def keys : List String :=
  "Name" :: "ActionTypeId" :: "Configuration" :: "InputArtifacts" :: "OutputArtifacts" :: "Namespace" :: "RunOrder" ::
    Action.ownKeys

theorem keys_slots (a : OrderedAction) : Table.keys a.slots = keys := by
  simp only [Table.keys, slots, List.map_cons, List.map_map]
  rfl

theorem distinct_slots (a : OrderedAction) : Table.Distinct a.slots := by
  rw [Table.Distinct, keys_slots]
  decide

theorem get?_slots (a : OrderedAction) {key : String} (hk : key ∈ Action.ownKeys) :
    Table.get? a.slots key = some (Table.get? a.action.extra key) := by
  have hm : (key, Table.get? a.action.extra key) ∈
      Action.ownKeys.map fun key => (key, Table.get? a.action.extra key) := List.mem_map_of_mem hk
  refine a.distinct_slots.get?_of_mem ?_
  simp only [slots, List.mem_cons, hm, or_true]

/-- An action that can be read from what is emitted for it. -/
structure Legible (a : OrderedAction) : Prop where
  regular : a.action.Regular
  condition : a.action.condition = none
  namespaceName : a.namespaceName ≠ some ""
  runOrder : 1 ≤ a.runOrder

/-- What is read for an emitted action. -/
def reread (a : OrderedAction) : Action :=
  { a.action with
    dependsOn := []
    ownNamespace := a.namespaceName
    runOrder := some a.runOrder
    configuration := (Action.alone a.action.configuration a.action.kind).1
    overrides := (Action.alone a.action.configuration a.action.kind).2 }

theorem present_entryUnless (absent : Bool) (key : String) (node : Node) (slots : List (String × Option Node)) :
    Table.present ((key, if absent then none else some node) :: slots) =
      entryUnless absent key node ++ Table.present slots := by
  cases absent <;> rfl

theorem not_isNull_entryUnless (absent : Bool) (key : String) {node : Node} (h : node.isNull = false) :
    ∀ e ∈ entryUnless absent key node, e.2.isNull = false := by
  cases absent with
  | true => exact fun e he => absurd he List.not_mem_nil
  | false => exact fun e he => List.mem_singleton.mp he ▸ h

theorem toNode_eq {a : OrderedAction} (hx : Action.ownEntries a.action.extra = a.action.extra) :
    a.toNode = underCondition a.action.condition (.map (Table.present a.slots)) := by
  have hd := Table.distinct_present a.distinct_slots
  have happend : Table.present a.slots =
      [("Name", .text a.action.name), ("ActionTypeId", a.action.type.toNode)] ++
        entryUnless a.action.configuration.isEmpty "Configuration" (.map a.action.configuration) ++
        entryUnless a.action.inputs.isEmpty "InputArtifacts" (artifactNodes a.action.inputs) ++
        entryUnless a.action.outputs.isEmpty "OutputArtifacts" (artifactNodes a.action.outputs) ++
        (a.namespaceName.elim [] fun name => [("Namespace", .text name)]) ++
        [("RunOrder", .whole a.runOrder.toNat)] ++ a.action.extra := by
    rw [← hx, Action.ownEntries, slots, Table.present_cons, Table.present_cons, present_entryUnless,
      present_entryUnless, present_entryUnless, Table.present_cons, Table.present_cons]
    simp only [Option.map_some, Option.toList_some, List.append_assoc]
    cases a.namespaceName <;> rfl
  rw [happend] at hd
  rw [toNode, happend, ← Table.putAll_of_distinct hd]
  cases a.namespaceName <;> rfl

theorem Legible.toNode_eq {a : OrderedAction} (h : a.Legible) : a.toNode = .map (Table.present a.slots) := by
  rw [OrderedAction.toNode_eq h.regular.extra, h.condition]
  rfl

theorem not_isNull_slots {a : OrderedAction} (h : a.Legible) :
    ∀ e ∈ Table.present a.slots, e.2.isNull = false := by
  have hown : ∀ e ∈ Table.present (Action.ownKeys.map fun key => (key, Table.get? a.action.extra key)),
      e.2.isNull = false := fun e he => h.regular.given e (Action.mem_of_mem_ownEntries he)
  rw [slots, Table.present_cons, Table.present_cons, present_entryUnless, present_entryUnless, present_entryUnless,
    Table.present_cons, Table.present_cons]
  simp only [Option.map_some, Option.toList_some, List.forall_mem_append, List.forall_mem_singleton]
  refine ⟨rfl, rfl, ?_, ?_, ?_, ?_, rfl, hown⟩
  · exact not_isNull_entryUnless _ _ rfl
  · exact not_isNull_entryUnless _ _ rfl
  · exact not_isNull_entryUnless _ _ rfl
  · cases a.namespaceName with
    | none => simp
    | some name => simp [Node.isNull]

/-- An emitted action is read again under its name. -/
theorem ofNode_toNode {a : OrderedAction} (h : a.Legible) (context : String) (compiler : Fragment.Compiler) :
    Table.get? a.toNode.entries "Name" = some (.text a.action.name) ∧
      Action.ofNode context compiler a.action.name (.map (Table.erase a.toNode.entries "Name")) =
        .ok (a.reread, compiler) := by
  have hd := a.distinct_slots
  have hnull := not_isNull_slots h
  rw [h.toNode_eq, Node.entries_of_not_isNull hnull, Table.get?_present hd,
    Table.erase_present hd]
  refine ⟨rfl, Action.ofNode_eq_ok_iff.mpr ⟨rfl, rfl, ?_⟩⟩
  rw [← Table.erase_present hd, Node.entries_of_not_isNull fun e he =>
    hnull e ((Table.erase_sublist _ _).subset he)]
  generalize s!"{context} action '{a.action.name}'" = place
  have hget (key : String) (hk : "Name" ≠ key) : Table.get? (Table.erase (Table.present a.slots) "Name") key =
      (Table.get? a.slots key).join := by
    rw [Table.get?_erase_of_ne _ hk, Table.get?_present hd]
  have hown : Action.ownEntries (Table.erase (Table.present a.slots) "Name") = a.action.extra := by
    rw [← h.regular.extra]
    refine congrArg Table.present (List.map_congr_left fun key hk => ?_)
    rw [hget key fun he => absurd (he ▸ hk) (by decide), a.get?_slots hk, Option.join_some]
  have hnone : (Action.sharedKeys ++ Action.ownKeys).foldl Table.erase (Table.erase (Table.present a.slots) "Name") =
      [] := by
    refine List.eq_nil_iff_forall_not_mem.mpr fun e he => ?_
    obtain ⟨-, hgone⟩ := ((Table.distinct_present hd).of_sublist (Table.erase_sublist _ "Name")).foldl_erase
      (Action.sharedKeys ++ Action.ownKeys)
    have hslot := (Table.foldl_erase_sublist _ _).subset he
    have hk : e.1 ∈ Table.keys (Table.erase (Table.present a.slots) "Name") := List.mem_map_of_mem hslot
    have hkey : e.1 ∈ keys := by
      rw [← a.keys_slots]
      exact (Table.keys_present_sublist _).subset (List.mem_map_of_mem ((Table.erase_sublist _ _).subset hslot))
    have hname : e.1 ≠ "Name" := by
      intro hn
      rw [hn] at hk
      exact (Table.distinct_present hd).not_mem_erase "Name" hk
    have hall : ∀ key ∈ keys, key ≠ "Name" → key ∈ Action.sharedKeys ++ Action.ownKeys := by decide
    exact hgone _ (hall _ hkey hname) (List.mem_map_of_mem he)
  constructor
  · rw [hget _ (by decide), hget _ (by decide)]
    refine Outcome.bind_eq_ok.mpr ⟨a.action.type, ActionType.ofNode_toNode h.regular.filled place, ?_⟩
    exact congrArg (fun kind => Except.ok (kind, a.action.type)) h.regular.kind.symm
  · refine ⟨a.action.configuration, ⟨[], a.reread.configuration⟩, ?_, ?_, rfl⟩
    · rw [hget _ (by decide)]
      exact Action.readConfiguration_map _ _
    · rw [hnone]
      exact Action.configure_alone h.regular.configured _ _
  · exact hown.symm
  · rw [hget _ (by decide)]
    exact Action.readArtifacts_named _ _ h.regular.inputs
  · rw [hget _ (by decide)]
    exact Action.readArtifacts_named _ _ h.regular.outputs
  · rw [hget _ (by decide)]
    rfl
  · rw [hget _ (by decide)]
    exact Action.readName_text _ _ h.namespaceName
  · rw [hget _ (by decide)]
    exact Action.readRunOrder_whole _ h.runOrder
  · rw [hget _ (by decide)]
    exact congrArg Except.ok h.condition.symm

end OrderedAction

/-! ## Stages -/

namespace OrderedStage

/-- A stage that can be read from what is emitted for it. -/
structure Legible (o : OrderedStage) : Prop where
  condition : o.condition = none
  actions : ∀ a ∈ o.actions, a.Legible
  names : (o.actions.map fun a => a.action.name).Nodup
  nonempty : o.actions ≠ []
  distinct : Table.Distinct o.extra
  extra : ∀ key ∈ Stage.ownKeys, key ∉ Table.keys o.extra
  given : ∀ e ∈ o.extra, e.2.isNull = false

/-- What is read for an emitted stage. -/
def reread (o : OrderedStage) : Stage := ⟨o.name, none, o.actions.map OrderedAction.reread, o.extra⟩

theorem readItems_toNode {as : List OrderedAction} (h : ∀ a ∈ as, a.Legible) {seen : List String}
    (hn : (as.map fun a => a.action.name).Nodup) (hs : ∀ a ∈ as, a.action.name ∉ seen) (context : String)
    (compiler : Fragment.Compiler) :
    Stage.readItems context compiler seen (as.map OrderedAction.toNode) =
      .ok (as.map OrderedAction.reread, compiler) := by
  induction as generalizing seen with
  | nil => rfl
  | cons a as ih =>
      obtain ⟨ha, h⟩ := List.forall_mem_cons.mp h
      obtain ⟨hnew, hs⟩ := List.forall_mem_cons.mp hs
      obtain ⟨hfirst, hn⟩ := List.nodup_cons.mp hn
      obtain ⟨hname, hof⟩ := OrderedAction.ofNode_toNode ha context compiler
      have hrest : ∀ b ∈ as, b.action.name ∉ a.action.name :: seen := fun b hb hm => by
        rcases List.mem_cons.mp hm with he | hm
        · exact hfirst (List.mem_map.mpr ⟨b, hb, he⟩)
        · exact hs b hb hm
      rw [List.map_cons, Stage.readItems, Table.take]
      simp only [hname, Option.bind_some, Node.text?]
      rw [if_neg (by simpa using hnew)]
      exact Outcome.bind_eq_ok.mpr ⟨_, hof, Outcome.bind_eq_ok.mpr ⟨_, ih h hn hrest, rfl⟩⟩

theorem distinct_entries {o : OrderedStage} (hd : Table.Distinct o.extra)
    (hx : ∀ key ∈ Stage.ownKeys, key ∉ Table.keys o.extra) :
    Table.Distinct (("Name", .text o.name) :: ("Actions", .list (o.actions.map OrderedAction.toNode)) :: o.extra) := by
  refine List.nodup_cons.mpr ⟨fun hm => ?_, List.nodup_cons.mpr ⟨hx "Actions" (by decide), hd⟩⟩
  exact (List.mem_cons.mp hm).elim (by simp) (hx "Name" (by decide))

theorem toNode_eq {o : OrderedStage} (hd : Table.Distinct o.extra)
    (hx : ∀ key ∈ Stage.ownKeys, key ∉ Table.keys o.extra) : o.toNode = underCondition o.condition (.map
      (("Name", .text o.name) :: ("Actions", .list (o.actions.map OrderedAction.toNode)) :: o.extra)) :=
  congrArg (fun body => underCondition o.condition (.map body)) (Table.putAll_of_distinct (distinct_entries hd hx))

theorem Legible.toNode_eq {o : OrderedStage} (h : o.Legible) : o.toNode = .map
    (("Name", .text o.name) :: ("Actions", .list (o.actions.map OrderedAction.toNode)) :: o.extra) := by
  rw [OrderedStage.toNode_eq h.distinct h.extra, h.condition]
  rfl

theorem ofNode_toNode {o : OrderedStage} (h : o.Legible) (context : String) (compiler : Fragment.Compiler) :
    Stage.ofNode context compiler o.toNode = .ok (o.reread, compiler) := by
  have hcondition := h.extra "Condition" (by decide)
  have hnull : ∀ e ∈ ("Name", Node.text o.name) :: ("Actions", .list (o.actions.map OrderedAction.toNode)) :: o.extra,
      e.2.isNull = false :=
    List.forall_mem_cons.mpr ⟨rfl, List.forall_mem_cons.mpr ⟨rfl, h.given⟩⟩
  rw [h.toNode_eq]
  refine Stage.ofNode_eq_ok_iff.mpr ⟨rfl, ?_⟩
  rw [Node.entries_of_not_isNull hnull]
  constructor
  · rfl
  · have hnone : Table.get? (("Name", Node.text o.name) ::
        ("Actions", .list (o.actions.map OrderedAction.toNode)) :: o.extra) "Condition" = none := by
      simpa [Table.get?] using Table.get?_eq_none_iff.mpr hcondition
    rw [hnone]
    rfl
  · exact readItems_toNode h.actions h.names (fun a _ hm => List.not_mem_nil hm) _ _
  · simpa [reread] using h.nonempty
  · simp [Stage.ownKeys, Table.erase, Table.erase_of_not_mem hcondition, reread]

/-- Emitted stages are read again. -/
theorem readAll_toNode {ordered : List OrderedStage} (h : ∀ o ∈ ordered, o.Legible) {seen : List String}
    (hn : (ordered.map OrderedStage.name).Nodup) (hs : ∀ o ∈ ordered, o.name ∉ seen) (context : String)
    (compiler : Fragment.Compiler) :
    Stage.readAfter context compiler seen (ordered.map toNode) = .ok (ordered.map reread, compiler) := by
  induction ordered generalizing seen with
  | nil => rfl
  | cons o ordered ih =>
      obtain ⟨ho, h⟩ := List.forall_mem_cons.mp h
      obtain ⟨hnew, hs⟩ := List.forall_mem_cons.mp hs
      obtain ⟨hfirst, hn⟩ := List.nodup_cons.mp hn
      have hrest : ∀ b ∈ ordered, b.name ∉ o.name :: seen := fun b hb hm => by
        rcases List.mem_cons.mp hm with he | hm
        · exact hfirst (List.mem_map.mpr ⟨b, hb, he⟩)
        · exact hs b hb hm
      rw [List.map_cons, Stage.readAfter]
      refine Outcome.bind_eq_ok.mpr ⟨_, ofNode_toNode ho context compiler, ?_⟩
      simp only
      rw [if_neg (by simpa [reread] using hnew)]
      exact Outcome.bind_eq_ok.mpr ⟨_, ih h hn hrest, rfl⟩

end OrderedStage
end Shorthand.Pipeline
