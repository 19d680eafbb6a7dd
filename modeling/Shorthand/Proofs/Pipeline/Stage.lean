import Shorthand.Pipeline.Stage
import Shorthand.Proofs.Pipeline.Reading

/-!
# Stages as they are read

In stages that were read no two have one name, no two actions of a stage have, and no action lists an
artifact twice among its outputs.
-/
namespace Shorthand.Pipeline

/-! ## Actions -/

namespace Action

theorem of_ofNode {context name : String} {compiler compiler' : Fragment.Compiler} {node : Node}
    {action : Action} (h : ofNode context compiler name node = .ok (action, compiler')) :
    action.name = name ∧ action.outputs.Nodup := by
  obtain ⟨-, hname, hread⟩ := ofNode_eq_ok_iff.mp h
  exact ⟨hname, nodup_of_readArtifacts hread.outputs⟩

theorem condition_of_readName {context : String} {t : Table Node} {condition : Option String}
    (h : readName context "Condition" (Table.get? t "Condition") = .ok condition) (hc : "Condition" ∉ Table.keys t) :
    condition = none := by
  rw [Table.get?_eq_none_iff.mpr hc] at h
  exact (Except.ok.inj h).symm

/-- What any action is like that was read from a declaration with no condition and with one type. -/
structure Declared (a : Action) : Prop where
  regular : a.Regular
  condition : a.condition = none
  overrides : a.kind = .cloudFormation → a.overrides = none → "ParameterOverrides" ∉ Table.keys a.configuration

theorem declared_of_ofNode {context name : String} {compiler compiler' : Fragment.Compiler} {node : Node}
    {action : Action} (h : ofNode context compiler name node = .ok (action, compiler')) (hw : node.WellFormed)
    (hc : "Condition" ∉ Table.keys node.entries)
    (hone : "Type" ∉ Table.keys node.entries ∨ "ActionTypeId" ∉ Table.keys node.entries) : action.Declared := by
  obtain ⟨-, -, hread⟩ := ofNode_eq_ok_iff.mp h
  exact ⟨hread.regular hw.entries (fun _ he => Node.not_isNull_of_mem_entries he) hone,
    condition_of_readName hread.condition hc, hread.overrides⟩

end Action

/-! ## The actions of a stage -/

/-- The names of the actions differ, and so do the outputs of each. -/
structure Stage.Distinct (stage : Stage) : Prop where
  names : (stage.actions.map Action.name).Nodup
  outputs : ∀ action ∈ stage.actions, action.outputs.Nodup

namespace Stage

/-- Each action is read from the entry at its place. -/
theorem forall₂_of_readEntries {context : String} {compiler compiler' : Fragment.Compiler}
    {entries : List (String × Node)} {actions : List Action}
    (h : readEntries context compiler entries = .ok (actions, compiler')) :
    List.Forall₂ (fun e action => ∃ c c', Action.ofNode context c e.1 e.2 = .ok (action, c')) entries actions := by
  induction entries generalizing compiler actions with
  | nil =>
      obtain ⟨rfl, _⟩ := Prod.mk.inj (Except.ok.inj h)
      exact .nil
  | cons entry entries ih =>
      obtain ⟨⟨action, c₁⟩, h₁, h⟩ := Outcome.bind_eq_ok.mp h
      obtain ⟨⟨more, c₂⟩, h₂, h⟩ := Outcome.bind_eq_ok.mp h
      obtain ⟨rfl, rfl⟩ := Prod.mk.inj (Except.ok.inj h)
      exact .cons ⟨_, _, h₁⟩ (ih h₂)

theorem names_of_readEntries {context : String} {compiler compiler' : Fragment.Compiler}
    {entries : List (String × Node)} {actions : List Action}
    (h : readEntries context compiler entries = .ok (actions, compiler')) :
    actions.map Action.name = Table.keys entries := by
  refine (Outcome.map_eq_map ((forall₂_of_readEntries h).imp fun e action hof => ?_)).symm
  obtain ⟨_, _, hof⟩ := hof
  exact (Action.of_ofNode hof).1.symm

theorem bind_text?_eq_some {node : Option Node} {s : String} :
    node.bind Node.text? = some s ↔ node = some (.text s) := by
  rw [Option.bind_eq_some_iff]
  constructor
  · rintro ⟨node, rfl, h⟩
    cases node <;> cases h
    rfl
  · rintro rfl
    exact ⟨_, rfl, rfl⟩

/-- Each action is read from the item at its place, under the name that the item gives. -/
theorem forall₂_of_readItems {context : String} {compiler compiler' : Fragment.Compiler} {seen : List String}
    {items : List Node} {actions : List Action}
    (h : readItems context compiler seen items = .ok (actions, compiler')) :
    List.Forall₂ (fun item action => Table.get? item.entries "Name" = some (.text action.name) ∧
      ∃ c c', Action.ofNode context c action.name (.map (Table.erase item.entries "Name")) = .ok (action, c'))
      items actions := by
  induction items generalizing compiler seen actions with
  | nil =>
      obtain ⟨rfl, _⟩ := Prod.mk.inj (Except.ok.inj h)
      exact .nil
  | cons item items ih =>
      unfold readItems at h
      simp only at h
      split at h
      · cases h
      · rename_i name hname
        split at h
        · cases h
        · obtain ⟨⟨first, c₁⟩, h₁, h⟩ := Outcome.bind_eq_ok.mp h
          obtain ⟨⟨more, c₂⟩, h₂, h⟩ := Outcome.bind_eq_ok.mp h
          obtain ⟨rfl, rfl⟩ := Prod.mk.inj (Except.ok.inj h)
          obtain ⟨rfl, -⟩ := Action.of_ofNode h₁
          exact .cons ⟨bind_text?_eq_some.mp hname, _, _, h₁⟩ (ih h₂)

theorem names_of_readItems {context : String} {compiler compiler' : Fragment.Compiler} {seen : List String}
    {items : List Node} {actions : List Action}
    (h : readItems context compiler seen items = .ok (actions, compiler')) :
    (∀ action ∈ actions, action.name ∉ seen) ∧ (actions.map Action.name).Nodup := by
  induction items generalizing compiler compiler' seen actions with
  | nil =>
      obtain ⟨rfl, _⟩ := Prod.mk.inj (Except.ok.inj h)
      exact ⟨by simp, List.nodup_nil⟩
  | cons item items ih =>
      unfold readItems at h
      simp only at h
      split at h
      · cases h
      · rename_i name _
        split at h
        · cases h
        · rename_i hc
          rw [List.contains_iff_mem] at hc
          obtain ⟨⟨action, c₁⟩, h₁, h⟩ := Outcome.bind_eq_ok.mp h
          obtain ⟨⟨more, c₂⟩, h₂, h⟩ := Outcome.bind_eq_ok.mp h
          obtain ⟨rfl, _⟩ := Prod.mk.inj (Except.ok.inj h)
          obtain ⟨rfl, _⟩ := Action.of_ofNode h₁
          obtain ⟨hseen, hnames⟩ := ih h₂
          refine ⟨List.forall_mem_cons.mpr ⟨hc, fun a ha hm => hseen a ha (List.mem_cons_of_mem _ hm)⟩, ?_⟩
          rw [List.map_cons, List.nodup_cons]
          refine ⟨fun hm => ?_, hnames⟩
          obtain ⟨a, ha, he⟩ := List.mem_map.mp hm
          exact hseen a ha (he ▸ List.mem_cons_self)

/-- The keys of a stage that have a meaning of their own. -/
def ownKeys : List String := ["Name", "Condition", "Actions"]

/-- What a stage is read from: each part is under its key, and the rest is passed on. -/
structure ReadFrom (context : String) (compiler : Fragment.Compiler) (t : Table Node) (stage : Stage)
    (compiler' : Fragment.Compiler) : Prop where
  name : Table.get? t "Name" = some (.text stage.name)
  condition : Action.readName context "Condition" (Table.get? t "Condition") = .ok stage.condition
  actions : readActions context compiler (Table.get? t "Actions") = .ok (stage.actions, compiler')
  nonempty : stage.actions ≠ []
  extra : stage.extra = ownKeys.foldl Table.erase t

theorem ofNode_eq_ok_iff {context : String} {compiler compiler' : Fragment.Compiler} {node : Node} {stage : Stage} :
    ofNode context compiler node = .ok (stage, compiler') ↔
      node.isMap = true ∧ ReadFrom s!"{context} stage '{stage.name}'" compiler node.entries stage compiler' := by
  unfold ofNode
  simp (disch := decide) only [Table.take, Table.get?_erase_of_ne]
  split
  · rename_i hm
    rw [Bool.not_eq_true'] at hm
    simp [hm]
  · rename_i hm
    rw [Bool.not_eq_true, Bool.not_eq_false'] at hm
    simp only [hm, true_and]
    split
    · rename_i hnone
      constructor
      · intro h
        simp at h
      · intro h
        rw [bind_text?_eq_some.mpr h.name] at hnone
        cases hnone
    · rename_i name hname
      simp only [Outcome.bind_eq_ok]
      constructor
      · rintro ⟨condition, hc, ⟨actions, c⟩, ha, h⟩
        split at h
        · simp at h
        · rename_i hne
          obtain ⟨rfl, rfl⟩ := Prod.mk.inj (Except.ok.inj h)
          exact ⟨bind_text?_eq_some.mp hname, hc, ha, fun he => hne (List.isEmpty_iff.mpr he), rfl⟩
      · rintro ⟨hn, hc, ha, hne, hx⟩
        obtain rfl := Option.some.inj (hname.symm.trans (bind_text?_eq_some.mpr hn))
        refine ⟨_, hc, _, ha, ?_⟩
        rw [if_neg (by simpa using hne)]
        simp only [ownKeys, List.foldl_cons, List.foldl_nil] at hx
        rw [← hx]

theorem distinct_of_ofNode {context : String} {compiler compiler' : Fragment.Compiler} {node : Node}
    (hw : node.WellFormed) {stage : Stage} (h : ofNode context compiler node = .ok (stage, compiler')) :
    stage.Distinct := by
  have ha := (ofNode_eq_ok_iff.mp h).2.actions
  unfold readActions at ha
  split at ha
  · rename_i entries hg
    refine ⟨?_, fun action hm => ?_⟩
    · rw [names_of_readEntries ha]
      exact (hw.entries.of_get? hg).distinct
    · obtain ⟨_, _, _, _, hof⟩ := Outcome.exists_of_mem_right (forall₂_of_readEntries ha) hm
      exact (Action.of_ofNode hof).2
  · refine ⟨(names_of_readItems ha).2, fun action hm => ?_⟩
    obtain ⟨_, _, _, _, _, hof⟩ := Outcome.exists_of_mem_right (forall₂_of_readItems ha) hm
    exact (Action.of_ofNode hof).2
  · cases ha

/-- The other attributes of a stage are under keys of their own. -/
theorem not_mem_extra_of_ofNode {context : String} {compiler compiler' : Fragment.Compiler} {node : Node}
    (hw : node.WellFormed) {stage : Stage} (h : ofNode context compiler node = .ok (stage, compiler')) {key : String}
    (hk : key ∈ ownKeys) : key ∉ Table.keys stage.extra := by
  rw [(ofNode_eq_ok_iff.mp h).2.extra]
  exact (hw.entries.distinct.foldl_erase ownKeys).2 key hk

end Stage

/-! ## Stages without conditions -/

/-- What the actions of a stage are declared as. -/
def declarations (stage : Node) : List Node :=
  match Table.get? stage.entries "Actions" with
  | some (.map entries) => entries.map Prod.snd
  | some (.list items) => items
  | _ => []

/-- No condition is given, neither for the stage nor for an action, and no action has both a tag and a type. -/
structure Unconditional (declared : Node) : Prop where
  stage : "Condition" ∉ Table.keys declared.entries
  actions : ∀ node ∈ declarations declared, "Condition" ∉ Table.keys node.entries
  types : ∀ node ∈ declarations declared, "Type" ∉ Table.keys node.entries ∨ "ActionTypeId" ∉ Table.keys node.entries

namespace Stage

/-- What any stage is like that was read without conditions. -/
structure Regular (stage : Stage) : Prop where
  condition : stage.condition = none
  actions : ∀ action ∈ stage.actions, action.Declared
  nonempty : stage.actions ≠ []
  distinct : Table.Distinct stage.extra
  extra : ∀ key ∈ ownKeys, key ∉ Table.keys stage.extra
  given : ∀ e ∈ stage.extra, e.2.isNull = false

theorem regular_of_ofNode {context : String} {compiler compiler' : Fragment.Compiler} {node : Node}
    (hw : node.WellFormed) (hu : Unconditional node) {stage : Stage}
    (h : ofNode context compiler node = .ok (stage, compiler')) : stage.Regular := by
  obtain ⟨-, hread⟩ := ofNode_eq_ok_iff.mp h
  have hextra : stage.extra.Sublist node.entries := hread.extra ▸ Table.foldl_erase_sublist _ _
  refine ⟨Action.condition_of_readName hread.condition hu.stage, fun action ha => ?_, hread.nonempty,
    hw.entries.distinct.of_sublist hextra, fun key hk => not_mem_extra_of_ofNode hw h hk,
    fun e he => Node.not_isNull_of_mem_entries (hextra.subset he)⟩
  have hactions := hread.actions
  have hcondition := hu.actions
  have htypes := hu.types
  unfold declarations at hcondition htypes
  unfold readActions at hactions
  split at hactions
  · rename_i entries hg
    rw [hg] at hcondition htypes
    obtain ⟨e, he, _, _, hof⟩ := Outcome.exists_of_mem_right (forall₂_of_readEntries hactions) ha
    have hm : e.2 ∈ entries.map Prod.snd := List.mem_map_of_mem he
    exact Action.declared_of_ofNode hof ((Node.wellFormed_map_iff.mp (hw.entries.of_get? hg)).2 e he)
      (hcondition _ hm) (htypes _ hm)
  · rename_i items hg
    rw [hg] at hcondition htypes
    obtain ⟨item, hi, -, _, _, hof⟩ := Outcome.exists_of_mem_right (forall₂_of_readItems hactions) ha
    have hwi : item.WellFormed := Node.wellFormed_list_iff.mp (hw.entries.of_get? hg) item hi
    have hsub : (Table.erase item.entries "Name").Sublist item.entries := Table.erase_sublist _ _
    have hentries : (Node.map (Table.erase item.entries "Name")).entries = Table.erase item.entries "Name" :=
      Node.entries_of_not_isNull fun e he => Node.not_isNull_of_mem_entries (hsub.subset he)
    have hkeys : ∀ key, key ∉ Table.keys item.entries → key ∉ Table.keys (Table.erase item.entries "Name") :=
      fun key hk hm => hk ((hsub.map Prod.fst).subset hm)
    refine Action.declared_of_ofNode hof (hwi.entries.erase "Name") ?_ ?_
    · rw [hentries]
      exact hkeys _ (hcondition item hi)
    · rw [hentries]
      exact (htypes item hi).imp (hkeys _) (hkeys _)
  · cases hactions

end Stage

/-! ## All stages -/

/-- The names of the stages differ, and those of the actions of each. -/
structure DistinctNames (stages : List Stage) : Prop where
  names : (stages.map Stage.name).Nodup
  stages : ∀ stage ∈ stages, stage.Distinct

namespace Stage

/-- Each stage is read from the node at its place. -/
theorem forall₂_of_readAfter {context : String} {compiler compiler' : Fragment.Compiler} {seen : List String}
    {nodes : List Node} {stages : List Stage}
    (h : readAfter context compiler seen nodes = .ok (stages, compiler')) :
    List.Forall₂ (fun node stage => ∃ c c', ofNode context c node = .ok (stage, c')) nodes stages := by
  induction nodes generalizing compiler seen stages with
  | nil =>
      obtain ⟨rfl, _⟩ := Prod.mk.inj (Except.ok.inj h)
      exact .nil
  | cons node nodes ih =>
      obtain ⟨⟨stage, c₁⟩, h₁, h⟩ := Outcome.bind_eq_ok.mp h
      simp only at h
      split at h
      · simp at h
      · obtain ⟨⟨more, c₂⟩, h₂, h⟩ := Outcome.bind_eq_ok.mp h
        obtain ⟨rfl, rfl⟩ := Prod.mk.inj (Except.ok.inj h)
        exact .cons ⟨_, _, h₁⟩ (ih h₂)

theorem names_of_readAfter {context : String} {compiler compiler' : Fragment.Compiler} {seen : List String}
    {nodes : List Node} {stages : List Stage}
    (h : readAfter context compiler seen nodes = .ok (stages, compiler')) :
    (∀ stage ∈ stages, stage.name ∉ seen) ∧ (stages.map Stage.name).Nodup := by
  induction nodes generalizing compiler compiler' seen stages with
  | nil =>
      obtain ⟨rfl, _⟩ := Prod.mk.inj (Except.ok.inj h)
      exact ⟨by simp, List.nodup_nil⟩
  | cons node nodes ih =>
      obtain ⟨⟨stage, c₁⟩, h₁, h⟩ := Outcome.bind_eq_ok.mp h
      simp only at h
      split at h
      · simp at h
      · rename_i hc
        rw [List.contains_iff_mem] at hc
        obtain ⟨⟨more, c₂⟩, h₂, h⟩ := Outcome.bind_eq_ok.mp h
        obtain ⟨rfl, _⟩ := Prod.mk.inj (Except.ok.inj h)
        obtain ⟨hseen, hnames⟩ := ih h₂
        refine ⟨List.forall_mem_cons.mpr ⟨hc, fun s hs hm => hseen s hs (List.mem_cons_of_mem _ hm)⟩, ?_⟩
        rw [List.map_cons, List.nodup_cons]
        refine ⟨fun hm => ?_, hnames⟩
        obtain ⟨s, hs, he⟩ := List.mem_map.mp hm
        exact hseen s hs (he ▸ List.mem_cons_self)

theorem distinctNames_of_readAll {context : String} {compiler compiler' : Fragment.Compiler}
    {nodes : List Node} (hw : Node.AllWellFormed nodes) {stages : List Stage}
    (h : readAll context compiler nodes = .ok (stages, compiler')) : DistinctNames stages := by
  refine ⟨(names_of_readAfter h).2, fun stage hs => ?_⟩
  obtain ⟨node, hnode, _, _, hof⟩ := Outcome.exists_of_mem_right (forall₂_of_readAfter h) hs
  exact distinct_of_ofNode (Node.wellFormed_list_iff.mp hw node hnode) hof

end Stage
end Shorthand.Pipeline
