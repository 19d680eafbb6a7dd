import Shorthand.Proofs.Pipeline.Rebuilding

/-!
# What is built is in wire form

Linking changes nothing in an action but its configuration, and there only the names of variables. So a built action
still has all that its kind asks for, and what was claimed by one action before is claimed by one action now.
-/
namespace Shorthand

/-! ## Rewritten configurations -/

namespace Node

theorem keys_mapTexts (f : String → String) (t : Table Node) : Table.keys (mapTextsOfEntries f t) = Table.keys t := by
  induction t with
  | nil => rfl
  | cons e t ih => exact congrArg (e.1 :: ·) ih

theorem get?_mapTexts (f : String → String) (t : Table Node) (key : String) :
    Table.get? (mapTextsOfEntries f t) key = (Table.get? t key).map (mapTexts f) := by
  induction t with
  | nil => rfl
  | cons e t ih =>
      obtain ⟨k, v⟩ := e
      rw [mapTextsOfEntries, Table.get?, Table.get?, ih]
      split <;> rfl

theorem isMap_mapTexts (f : String → String) (node : Node) : (node.mapTexts f).isMap = node.isMap := by
  cases node <;> rfl

mutual
theorem texts_mapTexts (f : String → String) (node : Node) : (node.mapTexts f).texts = node.texts.map f := by
  match node with
  | .list items => exact textsOfItems_mapTexts f items
  | .map entries => exact textsOfEntries_mapTexts f entries
  | .null | .bool _ | .number _ | .text _ => rfl

theorem textsOfItems_mapTexts (f : String → String) (items : List Node) :
    textsOfItems (mapTextsOfItems f items) = (textsOfItems items).map f := by
  match items with
  | [] => rfl
  | item :: items =>
      rw [mapTextsOfItems, textsOfItems, textsOfItems, List.map_append, texts_mapTexts f item,
        textsOfItems_mapTexts f items]

theorem textsOfEntries_mapTexts (f : String → String) (entries : List (String × Node)) :
    textsOfEntries (mapTextsOfEntries f entries) = (textsOfEntries entries).map f := by
  match entries with
  | [] => rfl
  | (_, value) :: entries =>
      rw [mapTextsOfEntries, textsOfEntries, textsOfEntries, List.map_append, texts_mapTexts f value,
        textsOfEntries_mapTexts f entries]
end

theorem eq_bool_of_mapTexts {f : String → String} {node : Node} {b : Bool} (h : node.mapTexts f = .bool b) :
    node = .bool b := by
  cases node with
  | bool c => exact h
  | null | number | text | list | map => cases h

end Node

namespace Pipeline
open StageVariable

namespace Action

/-- A configuration with as many keys has all that is asked for too, unless it denies to extract. -/
theorem Configured.of_keys {t t' : Table Node} {kind : ActionKind} (h : Configured t kind)
    (hk : ∀ key ∈ Table.keys t, key ∈ Table.keys t')
    (hx : ∀ extract, Table.get? t "Extract" = some extract →
      ∃ extract', Table.get? t' "Extract" = some extract' ∧ (extract' = .bool false → extract = .bool false)) :
    Configured t' kind := by
  cases kind with
  | build => exact hk _ h
  | s3Source => exact ⟨hk _ h.1, hk _ h.2.1, hk _ h.2.2⟩
  | s3Deploy =>
      obtain ⟨hb, extract, he, hobject⟩ := h
      obtain ⟨extract', he', hfalse⟩ := hx extract he
      exact ⟨hk _ hb, extract', he', fun hf => hk _ (hobject (hfalse hf))⟩
  | ecrSource => exact ⟨hk _ h.1, hk _ h.2⟩
  | cloudFormation => exact hk _ h
  | generic => trivial

theorem Configured.mapTexts {t : Table Node} {kind : ActionKind} (h : Configured t kind) (f : String → String) :
    Configured (Node.mapTextsOfEntries f t) kind := by
  refine h.of_keys (fun key hk => (Node.keys_mapTexts f t).symm ▸ hk) fun extract he => ?_
  exact ⟨_, by rw [Node.get?_mapTexts, he]; rfl, Node.eq_bool_of_mapTexts⟩

theorem Configured.put {t : Table Node} {kind : ActionKind} (h : Configured t kind) {key : String}
    (hk : key ≠ "Extract") (value : Node) : Configured (Table.put t key value) kind := by
  refine h.of_keys (fun other ho => Table.mem_keys_put.mpr (.inl ho)) fun extract he => ?_
  exact ⟨extract, (Table.get?_put_of_ne t value hk).trans he, fun hf => hf⟩

end Action

theorem Rewrites.configured {N : StageVariable → String} {declared emitted : Action} (h : Rewrites N declared emitted)
    (hr : declared.Regular) :
    Action.Configured emitted.configuration declared.kind ∧ Table.Distinct emitted.configuration := by
  have hc := hr.configured.mapTexts (renameText N)
  have hd : Table.Distinct (Node.mapTextsOfEntries (renameText N) declared.configuration) := by
    rw [Table.Distinct, Node.keys_mapTexts]
    exact hr.distinct
  unfold Rewrites at h
  split at h
  · rw [h]
    exact ⟨hc, hd⟩
  · obtain ⟨_, h⟩ := h
    rw [h]
    exact ⟨hc.put (by decide) _, hd.put _ _⟩

/-- A regular action is still regular when it is emitted. -/
theorem OrderedAction.MadeOf.regular {action : Action} {a : OrderedAction} (h : OrderedAction.MadeOf action a)
    {N : StageVariable → String} (hw : Rewrites N action a.action) (hr : action.Regular) : a.action.Regular := by
  obtain ⟨hconfigured, hdistinct⟩ := hw.configured hr
  rw [OrderedAction.MadeOf] at h
  rw [h]
  exact ⟨hr.filled, hr.kind, hconfigured, hdistinct, hr.inputs, hr.outputs, hr.ownNamespace, hr.runOrder, hr.extra,
    hr.given⟩

/-! ## Built stages -/

/-- Regular stages and what is built of them. -/
structure Built (stages : List Stage) (l : Linked) (made : List (List OrderedAction)) (ordered : List OrderedStage) :
    Prop where
  orders : Orders stages l made ordered
  distinct : DistinctNames stages
  regular : ∀ stage ∈ stages, stage.Regular
  conditions : List.Forall₂ (fun stage (l : LinkedStage) => l.condition = stage.condition) stages l.stages
  rewrites : ∀ {id stage action a}, At stages id stage action → EmittedAt made id a →
    Rewrites (nameOf stages l.namespaces) action a.action
  sound : l.namespaces.Sound
  /-- What holds of all names that are asked for and of all that are made up holds of all namespaces. -/
  each : ∀ {P : String → Prop},
    (∀ stage ∈ stages, ∀ action ∈ stage.actions, ∀ name, action.ownNamespace = some name → P name) →
    (∀ stage action n, P (Naming.hyphenated (Namespaces.derive stage action) n)) → l.namespaces.Each P

theorem exists_built {stages : List Stage} (hd : DistinctNames stages) (hr : ∀ stage ∈ stages, stage.Regular)
    {compiler : Fragment.Compiler} {ordered : List OrderedStage} (h : build stages compiler = .ok ordered) :
    ∃ l made, Built stages l made ordered := by
  obtain ⟨hg, ns, l, _, hns, hlinked, ho⟩ := linked_of_build h
  obtain ⟨made, horders⟩ := exists_orders hg (Registered.links_of_linkStages hlinked) ho
  obtain ⟨hgrown, hrenames⟩ := Registered.renames_of_linkStages hlinked
  have hrewrites := hrenames (fun s stage => agrees_nameOf stages l.namespaces s stage) fun _ _ hg => hg
  refine ⟨l, made, horders, hd, hr, Registered.condition_of_linkStages hlinked,
    fun hat he => horders.rewrites hrewrites hat he, hgrown.sound (Registered.sound_of_declareNamespaces hns),
    fun hasked hmade => Registered.keeps_of_linkStages (Namespaces.each_ensure hmade) hlinked fun id name hget => ?_⟩
  obtain ⟨stage, action, hat, hname⟩ := (Registered.get?_of_declareNamespaces hns).mp hget
  exact hasked stage (List.mem_of_getElem? hat.hs) action (List.mem_of_getElem? hat.ha) name
    (Option.mem_toList.mp hname)

/-- Emitted actions in the order of declaration, as they would be read again. -/
def remade (made : List (List OrderedAction)) : List Stage :=
  made.map fun as => ⟨"", none, as.map OrderedAction.reread, []⟩

theorem exists_of_at_remade {made : List (List OrderedAction)} {id : ActionId} {stage : Stage} {action : Action}
    (h : At (remade made) id stage action) : ∃ a, EmittedAt made id a ∧ action = a.reread := by
  obtain ⟨hs, ha⟩ := h
  rw [remade, List.getElem?_map, Option.map_eq_some_iff] at hs
  obtain ⟨as, has, rfl⟩ := hs
  rw [List.getElem?_map, Option.map_eq_some_iff] at ha
  obtain ⟨a, ha, rfl⟩ := ha
  exact ⟨a, ⟨as, has, ha⟩, rfl⟩

namespace Built
variable {stages : List Stage} {l : Linked} {made : List (List OrderedAction)} {ordered : List OrderedStage}

/-- The stage that an emitted stage is made of. -/
theorem exists_stage (h : Built stages l made ordered) {s : Nat} {o : OrderedStage} (ho : ordered[s]? = some o) :
    ∃ stage as, stages[s]? = some stage ∧ made[s]? = some as ∧ EmittedAs stage as o ∧ o.extra = stage.extra ∧
      o.condition = none := by
  obtain ⟨⟨linked, s'⟩, hz, horder⟩ := Outcome.exists_left (Outcome.mapM_eq_ok.mp h.orders.order) ho
  rw [List.getElem?_zipIdx, Option.map_eq_some_iff] at hz
  obtain ⟨_, hlinked, he⟩ := hz
  obtain ⟨rfl, -⟩ := Prod.mk.inj he
  obtain ⟨stage, hs, hlinks⟩ := h.orders.links.exists_stage hlinked
  obtain ⟨as, o', has, ho', hemitted⟩ := h.orders.emits.stage hs
  obtain rfl := Option.some.inj (ho.symm.trans ho')
  obtain ⟨_, hlinked', hcondition⟩ := Outcome.exists_right h.conditions hs
  obtain rfl := Option.some.inj (hlinked.symm.trans hlinked')
  obtain ⟨_, _, he⟩ := Outcome.bind_eq_ok.mp horder
  obtain rfl := Except.ok.inj he
  exact ⟨stage, as, hs, has, hemitted, hlinks.extra,
    hcondition.trans (h.regular stage (List.mem_of_getElem? hs)).condition⟩

/-- The action that an emitted action is made of. -/
theorem exists_action (h : Built stages l made ordered) {id : ActionId} {a : OrderedAction} (he : EmittedAt made id a) :
    ∃ stage action, At stages id stage action ∧ OrderedAction.MadeOf action a := by
  obtain ⟨as, has, ha⟩ := he
  obtain ⟨⟨linked, s⟩, hz, hassigns⟩ := Outcome.exists_left h.orders.assigns has
  rw [List.getElem?_zipIdx, Option.map_eq_some_iff] at hz
  obtain ⟨_, hlinked, he⟩ := hz
  obtain ⟨rfl, rfl⟩ := Prod.mk.inj he
  obtain ⟨stage, hs, hlinks⟩ := h.orders.links.exists_stage hlinked
  rw [Nat.zero_add] at hassigns
  obtain ⟨action, haction, hmade⟩ := Outcome.exists_left (hassigns.madeOf hlinks) ha
  exact ⟨stage, action, ⟨hs, haction⟩, hmade⟩

theorem exists_emittedAt (h : Built stages l made ordered) {s : Nat} {o : OrderedStage} (ho : ordered[s]? = some o)
    {a : OrderedAction} (ha : a ∈ o.actions) : ∃ i, EmittedAt made ⟨s, i⟩ a := by
  obtain ⟨stage, as, _, has, hemitted, _⟩ := h.exists_stage ho
  obtain ⟨i, hi⟩ := List.getElem?_of_mem (hemitted.perm.mem_iff.mpr ha)
  exact ⟨i, as, has, hi⟩

theorem one_le_runOrder (h : Built stages l made ordered) {id : ActionId} {stage : Stage} {action : Action}
    {a : OrderedAction} (hat : At stages id stage action) (he : EmittedAt made id a) (hr : action.Regular) :
    1 ≤ a.runOrder := by
  obtain ⟨linked, _, hlinks, _, has, orders, ho, rfl⟩ := h.orders.exists_assigns hat.hs
  obtain ⟨_, has', ha⟩ := he
  obtain rfl := Option.some.inj (has.symm.trans has')
  obtain ⟨la, hla, _⟩ := Outcome.exists_right hlinks.actions hat.ha
  rw [Linked.getElem?_assign hla] at ha
  obtain rfl := Option.some.inj ha
  have hfloor : 1 ≤ linked.floorAt id.index := by
    rw [hlinks.floorAt_eq hat.ha]
    cases hro : action.runOrder with
    | none => exact UInt64.le_refl 1
    | some r => exact hr.runOrder r hro
  change 1 ≤ (Table.get? orders id.index).getD 1
  cases hg : Table.get? orders id.index with
  | none => exact UInt64.le_refl 1
  | some order =>
      obtain ⟨hf, -⟩ := LinkedStage.filled_of_runOrders (hlinks.closed hat.hs) ho
      rw [Option.getD_some, UInt64.le_iff_toNat_le, hf.order_eq hg]
      exact Nat.le_trans (UInt64.le_iff_toNat_le.mp hfloor) (Nat.le_max_right _ _)

/-- An action is emitted so that it can be read again. -/
theorem legible_action (h : Built stages l made ordered) {id : ActionId} {a : OrderedAction}
    (he : EmittedAt made id a) : a.Legible := by
  obtain ⟨stage, action, hat, hmade⟩ := h.exists_action he
  have hd := (h.regular stage (List.mem_of_getElem? hat.hs)).actions action (List.mem_of_getElem? hat.ha)
  refine ⟨hmade.regular (h.rewrites hat he) hd.regular, ?_, fun hn => ?_, h.one_le_runOrder hat he hd.regular⟩
  · exact hmade.condition.trans hd.condition
  · rw [(h.orders.of_emittedAt he).1] at hn
    have hfilled : l.namespaces.Each (· ≠ "") := by
      refine h.each (fun stage hs action ha name ho => ?_) Namespaces.hyphenated_derive_ne_empty
      rintro rfl
      exact ((h.regular stage hs).actions action ha).regular.ownNamespace ho
    exact hfilled _ _ hn rfl

theorem map_name_eq {stage : Stage} {as : List OrderedAction} {o : OrderedStage} (h : EmittedAs stage as o) :
    (as.map fun a => a.action.name) = stage.actions.map Action.name := by
  exact (Outcome.map_eq_map (h.actions.imp fun _ _ hmade => hmade.name.symm)).symm

/-- A stage is emitted so that it can be read again. -/
theorem legible (h : Built stages l made ordered) : ∀ o ∈ ordered, o.Legible := by
  intro o hm
  obtain ⟨s, ho⟩ := List.getElem?_of_mem hm
  obtain ⟨stage, as, hs, has, hemitted, hextra, hcondition⟩ := h.exists_stage ho
  have hms := List.mem_of_getElem? hs
  have hr := h.regular stage hms
  refine ⟨hcondition, fun a ha => ?_, ?_, fun hnil => ?_, hextra ▸ hr.distinct, hextra ▸ hr.extra, hextra ▸ hr.given⟩
  · obtain ⟨i, he⟩ := h.exists_emittedAt ho ha
    exact h.legible_action he
  · rw [← (hemitted.perm.map fun a => a.action.name).nodup_iff, map_name_eq hemitted]
    exact (h.distinct.stages stage hms).names
  · have hlen := hemitted.actions.length_eq.trans hemitted.perm.length_eq
    rw [hnil] at hlen
    exact hr.nonempty (List.length_eq_zero_iff.mp hlen)

/-- Names that no two emitted actions have are given once in all that is emitted. -/
theorem nodup_names (h : Built stages l made ordered) (names : Action → List String)
    (hn : ∀ id a, EmittedAt made id a → (names a.reread).Nodup)
    (hone : ∀ x id id' a a', EmittedAt made id a → EmittedAt made id' a' →
      x ∈ names a.reread → x ∈ names a'.reread → id = id') :
    (ordered.flatMap fun o => o.actions.flatMap fun a => names a.reread).Nodup := by
  have hkeys : (Table.keys (claims names 0 (remade made))).Nodup := by
    refine (nodup_keys_claims fun stage hs action ha => ?_).mpr ?_
    · obtain ⟨s, hs⟩ := List.getElem?_of_mem hs
      obtain ⟨i, ha⟩ := List.getElem?_of_mem ha
      obtain ⟨a, he, rfl⟩ := exists_of_at_remade (⟨hs, ha⟩ : At (remade made) ⟨s, i⟩ stage action)
      exact hn _ a he
    · rintro x id id' ⟨_, _, h₁, hx⟩ ⟨_, _, h₂, hx'⟩
      obtain ⟨a, he, rfl⟩ := exists_of_at_remade h₁
      obtain ⟨a', he', rfl⟩ := exists_of_at_remade h₂
      exact hone x id id' a a' he he' hx hx'
  have hperm : (made.flatMap fun as => as.flatMap fun a => names a.reread).Perm
      (ordered.flatMap fun o => o.actions.flatMap fun a => names a.reread) := by
    have hp := h.orders.perm
    generalize made = made', ordered = ordered' at hp
    induction hp with
    | nil => exact .refl _
    | cons hp _ ih => exact (hp.flatMap_right _).append ih
  rw [keys_claims, remade, List.flatMap_map] at hkeys
  refine hperm.nodup_iff.mp ?_
  simpa only [List.flatMap_map] using hkeys

theorem claims_outputs (h : Built stages l made ordered) {id : ActionId} {a : OrderedAction} {x : String}
    (he : EmittedAt made id a) (hx : x ∈ a.action.outputs) : Claims Action.outputs stages id x := by
  obtain ⟨stage, action, hat, hmade⟩ := h.exists_action he
  exact ⟨stage, action, hat, hmade.outputs ▸ hx⟩

/-- An action has a larger run order than those of its stage whose artifacts it takes. -/
theorem lt_of_input (h : Built stages l made ordered) {s i j : Nat} {a b : OrderedAction}
    (ha : EmittedAt made ⟨s, i⟩ a) (hb : EmittedAt made ⟨s, j⟩ b) {x : String} (hx : x ∈ a.action.inputs)
    (hx' : x ∈ b.action.outputs) : b.runOrder < a.runOrder := by
  obtain ⟨stage, action, hat, hmade⟩ := h.exists_action ha
  obtain ⟨q, hearlier, hq⟩ := (h.orders.respected hat).inputs x (hmade.inputs ▸ hx)
  obtain rfl := (hq _).mp (h.claims_outputs hb hx')
  obtain ⟨as, has, ha⟩ := ha
  obtain ⟨_, has', hb⟩ := hb
  obtain rfl := Option.some.inj (has.symm.trans has')
  cases hearlier with
  | stage hlt => exact absurd hlt (Nat.lt_irrefl _)
  | order _ has' hb' ha' hlt =>
      obtain rfl := Option.some.inj (has.symm.trans has')
      obtain rfl := Option.some.inj (ha.symm.trans ha')
      obtain rfl := Option.some.inj (hb.symm.trans hb')
      exact hlt

/-- What is built of regular stages is in wire form. -/
theorem wire (h : Built stages l made ordered) : Wire ordered := by
  refine ⟨h.legible, ?_, ?_, fun s o ho a ha x hx => ?_, ?_, fun o hm => ?_, fun o hm a ha b hb x hx hx' => ?_⟩
  · have hnames : ordered.map OrderedStage.name = stages.map Stage.name := by
      refine List.ext_getElem? fun s => ?_
      rw [List.getElem?_map, List.getElem?_map]
      cases ho : ordered[s]? with
      | none =>
          rw [List.getElem?_eq_none (h.orders.emits.length ▸ List.getElem?_eq_none_iff.mp ho)]
          rfl
      | some o =>
          obtain ⟨stage, _, hs, _, hemitted, _⟩ := h.exists_stage ho
          rw [hs, Option.map_some, Option.map_some, hemitted.name]
    rw [hnames]
    exact h.distinct.names
  · exact h.nodup_names Action.outputs (fun id a he => (h.legible_action he).regular.outputs)
      fun x id id' a a' he he' hx hx' =>
        claims_unique h.orders.granted.outputs (h.claims_outputs he hx) (h.claims_outputs he' hx')
  · obtain ⟨i, he⟩ := h.exists_emittedAt ho ha
    obtain ⟨stage, action, hat, hmade⟩ := h.exists_action he
    obtain ⟨id', ⟨stage', action', hat', hx'⟩, hle⟩ :=
      h.orders.granted.inputs ⟨s, i⟩ x ⟨stage, action, hat, hmade.inputs ▸ hx⟩
    obtain ⟨as', o', has', ho', hemitted⟩ := h.orders.emits.stage hat'.hs
    obtain ⟨b, hb, hmadeb⟩ := Outcome.exists_right hemitted.actions hat'.ha
    exact ⟨id'.stage, o', ho', hle, b, hemitted.perm.mem_iff.mp (List.mem_of_getElem? hb), hmadeb.outputs ▸ hx'⟩
  · refine h.nodup_names Registered.asked (fun id a he => nodup_asked _) ?_
    intro x id id' a a' he he' hx hx'
    have hget : ∀ {id a}, EmittedAt made id a → x ∈ Registered.asked a.reread → l.namespaces.get? id = some x := by
      intro id a he hx
      rw [← (h.orders.of_emittedAt he).1]
      exact Option.mem_toList.mp hx
    exact h.sound.injective (hget he hx) (hget he' hx')
  · obtain ⟨s, ho⟩ := List.getElem?_of_mem hm
    obtain ⟨_, _, _, _, hemitted, _⟩ := h.exists_stage ho
    exact hemitted.sorted
  · obtain ⟨s, ho⟩ := List.getElem?_of_mem hm
    obtain ⟨i, hi⟩ := h.exists_emittedAt ho ha
    obtain ⟨j, hj⟩ := h.exists_emittedAt ho hb
    exact h.lt_of_input hi hj hx hx'

end Built
end Pipeline
end Shorthand
