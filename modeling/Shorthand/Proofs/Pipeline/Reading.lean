import Shorthand.Pipeline.Action
import Shorthand.Proofs.Outcome
import Shorthand.Proofs.WellFormed

/-!
# Actions as they are read

Every part of an action is read from what stands under its own key, and what is left goes into the configuration.
An action that was read has all that its kind asks for.
-/
namespace Shorthand.Pipeline

/-! ## Types and kinds -/

namespace ActionType

/-- No part is empty. -/
structure Filled (t : ActionType) : Prop where
  category : t.category ≠ ""
  owner : t.owner ≠ ""
  provider : t.provider ≠ ""
  version : t.version ≠ ""

theorem field_eq_ok {context key s : String} {node : Node} :
    field context node key = .ok s ↔ (node.get? key).map Node.plainText = some s ∧ s ≠ "" := by
  unfold field
  split
  · rename_i s' hs
    rw [hs, Option.some.injEq]
    split
    · rename_i he
      simp only [field.missing, reduceCtorEq, false_iff, not_and]
      rintro rfl
      exact not_not.mpr he
    · rename_i hne
      rw [Except.ok.injEq]
      exact ⟨fun h => ⟨h, h ▸ hne⟩, And.left⟩
  · rename_i hs
    simp [hs, field.missing]

theorem filled_of_ofNode {context : String} {node : Node} {t : ActionType} (h : ofNode context node = .ok t) :
    t.Filled := by
  obtain ⟨_, hc, h⟩ := Outcome.bind_eq_ok.mp h
  obtain ⟨_, ho, h⟩ := Outcome.bind_eq_ok.mp h
  obtain ⟨_, hp, h⟩ := Outcome.bind_eq_ok.mp h
  obtain ⟨_, hv, h⟩ := Outcome.bind_eq_ok.mp h
  obtain rfl := Except.ok.inj h
  exact ⟨(field_eq_ok.mp hc).2, (field_eq_ok.mp ho).2, (field_eq_ok.mp hp).2, (field_eq_ok.mp hv).2⟩

theorem ofNode_toNode {t : ActionType} (h : t.Filled) (context : String) : ofNode context t.toNode = .ok t := by
  have hc : field context t.toNode "Category" = .ok t.category := field_eq_ok.mpr ⟨rfl, h.category⟩
  have ho : field context t.toNode "Owner" = .ok t.owner := field_eq_ok.mpr ⟨rfl, h.owner⟩
  have hp : field context t.toNode "Provider" = .ok t.provider := field_eq_ok.mpr ⟨rfl, h.provider⟩
  have hv : field context t.toNode "Version" = .ok t.version := field_eq_ok.mpr ⟨rfl, h.version⟩
  rw [ofNode, hc, ho, hp, hv]
  rfl

end ActionType

theorem ActionKind.filled_type? {kind : ActionKind} {type : ActionType} (h : kind.type? = some type) :
    type.Filled := by
  cases kind <;> cases h <;> exact ⟨by decide, by decide, by decide, by decide⟩

theorem ActionKind.ofType_type? {kind : ActionKind} {type : ActionType} (h : kind.type? = some type) :
    ofType type = kind := by
  cases kind <;> cases h <;> rfl

namespace Action

/-- Where not both are given, the type tells the kind. -/
theorem of_readKind {context : String} {tag type : Option Node} {out : ActionKind × ActionType}
    (h : readKind context tag type = .ok out) (hone : tag = none ∨ type = none) :
    out.1 = ActionKind.ofType out.2 ∧ out.2.Filled := by
  unfold readKind at h
  split at h
  · split at h
    · cases h
    · rename_i kind _
      split at h
      · rename_i ht
        obtain rfl := Except.ok.inj h
        exact ⟨(ActionKind.ofType_type? ht).symm, ActionKind.filled_type? ht⟩
      · cases h
  · obtain ⟨type, ht, h⟩ := Outcome.bind_eq_ok.mp h
    obtain rfl := Except.ok.inj h
    exact ⟨rfl, ActionType.filled_of_ofNode ht⟩
  · rcases hone with ho | ho <;> cases ho
  · cases h

/-! ## Keys -/

/-- The keys of a declaration that mean the same for every kind. -/
def sharedKeys : List String :=
  ["Type", "ActionTypeId", "InputArtifacts", "OutputArtifacts", "DependsOn", "Namespace", "RunOrder", "Condition",
    "Configuration"]

/-- The entries that stay on the action. -/
def ownEntries (t : Table Node) : Table Node := Table.present (ownKeys.map fun key => (key, Table.get? t key))

theorem foldl_splitOwn {keys : List String} (hk : keys.Nodup) (own t : Table Node) :
    keys.foldl (fun (own, body) key =>
      match Table.take body key with
      | (some value, body) => (own ++ [(key, value)], body)
      | (none, _) => (own, body)) (own, t) =
      (own ++ Table.present (keys.map fun key => (key, Table.get? t key)), keys.foldl Table.erase t) := by
  induction keys generalizing own t with
  | nil => simp [Table.present]
  | cons key keys ih =>
      obtain ⟨hnew, hk⟩ := List.nodup_cons.mp hk
      have hrest : (keys.map fun other => (other, Table.get? (Table.erase t key) other)) =
          keys.map fun other => (other, Table.get? t other) := by
        refine List.map_congr_left fun other hm => ?_
        rw [Table.get?_erase_of_ne t fun he : key = other => hnew (he ▸ hm)]
      simp only [List.foldl_cons, List.map_cons, Table.take, Table.present_cons]
      cases hg : Table.get? t key with
      | none =>
          have herase : Table.erase t key = t := Table.erase_of_not_mem (Table.get?_eq_none_iff.mp hg)
          rw [herase]
          exact ih hk own t
      | some value =>
          have hstep := ih hk (own ++ [(key, value)]) (Table.erase t key)
          rw [hrest, List.append_assoc] at hstep
          exact hstep

theorem splitOwn_eq (t : Table Node) : splitOwn t = (ownEntries t, ownKeys.foldl Table.erase t) :=
  foldl_splitOwn (by decide) [] t

theorem distinct_ownSlots (t : Table Node) : Table.Distinct (ownKeys.map fun key => (key, Table.get? t key)) := by
  rw [Table.Distinct, Table.keys, List.map_map]
  exact (by decide : ownKeys.Nodup)

theorem distinct_ownEntries (t : Table Node) : Table.Distinct (ownEntries t) :=
  Table.distinct_present (distinct_ownSlots t)

theorem get?_ownEntries (t : Table Node) {key : String} (hk : key ∈ ownKeys) :
    Table.get? (ownEntries t) key = Table.get? t key := by
  have hd := distinct_ownSlots t
  rw [ownEntries, Table.get?_present hd, hd.get?_of_mem (List.mem_map_of_mem hk), Option.join_some]

theorem mem_ownKeys_of_mem {t : Table Node} {e : String × Node} (h : e ∈ ownEntries t) : e.1 ∈ ownKeys := by
  have hk : e.1 ∈ Table.keys (ownKeys.map fun key => (key, Table.get? t key)) :=
    (Table.keys_present_sublist _).subset (List.mem_map_of_mem h)
  simpa [Table.keys] using hk

/-! ## Parts -/

/-- What an action is read from: its parts are under their keys, and its kind takes what is left. -/
structure ReadFrom (context : String) (compiler : Fragment.Compiler) (t : Table Node) (action : Action)
    (compiler' : Fragment.Compiler) : Prop where
  kind : readKind context (Table.get? t "Type") (Table.get? t "ActionTypeId") = .ok (action.kind, action.type)
  configuration : ∃ declared settings, readConfiguration context (Table.get? t "Configuration") = .ok declared ∧
    configure context compiler ⟨(sharedKeys ++ ownKeys).foldl Table.erase t, declared⟩ action.kind =
      .ok (settings, action.overrides, compiler') ∧
    action.configuration = Table.putAll settings.configuration settings.body
  extra : action.extra = ownEntries t
  inputs : readArtifacts context "InputArtifacts" (Table.get? t "InputArtifacts") = .ok action.inputs
  outputs : readArtifacts context "OutputArtifacts" (Table.get? t "OutputArtifacts") = .ok action.outputs
  dependsOn : readDependsOn context (Table.get? t "DependsOn") = .ok action.dependsOn
  ownNamespace : readName context "Namespace" (Table.get? t "Namespace") = .ok action.ownNamespace
  runOrder : readRunOrder context (Table.get? t "RunOrder") = .ok action.runOrder
  condition : readName context "Condition" (Table.get? t "Condition") = .ok action.condition

/-- To take one key does not hide another. -/
theorem ownEntries_foldl_erase {gone : List String} (h : ∀ key ∈ gone, key ∉ ownKeys) (t : Table Node) :
    ownEntries (gone.foldl Table.erase t) = ownEntries t := by
  induction gone generalizing t with
  | nil => rfl
  | cons key gone ih =>
      obtain ⟨hkey, h⟩ := List.forall_mem_cons.mp h
      rw [List.foldl_cons, ih h]
      refine congrArg Table.present (List.map_congr_left fun other hm => ?_)
      rw [Table.get?_erase_of_ne t fun he : key = other => hkey (he ▸ hm)]

theorem ofNode_eq_ok_iff {context name : String} {compiler compiler' : Fragment.Compiler} {node : Node}
    {action : Action} : ofNode context compiler name node = .ok (action, compiler') ↔
      node.isMap = true ∧ action.name = name ∧
        ReadFrom s!"{context} action '{name}'" compiler node.entries action compiler' := by
  have hextra := ownEntries_foldl_erase (by decide : ∀ key ∈ sharedKeys, key ∉ ownKeys) node.entries
  have hbody : (sharedKeys ++ ownKeys).foldl Table.erase node.entries =
      ownKeys.foldl Table.erase (sharedKeys.foldl Table.erase node.entries) := List.foldl_append
  simp only [sharedKeys, List.foldl_cons, List.foldl_nil] at hextra hbody
  unfold ofNode
  simp only [Table.take, splitOwn_eq, hextra, ← hbody]
  generalize s!"{context} action '{name}'" = place
  split
  · rename_i hm
    rw [Bool.not_eq_true'] at hm
    simp [hm]
  · rename_i hm
    rw [Bool.not_eq_true, Bool.not_eq_false'] at hm
    simp (disch := decide) only [Table.get?_erase_of_ne, hm, true_and]
    simp only [Outcome.bind_eq_ok]
    constructor
    · rintro ⟨⟨kind, type⟩, hkind, declared, hd, ⟨settings, overrides, c⟩, hs, inputs, hi, outputs, ho, dependsOn, hdep,
        own, hown, runOrder, hr, condition, hc, h⟩
      obtain ⟨rfl, rfl⟩ := Prod.mk.inj (Except.ok.inj h)
      exact ⟨rfl, hkind, ⟨declared, settings, hd, hs, rfl⟩, rfl, hi, ho, hdep, hown, hr, hc⟩
    · rintro ⟨rfl, hkind, ⟨declared, settings, hd, hs, hconf⟩, hx, hi, ho, hdep, hown, hr, hc⟩
      refine ⟨_, hkind, declared, hd, _, hs, _, hi, _, ho, _, hdep, _, hown, _, hr, _, hc, ?_⟩
      rw [← hconf, ← hx]

/-! ## Values -/

theorem ne_empty_of_readName {context key : String} {node : Option Node} {out : Option String}
    (h : readName context key node = .ok out) : out ≠ some "" := by
  unfold readName at h
  split at h
  · exact Except.ok.inj h ▸ nofun
  · exact Except.ok.inj h ▸ nofun
  · split at h
    · cases h
    · rename_i hne
      rw [← Except.ok.inj h]
      exact fun he => hne (Option.some.inj he)
  · cases h

theorem one_le_of_readRunOrder {context : String} {node : Option Node} {r : UInt64}
    (h : readRunOrder context node = .ok (some r)) : 1 ≤ r := by
  unfold readRunOrder at h
  split at h
  · cases h
  · cases h
  · rename_i n
    split at h
    · rename_i hn
      obtain rfl := Option.some.inj (Except.ok.inj h)
      have hlt : n.toNat < UInt64.size := by omega
      have hnat : (UInt64.ofNat n.toNat).toNat = n.toNat := UInt64.toNat_ofNat_of_lt' hlt
      rw [UInt64.le_iff_toNat_le, UInt64.toNat_one, hnat]
      omega
    · cases h
  · cases h

theorem readRunOrder_whole (context : String) {r : UInt64} (h : 1 ≤ r) :
    readRunOrder context (some (.whole r.toNat)) = .ok (some r) := by
  rw [UInt64.le_iff_toNat_le, UInt64.toNat_one] at h
  have hlt : r.toNat < UInt64.size := r.toNat_lt_size
  have hn : (1 : Int) ≤ r.toNat ∧ (r.toNat : Int) < UInt64.size := by omega
  rw [Node.whole, readRunOrder, if_pos hn, Int.toNat_natCast, UInt64.ofNat_toNat]

theorem nodup_of_collectArtifacts {context key : String} {names out : List String} {items : List Node}
    (hn : names.Nodup) (h : collectArtifacts context key names items = .ok out) : out.Nodup := by
  induction items generalizing names with
  | nil => exact Except.ok.inj h ▸ hn
  | cons item items ih =>
      obtain ⟨name, _, h⟩ := Outcome.bind_eq_ok.mp h
      split at h
      · cases h
      · rename_i hc
        rw [List.contains_iff_mem] at hc
        exact ih (nodup_snoc hn hc) h

theorem nodup_of_readArtifacts {context key : String} {node : Option Node} {out : List String}
    (h : readArtifacts context key node = .ok out) : out.Nodup := by
  unfold readArtifacts at h
  split at h
  · exact Except.ok.inj h ▸ List.nodup_nil
  · exact Except.ok.inj h ▸ List.nodup_nil
  · exact Except.ok.inj h ▸ List.nodup_singleton _
  · exact nodup_of_collectArtifacts List.nodup_nil h
  · cases h

/-! ## Configurations -/

/-- A configuration has all that an action of this kind needs. -/
def Configured (t : Table Node) : ActionKind → Prop
  | .build => "ProjectName" ∈ Table.keys t
  | .s3Source => "S3Bucket" ∈ Table.keys t ∧ "S3ObjectKey" ∈ Table.keys t ∧ "PollForSourceChanges" ∈ Table.keys t
  | .s3Deploy => "BucketName" ∈ Table.keys t ∧ ∃ extract, Table.get? t "Extract" = some extract ∧
      (extract = .bool false → "ObjectKey" ∈ Table.keys t)
  | .ecrSource => "RepositoryName" ∈ Table.keys t ∧ "ImageTag" ∈ Table.keys t
  | .cloudFormation => "ActionMode" ∈ Table.keys t
  | .generic => True

theorem mem_keys_of_require {s : Settings} {context key shown : String} {u : Unit}
    (h : s.require context key shown = .ok u) : key ∈ Table.keys s.configuration := by
  unfold Settings.require at h
  split at h
  · rename_i hk
    exact Table.has_iff_mem_keys.mp hk
  · cases h

theorem require_of_mem_keys {s : Settings} {key : String} (h : key ∈ Table.keys s.configuration)
    (context shown : String) : s.require context key shown = .ok () :=
  if_pos (Table.has_iff_mem_keys.mpr h)

namespace Settings

/-- No key is given twice, neither on the action nor in the configuration. -/
structure Distinct (s : Settings) : Prop where
  body : Table.Distinct s.body
  configuration : Table.Distinct s.configuration

namespace Distinct
variable {s : Settings}

theorem move (h : s.Distinct) (key new : String) : (s.move key new).Distinct := by
  unfold Settings.move Table.take
  split
  · rename_i he
    obtain ⟨-, rfl⟩ := Prod.mk.inj he
    exact ⟨h.body.of_sublist (Table.erase_sublist _ _), h.configuration.put _ _⟩
  · exact h

theorem put (h : s.Distinct) (key : String) (value : Node) : (s.put key value).Distinct :=
  ⟨h.body, h.configuration.put _ _⟩

theorem putNew (h : s.Distinct) (key : String) (value : Node) : (s.putNew key value).Distinct := by
  refine ⟨h.body, ?_⟩
  rw [Settings.putNew, Table.putNew]
  split
  · exact h.configuration
  · exact h.configuration.put _ _

theorem takeEither (h : s.Distinct) (key : String) :
    (s.takeEither key).2.Distinct ∧ key ∉ Table.keys (s.takeEither key).2.body := by
  unfold Settings.takeEither Table.take
  split
  · rename_i he
    obtain ⟨-, rfl⟩ := Prod.mk.inj he
    exact ⟨⟨h.body.of_sublist (Table.erase_sublist _ _), h.configuration⟩, h.body.not_mem_erase key⟩
  · rename_i he
    obtain ⟨hg, -⟩ := Prod.mk.inj he
    exact ⟨⟨h.body, h.configuration.of_sublist (Table.erase_sublist _ _)⟩, Table.get?_eq_none_iff.mp hg⟩

end Distinct
end Settings

theorem mem_keys_takeEither {s : Settings} {key other : String} (hne : key ≠ other)
    (h : other ∈ Table.keys s.configuration) : other ∈ Table.keys (s.takeEither key).2.configuration := by
  unfold Settings.takeEither Table.take
  split
  · exact h
  · obtain ⟨value, hg⟩ := Table.exists_get?_of_mem_keys h
    exact Table.mem_keys_of_get? ((Table.get?_erase_of_ne _ hne).trans hg)

/-- The settings without one of the action's own keys. -/
def Settings.drop (s : Settings) (key : String) : Settings := { s with body := Table.erase s.body key }

theorem Settings.Distinct.drop {s : Settings} (hd : s.Distinct) (key : String) : (s.drop key).Distinct :=
  ⟨hd.body.of_sublist (Table.erase_sublist _ _), hd.configuration⟩

/-- The settings of a kind once its keys were moved to where they go. -/
def Settings.moved (s : Settings) : ActionKind → Settings
  | .build => s.move "Project" "ProjectName"
  | .s3Source => (s.move "Bucket" "S3Bucket").move "Key" "S3ObjectKey"
  | .s3Deploy => (s.move "Bucket" "BucketName").move "ObjectKey" "ObjectKey"
  | .ecrSource => s.move "Repository" "RepositoryName"
  | .cloudFormation | .generic => s

theorem Settings.Distinct.moved {s : Settings} (hd : s.Distinct) (kind : ActionKind) : (s.moved kind).Distinct := by
  cases kind with
  | build => exact hd.move _ _
  | s3Source => exact (hd.move _ _).move _ _
  | s3Deploy => exact (hd.move _ _).move _ _
  | ecrSource => exact hd.move _ _
  | cloudFormation | generic => exact hd

/-- All that a kind can make of its settings. -/
inductive Configures (context : String) (compiler : Fragment.Compiler) (s : Settings) :
    ActionKind → Settings → Option Node → Fragment.Compiler → Prop
  | build (hk : "ProjectName" ∈ Table.keys (s.moved .build).configuration)
      (hg : Table.get? (s.moved .build).body "EnvironmentVariables" = none) :
      Configures context compiler s .build (s.moved .build) none compiler
  | compiled {value text : Node} {compiler' : Fragment.Compiler}
      (hk : "ProjectName" ∈ Table.keys (s.moved .build).configuration)
      (hg : Table.get? (s.moved .build).body "EnvironmentVariables" = some value)
      (he : environment context compiler value = .ok (text, compiler')) :
      Configures context compiler s .build
        (((s.moved .build).drop "EnvironmentVariables").put "EnvironmentVariables" text) none compiler'
  | s3Source (hb : "S3Bucket" ∈ Table.keys (s.moved .s3Source).configuration)
      (hk : "S3ObjectKey" ∈ Table.keys (s.moved .s3Source).configuration) :
      Configures context compiler s .s3Source ((s.moved .s3Source).putNew "PollForSourceChanges" (.bool false)) none
        compiler
  | s3Deploy (hb : "BucketName" ∈ Table.keys (s.moved .s3Deploy).configuration)
      (hx : ((s.moved .s3Deploy).takeEither "Extract").1.getD (.bool true) = .bool false →
        "ObjectKey" ∈ Table.keys ((s.moved .s3Deploy).takeEither "Extract").2.configuration) :
      Configures context compiler s .s3Deploy
        (((s.moved .s3Deploy).takeEither "Extract").2.put "Extract"
          (((s.moved .s3Deploy).takeEither "Extract").1.getD (.bool true))) none compiler
  | ecrSource (hr : "RepositoryName" ∈ Table.keys (s.moved .ecrSource).configuration) :
      Configures context compiler s .ecrSource
        (((s.moved .ecrSource).drop "ImageTag").putNew "ImageTag"
          ((Table.get? (s.moved .ecrSource).body "ImageTag").getD (.text "latest"))) none compiler
  | cloudFormation :
      Configures context compiler s .cloudFormation
        ((s.takeEither "ParameterOverrides").2.putNew "ActionMode" (.text "CREATE_UPDATE"))
        (s.takeEither "ParameterOverrides").1 compiler
  | generic : Configures context compiler s .generic s none compiler

theorem configures_of_configure {context : String} {compiler compiler' : Fragment.Compiler} {s s' : Settings}
    {kind : ActionKind} {overrides : Option Node}
    (h : configure context compiler s kind = .ok (s', overrides, compiler')) :
    Configures context compiler s kind s' overrides compiler' := by
  cases kind with
  | build =>
      obtain ⟨_, hr, h⟩ := Outcome.bind_eq_ok.mp h
      split at h
      · rename_i he
        obtain ⟨hg, rfl⟩ := Prod.mk.inj he
        obtain ⟨⟨text, c⟩, htext, h⟩ := Outcome.bind_eq_ok.mp h
        obtain ⟨rfl, hrest⟩ := Prod.mk.inj (Except.ok.inj h)
        obtain ⟨rfl, rfl⟩ := Prod.mk.inj hrest
        exact .compiled (mem_keys_of_require hr) hg htext
      · rename_i he
        obtain ⟨rfl, hrest⟩ := Prod.mk.inj (Except.ok.inj h)
        obtain ⟨rfl, rfl⟩ := Prod.mk.inj hrest
        exact .build (mem_keys_of_require hr) (Prod.mk.inj he).1
  | s3Source =>
      obtain ⟨_, hb, h⟩ := Outcome.bind_eq_ok.mp h
      obtain ⟨_, hk, h⟩ := Outcome.bind_eq_ok.mp h
      obtain ⟨rfl, hrest⟩ := Prod.mk.inj (Except.ok.inj h)
      obtain ⟨rfl, rfl⟩ := Prod.mk.inj hrest
      exact .s3Source (mem_keys_of_require hb) (mem_keys_of_require hk)
  | s3Deploy =>
      obtain ⟨_, hb, h⟩ := Outcome.bind_eq_ok.mp h
      dsimp only at h
      split at h
      · cases h
      · rename_i hcheck
        obtain ⟨rfl, hrest⟩ := Prod.mk.inj (Except.ok.inj h)
        obtain ⟨rfl, rfl⟩ := Prod.mk.inj hrest
        exact .s3Deploy (mem_keys_of_require hb) fun hfalse =>
          Table.has_iff_mem_keys.mp ((Bool.not_eq_false _).mp (hcheck hfalse))
  | ecrSource =>
      obtain ⟨_, hr, h⟩ := Outcome.bind_eq_ok.mp h
      obtain ⟨rfl, hrest⟩ := Prod.mk.inj (Except.ok.inj h)
      obtain ⟨rfl, rfl⟩ := Prod.mk.inj hrest
      exact .ecrSource (mem_keys_of_require hr)
  | cloudFormation =>
      obtain ⟨rfl, hrest⟩ := Prod.mk.inj (Except.ok.inj h)
      obtain ⟨rfl, rfl⟩ := Prod.mk.inj hrest
      exact .cloudFormation
  | generic =>
      obtain ⟨rfl, hrest⟩ := Prod.mk.inj (Except.ok.inj h)
      obtain ⟨rfl, rfl⟩ := Prod.mk.inj hrest
      exact .generic

/-- What is left of the keys is put into the configuration, which then has all that the kind needs. -/
theorem Configures.configured {context : String} {compiler compiler' : Fragment.Compiler} {s s' : Settings}
    {kind : ActionKind} {overrides : Option Node} (h : Configures context compiler s kind s' overrides compiler')
    (hd : s.Distinct) : s'.Distinct ∧ Configured (Table.putAll s'.configuration s'.body) kind := by
  cases h with
  | build hk _ => exact ⟨hd.moved .build, Table.mem_keys_putAll.mpr (.inl hk)⟩
  | compiled hk _ _ =>
      refine ⟨((hd.moved .build).drop _).put _ _, ?_⟩
      exact Table.mem_keys_putAll.mpr (.inl (Table.mem_keys_put.mpr (.inl hk)))
  | s3Source hb hk =>
      refine ⟨(hd.moved .s3Source).putNew _ _, ?_⟩
      simp only [Configured, Table.mem_keys_putAll, Settings.putNew, Table.mem_keys_putNew]
      exact ⟨.inl (.inl hb), .inl (.inl hk), .inl (.inr trivial)⟩
  | s3Deploy hb hx =>
      obtain ⟨ht, hnot⟩ := (hd.moved .s3Deploy).takeEither "Extract"
      have hkept := mem_keys_takeEither (by decide : "Extract" ≠ "BucketName") hb
      refine ⟨ht.put _ _, Table.mem_keys_putAll.mpr (.inl (Table.mem_keys_put.mpr (.inl hkept))), _,
        (Table.get?_putAll_of_not_mem hnot).trans (Table.get?_put_self _ _ _), fun hfalse => ?_⟩
      exact Table.mem_keys_putAll.mpr (.inl (Table.mem_keys_put.mpr (.inl (hx hfalse))))
  | ecrSource hr =>
      refine ⟨((hd.moved .ecrSource).drop _).putNew _ _, ?_⟩
      simp only [Configured, Table.mem_keys_putAll, Settings.putNew, Table.mem_keys_putNew]
      exact ⟨.inl (.inl hr), .inl (.inr trivial)⟩
  | cloudFormation =>
      obtain ⟨ht, -⟩ := hd.takeEither "ParameterOverrides"
      refine ⟨ht.putNew _ _, Table.mem_keys_putAll.mpr (.inl ?_)⟩
      exact Table.mem_keys_putNew.mpr (.inr rfl)
  | generic => exact ⟨hd, trivial⟩

/-- Where no overrides are given, none are left in the configuration. -/
theorem Configures.not_mem {context : String} {compiler compiler' : Fragment.Compiler} {s s' : Settings}
    (h : Configures context compiler s .cloudFormation s' none compiler') :
    "ParameterOverrides" ∉ Table.keys (Table.putAll s'.configuration s'.body) := by
  generalize ho : (none : Option Node) = overrides at h
  cases h
  have hnone := ho.symm
  rw [Settings.putNew, Table.mem_keys_putAll, Table.mem_keys_putNew]
  unfold Settings.takeEither Table.take at hnone ⊢
  split at hnone
  · cases hnone
  · rename_i he
    have hbody := Table.get?_eq_none_iff.mp (Prod.mk.inj he).1
    have hconfiguration := Table.get?_eq_none_iff.mp hnone
    simp only [Table.erase_of_not_mem hconfiguration]
    exact not_or.mpr ⟨not_or.mpr ⟨hconfiguration, by decide⟩, hbody⟩

/-- What a configuration that stands alone is read as: its overrides are taken out, and one key goes last. -/
def alone (t : Table Node) : ActionKind → Table Node × Option Node
  | .s3Deploy => (Table.moveLast t "Extract", none)
  | .cloudFormation => (Table.erase t "ParameterOverrides", Table.get? t "ParameterOverrides")
  | _ => (t, none)

theorem mem_of_mem_alone {t : Table Node} (hd : Table.Distinct t) {kind : ActionKind} {e : String × Node}
    (h : e ∈ (alone t kind).1) : e ∈ t := by
  cases kind with
  | s3Deploy => exact (hd.perm_moveLast "Extract").mem_iff.mpr h
  | cloudFormation => exact (Table.erase_sublist t "ParameterOverrides").subset h
  | build | generic | s3Source | ecrSource => exact h

theorem of_alone_eq_some {t : Table Node} {kind : ActionKind} {node : Node} (h : (alone t kind).2 = some node) :
    kind = .cloudFormation ∧ Table.get? t "ParameterOverrides" = some node := by
  cases kind with
  | cloudFormation => exact ⟨rfl, h⟩
  | build | generic | s3Source | s3Deploy | ecrSource => cases h

/-- The overrides that were taken out go last. -/
theorem perm_alone {t : Table Node} (hd : Table.Distinct t) (kind : ActionKind) :
    t.Perm ((alone t kind).2.elim (alone t kind).1 fun node =>
      Table.put (alone t kind).1 "ParameterOverrides" node) := by
  cases kind with
  | s3Deploy => exact hd.perm_moveLast "Extract"
  | cloudFormation =>
      have hlast := hd.perm_moveLast "ParameterOverrides"
      simp only [alone]
      unfold Table.moveLast at hlast
      cases hg : Table.get? t "ParameterOverrides" with
      | none => rw [Option.elim_none, Table.erase_of_not_mem (Table.get?_eq_none_iff.mp hg)]
      | some node =>
          rw [hg] at hlast
          exact hlast
  | build | generic | s3Source | ecrSource => exact .refl t

theorem putNew_of_mem {t : Table Node} {key : String} (h : key ∈ Table.keys t) (value : Node) :
    Table.putNew t key value = t := if_pos (Table.has_iff_mem_keys.mpr h)

/-- A configuration that has all that the kind needs is read as it is. -/
theorem configure_alone {t : Table Node} {kind : ActionKind} (h : Configured t kind) (context : String)
    (compiler : Fragment.Compiler) :
    configure context compiler ⟨[], t⟩ kind = .ok (⟨[], (alone t kind).1⟩, (alone t kind).2, compiler) := by
  cases kind with
  | build => exact Outcome.bind_eq_ok.mpr ⟨(), require_of_mem_keys h _ _, rfl⟩
  | s3Source =>
      obtain ⟨hb, hk, hp⟩ := h
      refine Outcome.bind_eq_ok.mpr ⟨(), require_of_mem_keys hb _ _, ?_⟩
      refine Outcome.bind_eq_ok.mpr ⟨(), require_of_mem_keys hk _ _, ?_⟩
      exact congrArg (fun t => Except.ok ((⟨[], t⟩ : Settings), none, compiler)) (putNew_of_mem hp _)
  | s3Deploy =>
      obtain ⟨hb, extract, hx, hobject⟩ := h
      refine Outcome.bind_eq_ok.mpr ⟨(), require_of_mem_keys hb _ _, ?_⟩
      have htaken : Settings.takeEither ⟨[], t⟩ "Extract" = (some extract, ⟨[], Table.erase t "Extract"⟩) := by
        rw [← hx]
        rfl
      have hkey : extract = .bool false → Table.has (Table.erase t "Extract") "ObjectKey" = true := by
        intro he
        obtain ⟨value, hv⟩ := Table.exists_get?_of_mem_keys (hobject he)
        rw [Table.has, Table.get?_erase_of_ne t (by decide), hv]
        rfl
      have hlast : Table.put (Table.erase t "Extract") "Extract" extract = Table.moveLast t "Extract" := by
        rw [Table.moveLast, hx]
      simp only [Settings.move, Table.take, Table.get?_nil, htaken, Option.getD_some]
      split
      · rename_i hnone
        exact Bool.noConfusion ((hkey rfl).symm.trans hnone)
      · rw [Settings.put, hlast]
        rfl
  | ecrSource =>
      obtain ⟨hr, hi⟩ := h
      refine Outcome.bind_eq_ok.mpr ⟨(), require_of_mem_keys hr _ _, ?_⟩
      exact congrArg (fun t => Except.ok ((⟨[], t⟩ : Settings), none, compiler)) (putNew_of_mem hi _)
  | cloudFormation =>
      obtain ⟨mode, hm⟩ := Table.exists_get?_of_mem_keys h
      have hm : "ActionMode" ∈ Table.keys (Table.erase t "ParameterOverrides") :=
        Table.mem_keys_of_get? ((Table.get?_erase_of_ne t (by decide)).trans hm)
      exact congrArg (fun u => Except.ok ((⟨[], u⟩ : Settings), Table.get? t "ParameterOverrides", compiler))
        (putNew_of_mem hm _)
  | generic => rfl

/-! ## Actions that were read -/

/-- What any action is like that was read from one of a tag and a type. -/
structure Regular (a : Action) : Prop where
  filled : a.type.Filled
  kind : a.kind = ActionKind.ofType a.type
  configured : Configured a.configuration a.kind
  distinct : Table.Distinct a.configuration
  inputs : a.inputs.Nodup
  outputs : a.outputs.Nodup
  ownNamespace : a.ownNamespace ≠ some ""
  runOrder : ∀ r, a.runOrder = some r → 1 ≤ r
  extra : ownEntries a.extra = a.extra
  given : ∀ e ∈ a.extra, e.2.isNull = false

theorem ownEntries_ownEntries (t : Table Node) : ownEntries (ownEntries t) = ownEntries t := by
  refine congrArg Table.present (List.map_congr_left fun key hk => ?_)
  rw [get?_ownEntries t hk]

theorem mem_of_mem_ownEntries {t : Table Node} {e : String × Node} (h : e ∈ ownEntries t) : e ∈ t := by
  obtain ⟨⟨key, value⟩, hm, he⟩ := List.mem_filterMap.mp h
  obtain ⟨_, _, hs⟩ := List.mem_map.mp hm
  obtain ⟨rfl, rfl⟩ := Prod.mk.inj hs
  obtain ⟨value, hg, rfl⟩ := Option.map_eq_some_iff.mp he
  exact Table.mem_of_get? hg

theorem distinct_of_readConfiguration {context : String} {t declared : Table Node} (hw : (Node.map t).WellFormed)
    (h : readConfiguration context (Table.get? t "Configuration") = .ok declared) : Table.Distinct declared := by
  unfold readConfiguration at h
  split at h
  · exact Except.ok.inj h ▸ List.nodup_nil
  · rename_i hg
    obtain rfl := Except.ok.inj h
    exact (hw.of_get? hg).distinct
  · cases h

/-- The entries of a declaration that its kind takes. To compare such a table with another would go through every
erasure, so only the next lemmas open it. -/
@[irreducible] def kindEntries (t : Table Node) : Table Node := (sharedKeys ++ ownKeys).foldl Table.erase t

theorem get?_kindEntries {key : String} (hs : key ∉ sharedKeys) (ho : key ∉ ownKeys) (t : Table Node) :
    Table.get? (kindEntries t) key = Table.get? t key := by
  have hkey : key ∉ sharedKeys ++ ownKeys := fun hm => (List.mem_append.mp hm).elim hs ho
  rw [kindEntries, Table.get?_foldl_erase hkey]

theorem keys_kindEntries_subset (t : Table Node) : Table.keys (kindEntries t) ⊆ Table.keys t := by
  rw [kindEntries]
  exact ((Table.foldl_erase_sublist _ t).map Prod.fst).subset

theorem distinct_kindEntries {t : Table Node} (hd : Table.Distinct t) :
    Table.Distinct (kindEntries t) ∧ ∀ key ∈ Table.keys (kindEntries t), key ∉ sharedKeys ∧ key ∉ ownKeys := by
  obtain ⟨hdistinct, hgone⟩ := hd.foldl_erase (sharedKeys ++ ownKeys)
  rw [← kindEntries] at hdistinct hgone
  refine ⟨hdistinct, fun key hm => ⟨fun hs => ?_, fun ho => ?_⟩⟩
  · exact hgone key (List.mem_append_left _ hs) hm
  · exact hgone key (List.mem_append_right _ ho) hm

theorem ReadFrom.regular {context : String} {compiler compiler' : Fragment.Compiler} {t : Table Node} {a : Action}
    (h : ReadFrom context compiler t a compiler') (hw : (Node.map t).WellFormed)
    (ht : ∀ e ∈ t, e.2.isNull = false) (hone : "Type" ∉ Table.keys t ∨ "ActionTypeId" ∉ Table.keys t) : a.Regular := by
  obtain ⟨declared, settings, hd, hs, hc⟩ := h.configuration
  rw [← kindEntries] at hs
  have hdistinct : Settings.Distinct ⟨kindEntries t, declared⟩ :=
    ⟨(distinct_kindEntries hw.distinct).1, distinct_of_readConfiguration hw hd⟩
  obtain ⟨hsettings, hconfigured⟩ := (configures_of_configure hs).configured hdistinct
  obtain ⟨hkind, hfilled⟩ := of_readKind h.kind (hone.imp Table.get?_eq_none_iff.mpr Table.get?_eq_none_iff.mpr)
  refine ⟨hfilled, hkind, hc ▸ hconfigured, hc ▸ hsettings.configuration.putAll _, nodup_of_readArtifacts h.inputs,
    nodup_of_readArtifacts h.outputs, ne_empty_of_readName h.ownNamespace, fun r hr => ?_, ?_, ?_⟩
  · exact one_le_of_readRunOrder (hr ▸ h.runOrder)
  · rw [h.extra, ownEntries_ownEntries]
  · rw [h.extra]
    exact fun e he => ht e (mem_of_mem_ownEntries he)

/-- Overrides are not in the configuration until the action is linked. -/
theorem ReadFrom.overrides {context : String} {compiler compiler' : Fragment.Compiler} {t : Table Node} {a : Action}
    (h : ReadFrom context compiler t a compiler') (hk : a.kind = .cloudFormation) (ho : a.overrides = none) :
    "ParameterOverrides" ∉ Table.keys a.configuration := by
  obtain ⟨declared, settings, _, hs, hc⟩ := h.configuration
  rw [hk, ho] at hs
  exact hc ▸ (configures_of_configure hs).not_mem

end Action
end Shorthand.Pipeline
