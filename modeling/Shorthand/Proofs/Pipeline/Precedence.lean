import Shorthand.Proofs.Pipeline.Stage

/-!
# An action's own keys and its configuration

The own keys of an action go into its configuration, some of them under another name, and what stands there already is
kept unless an own key takes its place. One key does not take its place: an image tag that the configuration gives
stays, whatever the action itself says.
-/
namespace Shorthand.Pipeline

/-! ## Keys on their way into a configuration -/

namespace Action
namespace Settings
variable {s : Settings}

theorem get?_body_move (hd : s.Distinct) (key new other : String) :
    Table.get? (s.move key new).body other = if key = other then none else Table.get? s.body other := by
  cases hg : Table.get? s.body key with
  | none =>
      simp only [move, Table.take, hg]
      split
      · rename_i hk
        exact hk ▸ hg
      · rfl
  | some value =>
      simp only [move, Table.take, hg]
      exact hd.body.get?_erase key other

theorem get?_configuration_move (s : Settings) (key new other : String) :
    Table.get? (s.move key new).configuration other =
      if new = other then (Table.get? s.body key).or (Table.get? s.configuration new)
      else Table.get? s.configuration other := by
  cases hg : Table.get? s.body key with
  | none =>
      simp only [move, Table.take, hg, Option.none_or]
      split
      · rename_i hk
        rw [hk]
      · rfl
  | some value =>
      simp only [move, Table.take, hg, Option.some_or]
      exact Table.get?_put _ _ _ _

/-- The configuration with what is left of the own keys. -/
def merged (s : Settings) : Table Node := Table.putAll s.configuration s.body

theorem get?_merged (hd : s.Distinct) (key : String) :
    Table.get? s.merged key = (Table.get? s.body key).or (Table.get? s.configuration key) :=
  Table.get?_putAll hd.body s.configuration key

theorem takeEither_fst (hd : s.Distinct) (key : String) : (s.takeEither key).1 = Table.get? s.merged key := by
  rw [get?_merged hd]
  cases hg : Table.get? s.body key <;> simp [takeEither, Table.take, hg]

theorem get?_merged_takeEither (hd : s.Distinct) {key other : String} (hne : key ≠ other) :
    Table.get? (s.takeEither key).2.merged other = Table.get? s.merged other := by
  rw [get?_merged hd, get?_merged (hd.takeEither key).1]
  cases hg : Table.get? s.body key <;> simp [takeEither, Table.take, hg, Table.get?_erase_of_ne _ hne]

theorem get?_merged_drop (hd : s.Distinct) {key other : String} (hne : key ≠ other) :
    Table.get? (s.drop key).merged other = Table.get? s.merged other := by
  rw [get?_merged hd, get?_merged (hd.drop key), drop, Table.get?_erase_of_ne _ hne]

theorem get?_merged_drop_self (hd : s.Distinct) (key : String) :
    Table.get? (s.drop key).merged key = Table.get? s.configuration key := by
  rw [get?_merged (hd.drop key), drop, Table.get?_eq_none_iff.mpr (hd.body.not_mem_erase key), Option.none_or]

theorem get?_merged_put (hd : s.Distinct) {key other : String} (value : Node) (hne : key ≠ other) :
    Table.get? (s.put key value).merged other = Table.get? s.merged other := by
  rw [get?_merged hd, get?_merged (hd.put key value), put, Table.get?_put_of_ne _ value hne]

theorem get?_merged_put_self (hd : s.Distinct) {key : String} (value : Node) (hk : key ∉ Table.keys s.body) :
    Table.get? (s.put key value).merged key = some value := by
  rw [get?_merged (hd.put key value), put, Table.get?_eq_none_iff.mpr hk, Table.get?_put_self, Option.none_or]

theorem get?_merged_putNew (hd : s.Distinct) (key : String) (value : Node) (other : String) :
    Table.get? (s.putNew key value).merged other =
      (Table.get? s.merged other).or (Table.get? [(key, value)] other) := by
  rw [get?_merged hd, get?_merged (hd.putNew key value), putNew, Table.get?_putNew, Table.get?]
  split
  · rename_i hk
    rw [hk, Option.or_some, Option.or_some, Option.getD_or]
  · simp

end Settings
end Action

/-! ## Names in a configuration -/

namespace ActionKind

/-- The keys of a kind that go by another name in the configuration. -/
def renames : ActionKind → Table String
  | build => [("Project", "ProjectName")]
  | s3Source => [("Bucket", "S3Bucket"), ("Key", "S3ObjectKey")]
  | s3Deploy => [("Bucket", "BucketName")]
  | ecrSource => [("Repository", "RepositoryName")]
  | cloudFormation | generic => []

/-- What a kind puts into a configuration that does not say it. -/
def defaults : ActionKind → Table Node
  | s3Source => [("PollForSourceChanges", .bool false)]
  | s3Deploy => [("Extract", .bool true)]
  | ecrSource => [("ImageTag", .text "latest")]
  | cloudFormation => [("ActionMode", .text "CREATE_UPDATE")]
  | build | generic => []

/-- The name of an own key in the configuration. -/
def wireName (kind : ActionKind) (key : String) : String := (Table.get? kind.renames key).getD key

/-- The own key that goes by this name. -/
def sourceOf (kind : ActionKind) (wire : String) : Option String :=
  Table.get? (kind.renames.map fun (key, wire) => (wire, key)) wire

/-- What the own keys say under a name: what is spelled so, or else what goes by that name. -/
def spelled (kind : ActionKind) (body : Table Node) (wire : String) : Option Node :=
  if wire ∈ Table.keys kind.renames then none
  else (Table.get? body wire).or ((kind.sourceOf wire).bind (Table.get? body))

/-- The key that a kind does not just put into the configuration. -/
def special? : ActionKind → Option String
  | build => some "EnvironmentVariables"
  | ecrSource => some "ImageTag"
  | cloudFormation => some "ParameterOverrides"
  | s3Source | s3Deploy | generic => none

theorem special_cases {kind : ActionKind} {key : String} (h : kind.special? = some key) :
    (kind = .build ∧ key = "EnvironmentVariables") ∨ (kind = .ecrSource ∧ key = "ImageTag") ∨
      (kind = .cloudFormation ∧ key = "ParameterOverrides") := by
  cases kind <;> cases h <;> simp

theorem not_and_of_special {kind other : ActionKind} {key special : String} (h : kind.special? ≠ some key)
    (hs : other.special? = some special) : ¬ (kind = other ∧ key = special) := by
  rintro ⟨rfl, rfl⟩
  exact h hs

theorem source_of_mem_renames {kind : ActionKind} {e : String × String} (h : e ∈ kind.renames) :
    kind.sourceOf e.2 = some e.1 ∧ e.2 ∉ Table.keys kind.renames := by
  cases kind <;> revert e <;> decide

theorem wireName_of_not_mem {kind : ActionKind} {key : String} (h : key ∉ Table.keys kind.renames) :
    kind.wireName key = key := by
  rw [wireName, Table.get?_eq_none_iff.mpr h, Option.getD_none]

theorem wireName_of_sourceOf {kind : ActionKind} {key wire : String} (h : kind.sourceOf wire = some key) :
    kind.wireName key = wire := by
  obtain ⟨e, hm, he⟩ := List.mem_map.mp (Table.mem_of_get? h)
  obtain ⟨rfl, rfl⟩ := Prod.mk.inj he
  have hg : ∀ e ∈ kind.renames, Table.get? kind.renames e.1 = some e.2 := by cases kind <;> decide
  rw [wireName, hg e hm, Option.getD_some]

theorem special_of_wireName {kind : ActionKind} {key : String} (h : kind.special? = some (kind.wireName key)) :
    kind.special? = some key := by
  by_cases hk : key ∈ Table.keys kind.renames
  · -- no key is renamed to a special one
    obtain ⟨e, hm, rfl⟩ := List.mem_map.mp hk
    have hnot : ∀ e ∈ kind.renames, kind.special? ≠ some (kind.wireName e.1) := by cases kind <;> decide
    exact absurd h (hnot e hm)
  · rwa [wireName_of_not_mem hk] at h

/-- An own key is what is said under its name, unless that name is spelled too. -/
theorem spelled_wireName {kind : ActionKind} {body : Table Node} {key : String} {value : Node}
    (hv : Table.get? body key = some value)
    (h : kind.wireName key = key ∨ Table.get? body (kind.wireName key) = none) :
    kind.spelled body (kind.wireName key) = some value := by
  by_cases hk : key ∈ Table.keys kind.renames
  · obtain ⟨wire, hg⟩ := Table.exists_get?_of_mem_keys hk
    obtain ⟨hsource, hnot⟩ := source_of_mem_renames (Table.mem_of_get? hg)
    have hwire : kind.wireName key = wire := by rw [wireName, hg, Option.getD_some]
    rw [hwire] at h ⊢
    rcases h with rfl | h
    · exact absurd hk hnot
    · rw [spelled, if_neg hnot, h, hsource, Option.none_or, Option.bind_some, hv]
  · rw [wireName_of_not_mem hk, spelled, if_neg hk, hv, Option.some_or]

theorem spelled_eq_none {kind : ActionKind} {body : Table Node} {wire : String}
    (h : ∀ key, kind.wireName key = wire → Table.get? body key = none) : kind.spelled body wire = none := by
  rw [spelled]
  split
  · rfl
  · rename_i hk
    rw [h wire (wireName_of_not_mem hk), Option.none_or, Option.bind_eq_none_iff]
    exact fun key hs => h key (wireName_of_sourceOf hs)

end ActionKind

namespace Action

/-- What an action is configured with: what its own keys say goes before what the configuration says, and that before
what the kind says, but for the special keys. -/
structure Blends (context : String) (compiler : Fragment.Compiler) (s : Settings) (kind : ActionKind) (t : Table Node)
    (overrides : Option Node) (compiler' : Fragment.Compiler) : Prop where
  get? : ∀ key, kind.special? ≠ some key → Table.get? t key =
    ((kind.spelled s.body key).or (Table.get? s.configuration key)).or (Table.get? kind.defaults key)
  environment : kind = .build → ∀ value, Table.get? s.body "EnvironmentVariables" = some value →
    ∃ text, environment context compiler value = .ok (text, compiler') ∧
      Table.get? t "EnvironmentVariables" = some text
  noEnvironment : kind = .build → Table.get? s.body "EnvironmentVariables" = none →
    Table.get? t "EnvironmentVariables" = Table.get? s.configuration "EnvironmentVariables"
  imageTag : kind = .ecrSource → Table.get? t "ImageTag" =
    ((Table.get? s.configuration "ImageTag").or (Table.get? s.body "ImageTag")).or (some (.text "latest"))
  overrides : kind = .cloudFormation → overrides =
    (Table.get? s.body "ParameterOverrides").or (Table.get? s.configuration "ParameterOverrides")

theorem Settings.get?_merged_move_self {s : Settings} (hd : s.Distinct) (key other : String) :
    Table.get? (s.move key key).merged other = Table.get? s.merged other := by
  rw [get?_merged hd, get?_merged (hd.move key key), get?_body_move hd, get?_configuration_move]
  split
  · rename_i hk
    rw [hk, Option.none_or]
  · rfl

/-- Where a kind renames this key alone, its other own keys and what it renames are what the configuration gets. -/
theorem Settings.get?_merged_move {s : Settings} (hd : s.Distinct) {kind : ActionKind} {key new : String}
    (hr : kind.renames = [(key, new)]) (hne : key ≠ new) (wire : String) :
    Table.get? (s.move key new).merged wire = (kind.spelled s.body wire).or (Table.get? s.configuration wire) := by
  simp only [get?_merged (hd.move key new), get?_body_move hd, get?_configuration_move, ActionKind.spelled,
    ActionKind.sourceOf, hr, Table.keys, List.map_cons, List.map_nil, List.mem_singleton, Table.get?]
  rcases eq_or_ne wire key with rfl | hk
  · simp [hne.symm]
  · rcases eq_or_ne wire new with rfl | hn
    · simp [hk, hne, Option.or_assoc]
    · simp [hk, hk.symm, hn.symm]

theorem get?_merged_moved {s : Settings} (hd : s.Distinct) (kind : ActionKind) (wire : String) :
    Table.get? (s.moved kind).merged wire = (kind.spelled s.body wire).or (Table.get? s.configuration wire) := by
  cases kind with
  | build => exact Settings.get?_merged_move hd rfl (by simp) wire
  | ecrSource => exact Settings.get?_merged_move hd rfl (by simp) wire
  | s3Deploy =>
      rw [Settings.moved, Settings.get?_merged_move_self (hd.move _ _)]
      exact Settings.get?_merged_move hd rfl (by simp) wire
  | s3Source =>
      have hm := hd.move "Bucket" "S3Bucket"
      simp only [Settings.moved, Settings.get?_merged (hm.move _ _), Settings.get?_body_move hm,
        Settings.get?_body_move hd, Settings.get?_configuration_move, ActionKind.spelled, ActionKind.sourceOf,
        ActionKind.renames, Table.keys, List.map_cons, List.map_nil, List.mem_cons, List.not_mem_nil, Table.get?]
      by_cases hb : wire = "Bucket"
      · simp [hb]
      · by_cases hk : wire = "Key"
        · simp [hk]
        · by_cases hbucket : wire = "S3Bucket"
          · simp [hbucket, Option.or_assoc]
          · by_cases hobject : wire = "S3ObjectKey"
            · simp [hobject, Option.or_assoc]
            · simp [hb, hk, Ne.symm hb, Ne.symm hk, Ne.symm hbucket, Ne.symm hobject]
  | cloudFormation | generic =>
      simp [Settings.moved, Settings.get?_merged hd, ActionKind.spelled, ActionKind.renames, ActionKind.sourceOf,
        Table.keys]

theorem get?_moved {s : Settings} (hd : s.Distinct) {kind : ActionKind} {key : String} (hk : kind.special? = some key) :
    Table.get? (s.moved kind).body key = Table.get? s.body key ∧
      Table.get? (s.moved kind).configuration key = Table.get? s.configuration key := by
  obtain ⟨rfl, rfl⟩ | ⟨rfl, rfl⟩ | ⟨rfl, rfl⟩ := ActionKind.special_cases hk
  · simp [Settings.moved, Settings.get?_body_move hd, Settings.get?_configuration_move]
  · simp [Settings.moved, Settings.get?_body_move hd, Settings.get?_configuration_move]
  · exact ⟨rfl, rfl⟩

theorem Configures.blends {context : String} {compiler compiler' : Fragment.Compiler} {s s' : Settings}
    {kind : ActionKind} {overrides : Option Node} (h : Configures context compiler s kind s' overrides compiler')
    (hd : s.Distinct) : Blends context compiler s kind s'.merged overrides compiler' := by
  have hm := hd.moved kind
  have hget := get?_merged_moved hd kind
  cases h with
  | generic =>
      constructor
      case get? => exact fun key _ => (hget key).trans Option.or_none.symm
      all_goals simp
  | build _ hg =>
      obtain ⟨hbody, hconfiguration⟩ := get?_moved hd (rfl : ActionKind.special? .build = _)
      rw [hbody] at hg
      constructor
      case get? => exact fun key _ => (hget key).trans Option.or_none.symm
      case environment => simp [hg]
      case noEnvironment =>
        rw [Settings.get?_merged hm, hbody, hg, Option.none_or, hconfiguration]
        simp
      all_goals simp
  | compiled _ hg he =>
      obtain ⟨hbody, -⟩ := get?_moved hd (rfl : ActionKind.special? .build = _)
      rw [hbody] at hg
      constructor
      case get? =>
        intro key hk
        have hne : "EnvironmentVariables" ≠ key := fun he => hk (congrArg some he)
        rw [Settings.get?_merged_put (hm.drop _) _ hne, Settings.get?_merged_drop hm hne, hget]
        exact Option.or_none.symm
      case environment =>
        intro _ value hv
        obtain rfl := Option.some.inj (hg.symm.trans hv)
        exact ⟨_, he, Settings.get?_merged_put_self (hm.drop _) _ (hm.body.not_mem_erase _)⟩
      all_goals simp [hg]
  | s3Source =>
      constructor
      case get? =>
        intro key _
        rw [Settings.get?_merged_putNew hm, hget]
        rfl
      all_goals simp
  | s3Deploy =>
      obtain ⟨ht, hnot⟩ := hm.takeEither "Extract"
      constructor
      case get? =>
        intro key _
        by_cases hk : "Extract" = key
        · subst hk
          rw [Settings.get?_merged_put_self ht _ hnot, Settings.takeEither_fst hm, hget]
          exact Option.or_some.symm
        · rw [Settings.get?_merged_put ht _ hk, Settings.get?_merged_takeEither hm hk, hget]
          simp [ActionKind.defaults, Table.get?, hk]
      all_goals simp
  | ecrSource =>
      obtain ⟨hbody, hconfiguration⟩ := get?_moved hd (rfl : ActionKind.special? .ecrSource = _)
      constructor
      case get? =>
        intro key hk
        have hne : "ImageTag" ≠ key := fun he => hk (congrArg some he)
        rw [Settings.get?_merged_putNew (hm.drop _), Settings.get?_merged_drop hm hne, hget]
        simp [ActionKind.defaults, Table.get?, hne]
      case imageTag =>
        intro _
        rw [Settings.get?_merged_putNew (hm.drop _), Settings.get?_merged_drop_self hm, hbody, hconfiguration]
        simp [Table.get?]
      all_goals simp
  | cloudFormation =>
      obtain ⟨ht, -⟩ := hd.takeEither "ParameterOverrides"
      constructor
      case get? =>
        intro key hk
        have hne : "ParameterOverrides" ≠ key := fun he => hk (congrArg some he)
        rw [Settings.get?_merged_putNew ht, Settings.get?_merged_takeEither hd hne]
        exact congrArg (Option.or · _) (hget key)
      case overrides =>
        intro _
        rw [Settings.takeEither_fst hd, Settings.get?_merged hd]
      all_goals simp

/-! ## Actions that were read -/

/-- What an own key of an action says is found where it belongs: environment variables compiled, overrides by
themselves, and all else under its name in the configuration. -/
def Carries (action : Action) (context : String) (compiler compiler' : Fragment.Compiler) (key : String)
    (value : Node) : Prop :=
  if action.kind = .build ∧ key = "EnvironmentVariables" then
    ∃ text, environment context compiler value = .ok (text, compiler') ∧
      Table.get? action.configuration key = some text
  else if action.kind = .cloudFormation ∧ key = "ParameterOverrides" then action.overrides = some value
  else Table.get? action.configuration (action.kind.wireName key) = some value

/-- What the configuration says is still there, overrides by themselves. -/
def Retains (action : Action) (key : String) (value : Node) : Prop :=
  if action.kind = .cloudFormation ∧ key = "ParameterOverrides" then action.overrides = some value
  else Table.get? action.configuration key = some value

/-- The configuration gives another image tag than the action itself. -/
def Overruled (action : Action) (declared : Table Node) (key : String) (value : Node) : Prop :=
  action.kind = .ecrSource ∧ key = "ImageTag" ∧ ∃ other, Table.get? declared key = some other ∧ other ≠ value

theorem Blends.carries_iff {context : String} {compiler compiler' : Fragment.Compiler} {s : Settings} {action : Action}
    (h : Blends context compiler s action.kind action.configuration action.overrides compiler') {key : String}
    {value : Node} (hv : Table.get? s.body key = some value)
    (hspelled : action.kind.wireName key = key ∨ Table.get? s.body (action.kind.wireName key) = none) :
    action.Carries context compiler compiler' key value ↔ ¬ action.Overruled s.configuration key value := by
  by_cases hk : action.kind.special? = some key
  · obtain ⟨hkind, rfl⟩ | ⟨hkind, rfl⟩ | ⟨hkind, rfl⟩ := ActionKind.special_cases hk
    · simpa [Carries, Overruled, hkind] using h.environment hkind value hv
    · have hwire : ActionKind.ecrSource.wireName "ImageTag" = "ImageTag" := rfl
      have himage := h.imageTag hkind
      -- the tag of the configuration goes first, so the two must agree
      cases hd : Table.get? s.configuration "ImageTag" with
      | none => simp [Carries, Overruled, hkind, hwire, himage, hd, hv]
      | some other => simp [Carries, Overruled, hkind, hwire, himage, hd]
    · simpa [Carries, Overruled, hkind, hv] using h.overrides hkind
  · have hget := h.get? _ (mt ActionKind.special_of_wireName hk)
    rw [ActionKind.spelled_wireName hv hspelled, Option.some_or, Option.some_or] at hget
    have himage := ActionKind.not_and_of_special hk (rfl : ActionKind.special? .ecrSource = _)
    rw [Carries, if_neg (ActionKind.not_and_of_special hk rfl), if_neg (ActionKind.not_and_of_special hk rfl)]
    exact ⟨fun _ ho => himage ⟨ho.1, ho.2.1⟩, fun _ => hget⟩

theorem Blends.retains {context : String} {compiler compiler' : Fragment.Compiler} {s : Settings} {action : Action}
    (h : Blends context compiler s action.kind action.configuration action.overrides compiler') {key : String}
    {value : Node} (hv : Table.get? s.configuration key = some value)
    (hfree : (∀ own, action.kind.wireName own = key → Table.get? s.body own = none) ∨
      action.kind = .ecrSource ∧ key = "ImageTag") : action.Retains key value := by
  by_cases hk : action.kind.special? = some key
  · obtain ⟨hkind, rfl⟩ | ⟨hkind, rfl⟩ | ⟨hkind, rfl⟩ := ActionKind.special_cases hk
    · rw [hkind] at hfree
      have hnone := (hfree.resolve_right (by simp)) "EnvironmentVariables" rfl
      simpa [Retains, hkind, hv] using h.noEnvironment hkind hnone
    · simpa [Retains, hkind, hv] using h.imageTag hkind
    · rw [hkind] at hfree
      have hnone := (hfree.resolve_right (by simp)) "ParameterOverrides" rfl
      simpa [Retains, hkind, hv, hnone] using h.overrides hkind
  · have hfree := hfree.resolve_right (ActionKind.not_and_of_special hk rfl)
    have hget := h.get? key hk
    rw [ActionKind.spelled_eq_none hfree, Option.none_or, hv, Option.some_or] at hget
    rwa [Retains, if_neg (ActionKind.not_and_of_special hk rfl)]

theorem ReadFrom.blends {context : String} {compiler compiler' : Fragment.Compiler} {t : Table Node} {action : Action}
    (h : ReadFrom context compiler t action compiler') (hw : (Node.map t).WellFormed) :
    ∃ s : Settings, s.body = kindEntries t ∧
      readConfiguration context (Table.get? t "Configuration") = .ok s.configuration ∧
      Blends context compiler s action.kind action.configuration action.overrides compiler' := by
  obtain ⟨declared, settings, hdeclared, hs, hc⟩ := h.configuration
  rw [← kindEntries] at hs
  have hd : Settings.Distinct ⟨kindEntries t, declared⟩ :=
    ⟨(distinct_kindEntries hw.distinct).1, distinct_of_readConfiguration hw hdeclared⟩
  have hblends := (configures_of_configure hs).blends hd
  rw [Settings.merged, ← hc] at hblends
  exact ⟨_, rfl, hdeclared, hblends⟩

/-- What an action says itself is found where it belongs, but for an image tag that the configuration gives otherwise,
and what the configuration says besides is still there. -/
theorem carries_iff_and_retains_of_ofNode {context name : String} {compiler compiler' : Fragment.Compiler} {node : Node}
    {action : Action} (hw : node.WellFormed) (h : ofNode context compiler name node = .ok (action, compiler')) :
    ∃ declared, readConfiguration s!"{context} action '{name}'" (Table.get? node.entries "Configuration") =
        .ok declared ∧
      (∀ key value, Table.get? node.entries key = some value → key ∉ sharedKeys → key ∉ ownKeys →
        action.kind.wireName key = key ∨ action.kind.wireName key ∉ Table.keys node.entries →
        (action.Carries s!"{context} action '{name}'" compiler compiler' key value ↔
          ¬ action.Overruled declared key value)) ∧
      ∀ key value, Table.get? declared key = some value →
        (∀ own ∈ Table.keys node.entries, own ∉ sharedKeys → own ∉ ownKeys → action.kind.wireName own ≠ key) ∨
          action.kind = .ecrSource ∧ key = "ImageTag" →
        action.Retains key value := by
  obtain ⟨-, -, hread⟩ := ofNode_eq_ok_iff.mp h
  obtain ⟨s, hbody, hdeclared, hblends⟩ := hread.blends hw.entries
  have hsubset : Table.keys s.body ⊆ Table.keys node.entries := hbody ▸ keys_kindEntries_subset node.entries
  refine ⟨s.configuration, hdeclared, fun key value hv hshared hown hspelled => ?_, fun key value hv hfree => ?_⟩
  · have hkey : Table.get? s.body key = some value := by rw [hbody, get?_kindEntries hshared hown, hv]
    apply hblends.carries_iff hkey
    exact hspelled.imp_right fun hnot => Table.get?_eq_none_iff.mpr fun hm => hnot (hsubset hm)
  · apply hblends.retains hv
    apply hfree.imp_left
    intro hfree own hwire
    rw [Table.get?_eq_none_iff]
    intro hm
    rw [hbody] at hm
    obtain ⟨hshared, hown⟩ := (distinct_kindEntries hw.entries.distinct).2 own hm
    exact hfree own (keys_kindEntries_subset _ hm) hshared hown hwire

def bucketSource : Node := .map [("Type", .text "S3Source"), ("Bucket", .text "b"), ("Key", .text "k"),
  ("Configuration", .map [("S3Bucket", .text "other"), ("Kept", .text "yes")])]

theorem carries_bucketSource : ∃ action compiler', ofNode "S" {} "A" bucketSource = .ok (action, compiler') ∧
    Table.get? action.configuration "S3Bucket" = some (.text "b") ∧
    Table.get? action.configuration "Kept" = some (.text "yes") := by
  have hok : (ofNode "S" {} "A" bucketSource).isOk = true := by decide +kernel
  obtain ⟨⟨action, compiler'⟩, h⟩ := Outcome.exists_of_isOk hok
  have hkind : action.kind = .s3Source := by
    have hrun : (ofNode "S" {} "A" bucketSource).toOption.map (·.1.kind) = some .s3Source := by decide +kernel
    rw [h] at hrun
    exact Option.some.inj hrun
  have hw : bucketSource.WellFormed := by
    simp [bucketSource, Node.WellFormed, Node.EntriesWellFormed, Table.Distinct, Table.keys]
  obtain ⟨declared, hdeclared, hcarries, hretains⟩ := carries_iff_and_retains_of_ofNode hw h
  obtain rfl := Except.ok.inj hdeclared
  have hbucket := hcarries "Bucket" (.text "b") rfl (by decide) (by decide) (by rw [hkind]; decide)
  have hkept := hretains "Kept" (.text "yes") rfl (by rw [hkind]; decide)
  have hwire : ActionKind.s3Source.wireName "Bucket" = "S3Bucket" := rfl
  refine ⟨action, compiler', h, ?_, ?_⟩
  · simpa [Carries, Overruled, hkind, hwire] using hbucket
  · simpa [Retains, hkind] using hkept

def taggedImage : Node := .map [("Type", .text "EcrSource"), ("Repository", .text "r"), ("ImageTag", .text "v2"),
  ("Configuration", .map [("ImageTag", .text "v1")])]

/-- The image tag of the action itself is lost. -/
theorem not_carries_taggedImage : ∃ action compiler', ofNode "S" {} "A" taggedImage = .ok (action, compiler') ∧
    Table.get? taggedImage.entries "ImageTag" = some (.text "v2") ∧
    Table.get? action.configuration "ImageTag" = some (.text "v1") ∧
    ¬ action.Carries "S action 'A'" {} compiler' "ImageTag" (.text "v2") := by
  have hok : (ofNode "S" {} "A" taggedImage).isOk = true := by decide +kernel
  obtain ⟨⟨action, compiler'⟩, h⟩ := Outcome.exists_of_isOk hok
  have hrun : (ofNode "S" {} "A" taggedImage).toOption.map (fun out =>
      (out.1.kind, (Table.get? out.1.configuration "ImageTag").bind Node.text?)) =
        some (.ecrSource, some "v1") := by decide +kernel
  rw [h] at hrun
  obtain ⟨hkind, htext⟩ : action.kind = .ecrSource ∧
      (Table.get? action.configuration "ImageTag").bind Node.text? = some "v1" := Prod.mk.inj (Option.some.inj hrun)
  have htag : Table.get? action.configuration "ImageTag" = some (.text "v1") :=
    Stage.bind_text?_eq_some.mp htext
  have hwire : ActionKind.ecrSource.wireName "ImageTag" = "ImageTag" := rfl
  refine ⟨action, compiler', h, rfl, htag, ?_⟩
  simp [Carries, hkind, hwire, htag]

end Action
end Shorthand.Pipeline
