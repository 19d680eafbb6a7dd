import Shorthand.Proofs.Families
import Shorthand.Proofs.WellFormed

/-!
# The symbol table of an API and its definitions

Every part that is registered has a definition of its own, with an id of its own, and nothing else is
defined. So lookups in the symbol table are one to one with the definitions.
-/
namespace Shorthand
namespace Api

/-! ## One definition for each part -/

/-- The definitions are those of the registered parts, all under ids that begin with the API's. -/
structure Matches (r : Registry) (ds : List Definition) : Prop where
  defined : (ds.map fun d => (d.type, d.id)).Perm (r.parts.map fun p => (p.1.type, p.2))
  ids : r.ids.Nodup
  lead : ∀ id ∈ r.usedIds, r.api.toList <+: id.toList

/-- No validator, path or method is registered twice, and the root path is not registered. -/
structure DistinctKeys (r : Registry) : Prop where
  validators : (Table.keys r.validators).Nodup
  resources : (Table.keys r.resources).Nodup
  root : Path.root ∉ Table.keys r.resources
  methods : (Table.keys r.methods).Nodup

/-- A part that is registered and defined last. -/
theorem Matches.snoc {r r' : Registry} {ds : List Definition} (h : Matches r ds) {part : ApiPart}
    {d : Definition} (hp : r'.parts.Perm (r.parts ++ [(part, d.id)])) (ht : d.type = part.type)
    (hn : d.id ∉ r.ids) (hu : r'.usedIds = r.usedIds) (ha : r'.api = r.api) : Matches r' (ds ++ [d]) := by
  refine ⟨?_, ?_, ?_⟩
  · have hmore := h.defined.append_right [(d.type, d.id)]
    have hparts := hp.map fun p => (p.1.type, p.2)
    rw [List.map_append] at hparts ⊢
    exact hmore.trans (ht ▸ hparts.symm)
  · have hids := hp.map Prod.snd
    rw [List.map_append, ← Registry.ids_eq_map_parts, ← Registry.ids_eq_map_parts] at hids
    exact hids.nodup_iff.mpr (nodup_snoc h.ids hn)
  · rw [hu, ha]
    exact h.lead

theorem Matches.perm_ids {r : Registry} {ds : List Definition} (h : Matches r ds) :
    (ds.map Definition.id).Perm r.ids := by
  have hp := h.defined.map Prod.snd
  rw [List.map_map, List.map_map] at hp
  exact r.ids_eq_map_parts ▸ hp

theorem Matches.distinctIds {r : Registry} {ds : List Definition} (h : Matches r ds) :
    (ds.map Definition.id).Nodup :=
  h.perm_ids.nodup_iff.mpr h.ids

namespace Builder

theorem matches_claim {b : Builder} (hb : b.Sound) (h : Matches b.registry b.definitions) {base : String}
    (hbase : b.IsBase base) : Matches (b.claim base).2.registry (b.claim base).2.definitions := by
  refine ⟨h.defined, h.ids, fun id hid => ?_⟩
  obtain ⟨owner, ho, suffix, _, rfl⟩ := hbase
  rcases List.mem_append.mp hid with hid | hid
  · exact h.lead id hid
  · have hlead : b.registry.api.toList <+: owner.toList := h.lead owner (hb.claimed owner ho)
    obtain rfl := List.mem_singleton.mp hid
    rw [Naming.underscored, String.toList_ofList, String.toList_append, List.append_assoc]
    exact hlead.trans (List.prefix_append _ _)

theorem Step.matches {b b' : Builder} (hs : Step b b') (hb : b.Sound)
    (h : Matches b.registry b.definitions) : Matches b'.registry b'.definitions := by
  cases hs with
  | claim hbase => exact matches_claim hb h hbase
  | part hp _ hn => exact h.snoc hp.parts hp.type hn hp.usedIds hp.api
  | other hs => rwa [hs.registry, hs.definitions]

theorem Part.distinctKeys {b : Builder} {d : Definition} {part : ApiPart} {registry : Registry}
    (hp : b.Part d part registry) (h : DistinctKeys b.registry) : DistinctKeys registry := by
  obtain ⟨hv, hr, hroot, hm⟩ := h
  cases hp with
  | authorizer _ => exact ⟨hv, hr, hroot, hm⟩
  | model _ => exact ⟨hv, hr, hroot, hm⟩
  | validator hn _ =>
      refine ⟨?_, hr, hroot, hm⟩
      rw [Table.keys, List.map_append]
      exact nodup_snoc hv (Table.get?_eq_none_iff.mp hn)
  | resource _ hn _ =>
      refine ⟨hv, ?_, ?_, hm⟩
      · rw [Table.keys, List.map_append]
        exact nodup_snoc hr (Table.get?_eq_none_iff.mp hn)
      · rw [Table.keys, List.map_append, List.mem_append]
        rintro (hmem | hmem)
        · exact hroot hmem
        · exact child_ne_root _ _ (List.mem_singleton.mp hmem).symm
  | method _ hn _ _ _ =>
      refine ⟨hv, hr, hroot, ?_⟩
      rw [Table.keys, List.map_append]
      exact nodup_snoc hm (Table.get?_eq_none_iff.mp hn)

theorem Step.distinctKeys {b b' : Builder} (hs : Step b b') (h : DistinctKeys b.registry) :
    DistinctKeys b'.registry := by
  cases hs with
  | claim _ => exact ⟨h.validators, h.resources, h.root, h.methods⟩
  | part hp _ _ => exact hp.distinctKeys h
  | other hs => rwa [hs.registry]

theorem Grows.matches {b b' : Builder} (hg : Grows b b') (hb : b.Sound)
    (h : Matches b.registry b.definitions) : Matches b'.registry b'.definitions := by
  induction hg with
  | refl => exact h
  | tail hg hs ih => exact hs.matches (Grows.sound hg hb) ih

theorem Grows.distinctKeys {b b' : Builder} (hg : Grows b b') (h : DistinctKeys b.registry) :
    DistinctKeys b'.registry := by
  induction hg with
  | refl => exact h
  | tail _ hs ih => exact hs.distinctKeys ih

theorem matches_container (api : String) (props : Table Node) :
    Matches (container api props).registry (container api props).definitions := by
  refine ⟨?_, List.nodup_singleton api, fun id hid => ?_⟩
  · show List.Perm [(containerType, (({ api := api } : Registry).claim api).1)] [(containerType, api)]
    rw [claim_first]
  · have hid : id ∈ [] ++ [(({ api := api } : Registry).claim api).1] := hid
    rw [claim_first] at hid
    rw [List.mem_singleton.mp hid]
    exact List.prefix_rfl

theorem distinctKeys_container (api : String) (props : Table Node) :
    DistinctKeys (container api props).registry :=
  ⟨List.nodup_nil, List.nodup_nil, List.not_mem_nil, List.nodup_nil⟩

/-! ## Names stay in the path tree -/

/-- Neither authorizers nor models were added. -/
structure SameNames (b b' : Builder) : Prop where
  authorizers : b'.registry.authorizers = b.registry.authorizers
  models : b'.registry.models = b.registry.models

theorem SameNames.trans {a b c : Builder} (h : SameNames a b) (h' : SameNames b c) : SameNames a c :=
  ⟨h'.authorizers.trans h.authorizers, h'.models.trans h.models⟩

theorem sameNames_addSegments {b b' : Builder} {place below : Place} {segments : List String}
    (h : b.addSegments place segments = .ok (below, b')) : SameNames b b' := by
  induction segments generalizing b place with
  | nil => exact (Prod.mk.inj (Except.ok.inj h)).2 ▸ ⟨rfl, rfl⟩
  | cons segment segments ih =>
      obtain ⟨⟨middle, b₁⟩, h₁, h⟩ := Outcome.bind_eq_ok.mp h
      refine SameNames.trans ?_ (ih h)
      unfold addSegment at h₁
      split at h₁
      · cases h₁
      · simp only at h₁
        split at h₁
        · exact (Prod.mk.inj (Except.ok.inj h₁)).2 ▸ ⟨rfl, rfl⟩
        · exact (Prod.mk.inj (Except.ok.inj h₁)).2 ▸ ⟨rfl, rfl⟩

theorem sameNames_addMethod {b b' : Builder} {place : Place} {verb : String} {body : Node}
    (h : b.addMethod place verb body = .ok b') : SameNames b b' := by
  obtain ⟨_, _, b₁, b₂, _, _, rfl, rfl, hprops, rfl⟩ := addMethod_cases h
  obtain ⟨_, _, _, hv⟩ := hprops.exists_validate
  have hc := hprops.sameParts
  have hs := sameBesideValidators_validate hv
  exact ⟨hc.registry ▸ hs.authorizers, hc.registry ▸ hs.models⟩

theorem Draws.sameNames {b b' : Builder} {place : Place} {entries : List (String × Node)}
    (h : Draws b place entries b') : SameNames b b' := by
  induction h with
  | nil => exact ⟨rfl, rfl⟩
  | null _ ih => exact ih
  | path _ hs _ _ ihbelow ih => exact (sameNames_addSegments hs).trans (ihbelow.trans ih)
  | method _ _ hm _ ih => exact (sameNames_addMethod hm).trans ih

/-! ## The finished registry -/

theorem matches_withCondition {r : Registry} {ds : List Definition} (h : Matches r ds)
    (condition : Option String) :
    Matches r (ds.map fun (d : Definition) => d.withCondition condition) := by
  refine ⟨?_, h.ids, h.lead⟩
  rw [List.map_map]
  exact h.defined

theorem matches_addDeployment {b b' : Builder} (hb : b.Sound) (h : Matches b.registry b.definitions)
    (hn : b.registry.deployment = none) {digestLength : Nat} {condition : Option String} {deployment : Node}
    (hd : b.addDeployment digestLength condition deployment = .ok b') :
    Matches b'.registry b'.definitions := by
  obtain ⟨base, props, hbase, rfl⟩ := addDeployment_eq_ok hd
  have hc := matches_claim hb h hbase
  exact hc.snoc (Registry.parts_deployment hn) rfl (hb.claim_not_mem_ids base) rfl rfl

theorem nodup_namesOf {declaration : Node} (hw : declaration.WellFormed) (key : String) :
    (namesOf (Table.get? declaration.entries key)).Nodup := by
  cases hg : Table.get? declaration.entries key with
  | none => exact List.nodup_nil
  | some node =>
      cases node with
      | map entries => exact (hw.entries.of_get? hg).distinct
      | _ => exact List.nodup_nil

/-- In a well-formed declaration no authorizer and no model is named twice. -/
theorem distinctNames_of_expand {api : String} {digestLength : Nat} {declaration : Node}
    {registry : Registry} {ds : List Definition} (hw : declaration.WellFormed)
    (h : expand api digestLength declaration = .ok (registry, ds)) :
    (Table.keys registry.authorizers).Nodup ∧ (Table.keys registry.models).Nodup := by
  obtain ⟨b₁, b₂, b₃, b₄, b₅, _, h₁, h₂, h₃, h₄, _, h₅, rfl, rfl⟩ := expand_eq_ok h
  obtain ⟨_, _, _, rfl⟩ := addDeployment_eq_ok h₅
  have hn := names_of_parts h₁ h₂ h₃
  constructor
  · show (Table.keys b₄.registry.authorizers).Nodup
    rw [h₄.sameNames.authorizers, hn.authorizers]
    exact nodup_namesOf hw "Authorizers"
  · show (Table.keys b₄.registry.models).Nodup
    rw [h₄.sameNames.models, hn.models]
    exact nodup_namesOf hw "Models"

/-- How the work on an accepted declaration ends. -/
theorem finished_of_expand {api : String} (ha : IsId api) {digestLength : Nat} {declaration : Node}
    {registry : Registry} {ds : List Definition}
    (h : expand api digestLength declaration = .ok (registry, ds)) :
    ∃ b : Builder, registry = b.registry ∧ ds = b.definitions ∧ b.registry.api = api ∧ b.Sound ∧
      Matches b.registry b.definitions ∧ DistinctKeys b.registry := by
  obtain ⟨b₁, b₂, b₃, b₄, b₅, _, h₁, h₂, h₃, h₄, _, h₅, rfl, rfl⟩ := expand_eq_ok h
  have hc := sound_container ha (containerProps api declaration)
  obtain ⟨-, hg⟩ := grows_of_parts ha h₁ h₂ h₃ h₄
  have hb := (hg.sound hc).withCondition (conditionOf declaration)
  have hm := matches_withCondition (hg.matches hc (matches_container api _)) (conditionOf declaration)
  have hk := hg.distinctKeys (distinctKeys_container api (containerProps api declaration))
  have hapi : b₄.registry.api = api := hg.api
  refine ⟨b₅, rfl, rfl, ?_, hb.addDeployment hg.deployment h₅, matches_addDeployment hb hm hg.deployment h₅, ?_⟩
  all_goals obtain ⟨_, _, _, rfl⟩ := addDeployment_eq_ok h₅
  · exact hapi
  · exact ⟨hk.validators, hk.resources, hk.root, hk.methods⟩

end Builder

/-! ## Lookups -/

namespace Registry

theorem nodup_parts {r : Registry} (hk : DistinctKeys r) (ha : (Table.keys r.authorizers).Nodup)
    (hm : (Table.keys r.models).Nodup) : (r.parts.map Prod.fst).Nodup := by
  have authorizers := ha.map (f := ApiPart.authorizer) fun _ _ he => ApiPart.authorizer.inj he
  have models := hm.map (f := ApiPart.model) fun _ _ he => ApiPart.model.inj he
  have validators := hk.validators.map (f := ApiPart.validator) fun _ _ he => ApiPart.validator.inj he
  have resources := hk.resources.map (f := ApiPart.resource) fun _ _ he => ApiPart.resource.inj he
  have methods := hk.methods.map (f := fun key => ApiPart.method key.1 key.2)
    fun _ _ he => Prod.ext (ApiPart.method.inj he).1 (ApiPart.method.inj he).2
  have deployment : (r.deployment.toList.map fun _ => ApiPart.deployment).Nodup := by
    cases r.deployment <;> simp
  simp only [Table.keys, List.map_map, Function.comp_def] at authorizers models validators resources methods
  simp only [parts, List.map_cons, List.map_append, List.map_map, List.nodup_cons, List.nodup_append,
    Function.comp_def, List.mem_append, or_imp, forall_and, List.forall_mem_map, *]
  -- two parts of different kinds are never the same
  simp

theorem known_eq_ok_iff {text reason id : String} {known : Option String} :
    find.known text known reason = .ok (.resource id) ↔ known = some id := by
  cases known with
  | none => simp [find.known]
  | some i => simp [find.known, Target.resource]

/-- A part is found just under the id it is registered with. The root path is no part: in its place an
attribute of the container is found. -/
theorem find_eq_ok_iff {r : Registry} (hk : DistinctKeys r) (ha : (Table.keys r.authorizers).Nodup)
    (hm : (Table.keys r.models).Nodup) {text : String} {part : ApiPart} {id : String} :
    r.find text part = .ok (.resource id) ↔ (part, id) ∈ r.parts := by
  cases part with
  | container => simp [parts, find, Target.resource, eq_comm]
  | authorizer name =>
      have hget : ∀ type, Table.get? r.authorizers name = some (id, type) ↔ (name, (id, type)) ∈ r.authorizers :=
        fun _ => Table.Distinct.get?_eq_some_iff ha
      simp [parts, find, known_eq_ok_iff, hget]
  | model name =>
      have hget : ∀ type, Table.get? r.models name = some (id, type) ↔ (name, (id, type)) ∈ r.models :=
        fun _ => Table.Distinct.get?_eq_some_iff hm
      simp [parts, find, known_eq_ok_iff, hget]
  | validator mode => simp [parts, find, known_eq_ok_iff, Table.Distinct.get?_eq_some_iff hk.validators]
  | resource path =>
      rw [find]
      split
      · rename_i hroot
        subst hroot
        have hno : ∀ id, (Path.root, id) ∉ r.resources := fun id hmem =>
          hk.root (List.mem_map.mpr ⟨_, hmem, rfl⟩)
        simp [parts, Target.resource, hno]
      · simp [parts, known_eq_ok_iff, Table.Distinct.get?_eq_some_iff hk.resources]
  | method path verb => simp [parts, find, known_eq_ok_iff, Table.Distinct.get?_eq_some_iff hk.methods]
  | deployment => simp [parts, find, known_eq_ok_iff]

end Registry

/-- The parts of an API are one to one with its definitions, each of which has the type of its part. -/
structure Bijective (r : Registry) (ds : List Definition) : Prop where
  ids : (ds.map Definition.id).Nodup
  plain : ∀ d ∈ ds, IsId d.id ∧ r.api.toList <+: d.id.toList
  parts : (r.parts.map Prod.fst).Nodup
  partIds : (r.parts.map Prod.snd).Nodup
  defined : (r.parts.map fun p => (p.1.type, p.2)).Perm (ds.map fun d => (d.type, d.id))
  found : ∀ text part id, r.find text part = .ok (.resource id) ↔ (part, id) ∈ r.parts

namespace Builder

theorem bijective_of_expand {api : String} (ha : IsId api) {digestLength : Nat} {declaration : Node}
    (hw : declaration.WellFormed) {registry : Registry} {ds : List Definition}
    (h : expand api digestLength declaration = .ok (registry, ds)) :
    registry.api = api ∧ Bijective registry ds := by
  obtain ⟨hauthorizers, hmodels⟩ := distinctNames_of_expand hw h
  obtain ⟨b, rfl, rfl, hapi, hb, hm, hk⟩ := finished_of_expand ha h
  have hids := hm.perm_ids
  refine ⟨hapi, hm.distinctIds, fun d hd => ?_, Registry.nodup_parts hk hauthorizers hmodels,
    b.registry.ids_eq_map_parts ▸ hm.ids, hm.defined.symm,
    fun _ _ _ => Registry.find_eq_ok_iff hk hauthorizers hmodels⟩
  have hused := hb.claimed d.id (hids.mem_iff.mp (List.mem_map_of_mem hd))
  exact ⟨hb.used d.id hused, hm.lead d.id hused⟩

end Builder
end Api

namespace Apis

/-- Every API of an accepted section has its definitions in one stretch, and a symbol table that is one to
one with them. -/
theorem bijective_of_expandSection {apis : Apis} {entries : List (String × Node)} {ds : List Definition}
    (hw : (Node.map entries).WellFormed) (h : (apis.expandSection (.map entries)).1 = .ok ds) {api : String}
    {declaration : Node} (hd : (api, declaration) ∈ entries) :
    ∃ registry before part after, ds = before ++ part ++ after ∧
      Table.get? (apis.expandSection (.map entries)).2.table api = some registry ∧
      Api.Builder.expand api apis.digestLength declaration = .ok (registry, part) ∧
      registry.api = api ∧ Api.Bijective registry part := by
  obtain ⟨ha, registry, before, part, after, he, hg, hx⟩ := expand_of_declareAll (Prod.ext h rfl) hd
  have hwd := (Node.wellFormed_map_iff.mp hw).2 _ hd
  exact ⟨registry, before, part, after, he, hg, hx, Api.Builder.bijective_of_expand ha hwd hx⟩

/-- An API whose paths, verbs and validators come near to each other. -/
def nearNames : List (String × Node) :=
  [("Shop", .map [("Authorizers", .map [("-", .map [])]), ("Models", .map [("-", .map [])]),
    ("Validators", .list [.text "body"]),
    ("$GET", .map [("Validate", .text "body")]),
    ("/get", .map [("$post", .map [("Validate", .text "body")])]),
    ("/a-b", .map [("$GET", .map [])]), ("/ab", .map [("$GET", .map [])]), ("/-", .map [])])]

theorem bijective_nearNames :
    ∃ ds, (({ digestLength := 8 } : Apis).expandSection (.map nearNames)).1 = .ok ds ∧
      ∃ registry before part after, ds = before ++ part ++ after ∧
        Table.get? (({ digestLength := 8 } : Apis).expandSection (.map nearNames)).2.table "Shop" =
          some registry ∧
        Api.Bijective registry part := by
  obtain ⟨ds, h⟩ := Outcome.exists_of_isOk
    (show (({ digestLength := 8 } : Apis).expandSection (.map nearNames)).1.isOk = true by decide +kernel)
  have hw : (Node.map nearNames).WellFormed := by
    simp [nearNames, Node.WellFormed, Node.EntriesWellFormed, Node.AllWellFormed, Table.Distinct, Table.keys]
  obtain ⟨registry, before, part, after, he, hg, _, _, hb⟩ :=
    bijective_of_expandSection hw h List.mem_cons_self
  exact ⟨ds, h, registry, before, part, after, he, hg, hb⟩

end Apis
end Shorthand
