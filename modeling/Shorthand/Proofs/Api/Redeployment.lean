import Shorthand.Proofs.Api.Method
import Shorthand.Proofs.Digest

/-!
# The order of a path tree

What a declaration generates does not depend on the order of the entries in its path tree, if no id needs an
underscore and no name is made up. So another order brings no new deployment.
-/
namespace Shorthand
namespace Api

/-! ## Ids and keys of parts -/

namespace Registry
variable {r : Registry}

theorem mem_ids_iff {id : String} : id ∈ r.ids ↔ ∃ part, (part, id) ∈ r.parts := by
  rw [ids_eq_map_parts]
  simp

theorem validator_mem_keys_parts {mode : ValidatorMode} :
    .validator mode ∈ Table.keys r.parts ↔ mode ∈ Table.keys r.validators := by
  simp [parts, Table.keys]

theorem resource_mem_keys_parts {path : Path} :
    .resource path ∈ Table.keys r.parts ↔ path ∈ Table.keys r.resources := by
  simp [parts, Table.keys]

theorem method_mem_keys_parts {path : Path} {verb : String} :
    .method path verb ∈ Table.keys r.parts ↔ (path, verb) ∈ Table.keys r.methods := by
  simp [parts, Table.keys]

end Registry

namespace Builder

theorem Plain.mem_parts {b : Builder} (h : b.Plain) {part : ApiPart} (hp : part ∈ Table.keys b.registry.parts) :
    (part, part.base b.registry.api) ∈ b.registry.parts := by
  obtain ⟨p, hm, rfl⟩ := List.mem_map.mp hp
  rw [← h p hm]
  exact hm

/-! ## Work in another order -/

/-- There is nothing in the work so far that the finished work has not, and the ids that were claimed are those of
its parts. -/
structure Within (finished : Builder) (pending : List (ApiPart × String)) (b : Builder) : Prop where
  claims : Claims pending b
  parts : b.registry.parts ⊆ finished.registry.parts
  pending : pending ⊆ finished.registry.parts
  definitions : b.definitions ⊆ finished.definitions
  api : b.registry.api = finished.registry.api
  issued : b.issued = 0

/-- Finished work in which every part stands under its base, and no two under the same. -/
structure Finished (finished : Builder) : Prop where
  tidy : Tidy [] finished
  ids : finished.registry.ids.Nodup

namespace Within
variable {finished b b' : Builder} {pending : List (ApiPart × String)}

theorem plain (h : Within finished pending b) (hf : finished.Finished) : b.Plain := by
  intro p hp
  rw [h.api]
  exact hf.tidy.plain p (h.parts hp)

/-- A part of the finished work gets the same id as there. -/
theorem claim (h : Within finished pending b) (hf : finished.Finished) (part : ApiPart) {base : String}
    (hbase : base = part.base b.registry.api) (hpart : part ∈ Table.keys finished.registry.parts)
    (hn : part ∉ Table.keys b.registry.parts) (hp : part ∉ Table.keys pending) :
    (b.claim base).1 = base ∧ Within finished ((part, (b.claim base).1) :: pending) (b.claim base).2 := by
  have hmem : (part, base) ∈ finished.registry.parts := by
    rw [hbase, h.api]
    exact hf.tidy.plain.mem_parts hpart
  have hfresh : base ∉ b.registry.usedIds := by
    intro hu
    obtain ⟨owner, ho⟩ := h.claims base hu
    have hids := hf.ids
    rw [Registry.ids_eq_map_parts] at hids
    have howner : (owner, base) ∈ finished.registry.parts := ho.elim (fun ho => h.parts ho) (fun ho => h.pending ho)
    obtain ⟨rfl, -⟩ := Prod.mk.inj (List.inj_on_of_nodup_map hids howner hmem rfl)
    exact ho.elim (fun ho => hn (List.mem_map_of_mem (f := Prod.fst) ho))
      (fun ho => hp (List.mem_map_of_mem (f := Prod.fst) ho))
  have hclear := claim_of_not_mem hfresh
  refine ⟨hclear, h.claims.claim part base, h.parts, ?_, h.definitions, h.api, h.issued⟩
  rw [hclear]
  exact List.cons_subset.mpr ⟨hmem, h.pending⟩

theorem same (h : Within finished pending b) (hs : SameParts b b') (hi : b'.issued = 0) :
    Within finished pending b' := by
  obtain ⟨hr, hd⟩ := hs
  refine ⟨?_, ?_, h.pending, ?_, ?_, hi⟩
  · rw [Claims, hr]
    exact h.claims
  · rw [hr]
    exact h.parts
  · rw [hd]
    exact h.definitions
  · rw [hr]
    exact h.api

theorem register {part : ApiPart} {registry : Registry} {d : Definition}
    (h : Within finished ((part, d.id) :: pending) b) (hp : b.Part d part registry) (hd : d ∈ finished.definitions) :
    Within finished pending ({ b with registry := registry }.define d) := by
  obtain ⟨hpart, hpending⟩ := List.cons_subset.mp h.pending
  refine ⟨h.claims.register hp, fun p hm => ?_, hpending, ?_, hp.api.trans h.api, h.issued⟩
  · rcases hp.mem_parts.mp hm with hm | rfl
    · exact h.parts hm
    · exact hpart
  · exact List.append_subset.mpr ⟨h.definitions, List.cons_subset.mpr ⟨hd, List.nil_subset _⟩⟩

theorem validator (h : Within finished pending b) (hf : finished.Finished) {mode : ValidatorMode}
    (hm : .validator mode ∈ Table.keys finished.registry.parts) (hp : .validator mode ∉ Table.keys pending) :
    Within finished pending (b.validator mode).2 := by
  rcases b.validator_registers mode with ⟨_, _, he⟩ | ⟨base, registry, d, hbase, hn, hpart, rfl, he⟩ <;> rw [he]
  · exact h
  · have hfree : .validator mode ∉ Table.keys b.registry.parts := by
      rw [Registry.validator_mem_keys_parts]
      exact Table.get?_eq_none_iff.mp hn
    obtain ⟨hclear, hclaim⟩ := h.claim hf _ hbase hm hfree hp
    refine Within.register hclaim hpart (hf.tidy.defined _ (hf.tidy.plain.mem_parts hm) _ ?_)
    rw [hclear, hbase, apiRef, h.api]
    exact .validator mode

theorem addSegment (h : Within finished [] b) (hf : finished.Finished) {place below : Place} {segment : String}
    (hp : b.Knows place) (hs : b.addSegment place segment = .ok (below, b'))
    (hm : .resource (place.path.child segment) ∈ Table.keys finished.registry.parts) : Within finished [] b' := by
  rcases addSegment_registers hp hs with rfl | ⟨base, _, d, hbase, hn, hpart, rfl, rfl⟩
  · exact h
  · have hfree : .resource (place.path.child segment) ∉ Table.keys b.registry.parts := by
      rw [Registry.resource_mem_keys_parts]
      exact Table.get?_eq_none_iff.mp hn
    have hplain := h.plain hf
    rw [hp.placeId_eq hplain, ← pathId_child] at hbase
    obtain ⟨hclear, hclaim⟩ := h.claim hf _ hbase hm hfree List.not_mem_nil
    refine Within.register hclaim hpart (hf.tidy.defined _ (hf.tidy.plain.mem_parts hm) _ ?_)
    rw [hclear, hbase, apiRef, hp.placeRef_eq hplain, h.api]
    exact .resource place.path segment

theorem addSegments (h : Within finished [] b) (hf : finished.Finished) (hb : b.Sound) {place below : Place}
    {segments : List String} (hp : b.Knows place) (hs : b.addSegments place segments = .ok (below, b'))
    (hm : ∀ down, down ≠ [] → down <+: segments →
      .resource ⟨place.path.segments ++ down⟩ ∈ Table.keys finished.registry.parts) : Within finished [] b' := by
  induction segments generalizing b place with
  | nil => exact (Prod.mk.inj (Except.ok.inj hs)).2 ▸ h
  | cons segment segments ih =>
      obtain ⟨⟨middle, b₁⟩, h₁, hs⟩ := Outcome.bind_eq_ok.mp hs
      obtain ⟨hg₁, hk⟩ := grows_addSegment hb hp h₁
      have hw₁ := h.addSegment hf hp h₁ (hm [segment] (by simp) (by simp))
      refine ih hw₁ (hg₁.sound hb) hk hs fun down hne hd => ?_
      have hdown := hm (segment :: down) (by simp) (List.cons_prefix_cons.mpr ⟨rfl, hd⟩)
      simpa [(addSegment_paths h₁).1, Path.child] using hdown

theorem addMethod (h : Within finished [] b) (hf : finished.Finished) (hb : b.Sound) {place : Place} {verb : String}
    {body : Node} (hp : b.Knows place) (hm : b.addMethod place verb body = .ok b')
    (ha : b.alone = finished.alone) (ho : finished.Offers place.path (capital verb) body) :
    Within finished [] b' := by
  obtain ⟨base, validated, compiled, final, registry, d, hn, hbase, hprops, hd, hpart, rfl⟩ := addMethod_spec hb hp hm
  have hplain := h.plain hf
  have hfree : .method place.path (capital verb) ∉ Table.keys b.registry.parts := by
    rw [Registry.method_mem_keys_parts]
    exact Table.get?_eq_none_iff.mp hn
  rw [hp.placeId_eq hplain] at hbase
  obtain ⟨hclear, hclaim⟩ := h.claim hf (.method place.path (capital verb)) hbase ho.registered hfree
    List.not_mem_nil
  have hvalidated : Within finished [(.method place.path (capital verb), (b.claim base).1)] validated := by
    rcases hprops.validated_cases with ⟨-, rfl⟩ | ⟨mode, hmode, rfl⟩
    · exact hclaim
    · exact hclaim.validator hf (ho.validator mode hmode) (by simp [Table.keys])
  -- by itself the method gives the same properties, here as in the finished work
  obtain ⟨other, hmade, hissued⟩ := hprops.alone hclaim.issued (hvalidated.plain hf)
  obtain ⟨known, hknown, hgives⟩ := ho.defined
  cases hgives with
  | intro hthere hi =>
      rw [← ha] at hthere
      obtain ⟨rfl, rfl⟩ := hmade.unique hthere
      have hapi : compiled.registry.api = b.registry.api := by
        rw [hprops.sameParts.registry, hvalidated.api, h.api]
      have hdef : d = methodOf finished.registry.api place.path (capital verb) final := by
        rw [hd, hclear, hbase, methodOf, methodProps_eq hp hplain hapi, h.api]
        rfl
      have hid : d.id = (b.claim base).1 := congrArg Definition.id hd
      have hcompiled := hvalidated.same hprops.sameParts (hissued.symm.trans hi)
      exact Within.register (hid ▸ hcompiled) hpart (hdef ▸ hknown)

end Within

/-- All that a path tree asks for is in the finished work. -/
structure Covers (finished : Builder) (place : Path) (entries : List (String × Node)) : Prop where
  paths : ∀ path, OnTheWay place entries path → .resource path ∈ Table.keys finished.registry.parts
  methods : ∀ path verb body, HasMethod place entries path verb body → finished.Offers path verb body

theorem Covers.tail {finished : Builder} {place : Path} {e : String × Node} {entries : List (String × Node)}
    (h : Covers finished place (e :: entries)) : Covers finished place entries where
  paths path hway := h.paths path (onTheWay_cons_iff.mpr (.inr hway))
  methods path verb body hm := h.methods path verb body (hm.mono (List.subset_cons_self _ _))

theorem Covers.below {finished : Builder} {place : Path} {rest : String} {tree entries : List (String × Node)}
    (h : Covers finished place (("/" ++ rest, .map tree) :: entries)) :
    Covers finished ⟨place.segments ++ (Path.ofText ("/" ++ rest)).segments⟩ tree where
  paths path hway := h.paths path (onTheWay_cons_iff.mpr (.inl (onTheWay_path_iff.mpr (.inr hway))))
  methods path verb body hm := h.methods path verb body (.deeper List.mem_cons_self hm)

theorem Draws.covers {b finished : Builder} {tree tree' : List (String × Node)} (hb : b.Sound)
    (h : Draws b ⟨Path.root, none⟩ tree finished) (hplain : finished.Plain) (hi : finished.issued = 0)
    (hr : Reordered tree' tree) : Covers finished Path.root tree' where
  paths path hway := by
    rw [Registry.resource_mem_keys_parts, h.mem_resources]
    exact .inr (hway.of_reordered hr)
  methods path verb body hm := h.offers hb .root hplain hi (hm.of_reordered hr)

/-- The work on a tree stays within the finished work, if this covers the tree. -/
theorem Draws.within {finished b b' : Builder} {place : Place} {entries : List (String × Node)}
    (h : Draws b place entries b') (hf : finished.Finished) (hb : b.Sound) (hp : b.Knows place)
    (ha : b.alone = finished.alone) (hw : Within finished [] b) (hc : Covers finished place.path entries) :
    Within finished [] b' := by
  induction h with
  | nil => exact hw
  | null _ ih => exact ih hb hp ha hw hc.tail
  | path hk hs hbelow _ ihbelow ih =>
      obtain ⟨rest, rfl, rfl⟩ := path_of_ofText? hk
      obtain ⟨hg₁, hk₁⟩ := grows_addSegments hb hp hs
      have hb₁ := hg₁.sound hb
      have hg₂ := hbelow.grows hb₁ hk₁
      have ha₁ := (alone_eq hg₁.api (sameNames_addSegments hs)).trans ha
      have ha₂ := (alone_eq hg₂.api hbelow.sameNames).trans ha₁
      have hw₁ := hw.addSegments hf hb hp hs fun down hne hd => hc.paths _
        (onTheWay_cons_iff.mpr (.inl (onTheWay_path_iff.mpr (.inl ⟨down, hne, hd, rfl⟩))))
      have hw₂ := ihbelow hb₁ hk₁ ha₁ hw₁ ((addSegments_paths hs).1 ▸ hc.below)
      exact ih (hg₂.sound hb₁) (hp.mono (hg₁.trans hg₂)) ha₂ hw₂ hc.tail
  | method hk hv hmethod _ ih =>
      obtain rfl := method_of_ofText? hk
      have hg := grows_addMethod hb hp hmethod
      have ha₁ := (alone_eq hg.api (sameNames_addMethod hmethod)).trans ha
      have hw₁ := hw.addMethod hf hb hp hmethod ha (hc.methods _ _ _ (.here List.mem_cons_self hv))
      exact ih (hg.sound hb) (hp.mono hg) ha₁ hw₁ hc.tail

/-- The work on a declaration when all is done but its path tree. -/
structure Prepared (api : String) (b : Builder) : Prop where
  sound : b.Sound
  matched : Matches b.registry b.definitions
  named : b.registry.api = api
  undeployed : ∀ d ∈ b.definitions, d.type ≠ deploymentType
  tidy : b.Bare → Tidy [] b

theorem prepared_of_parts {api : String} (ha : IsId api) {props : Table Node} {b₁ b₂ b₃ : Builder}
    {authorizers models validators : Option Node}
    (h₁ : (container api props).addPart addAuthorizers authorizers = .ok b₁)
    (h₂ : b₁.addPart addModels models = .ok b₂) (h₃ : b₂.addPart addValidators validators = .ok b₃) :
    Prepared api b₃ := by
  have hc := sound_container ha props
  obtain ⟨hg, -⟩ := grows_of_parts ha h₁ h₂ h₃ .nil
  refine ⟨hg.sound hc, hg.matches hc (matches_container api props), hg.api, hg.not_deployment ?_,
    tidy_of_parts ha h₁ h₂ h₃⟩
  intro d hd
  rw [List.mem_singleton.mp hd]
  show containerType ≠ deploymentType
  decide

section
variable {api : String} {b finished b' : Builder} {tree tree' : List (String × Node)}

theorem Prepared.tidy_of_draws (hp : Prepared api b) (h : Draws b ⟨Path.root, none⟩ tree finished)
    (hbare : finished.Bare) : Tidy [] b :=
  hp.tidy ((h.grows hp.sound .root).bare hbare)

theorem within_of_reordered (hp : Prepared api b) (h : Draws b ⟨Path.root, none⟩ tree finished)
    (h' : Draws b ⟨Path.root, none⟩ tree' b') (hr : Reordered tree' tree) (hbare : finished.Bare)
    (hi : finished.issued = 0) : Within finished [] b' := by
  have hg := h.grows hp.sound .root
  have ht := hp.tidy_of_draws h hbare
  have hf : finished.Finished := ⟨h.tidy hp.sound .root ht hbare, (hg.matches hp.sound hp.matched).ids⟩
  have hw : Within finished [] b := ⟨ht.claims, hg.keeps.parts, List.nil_subset _, hg.keeps.definitions,
    hg.api.symm, Nat.le_zero.mp (hi ▸ h.issued_le)⟩
  exact h'.within hf hp.sound .root (alone_eq hg.api h.sameNames).symm hw (h.covers hp.sound hf.tidy.plain hi hr)

/-- Two runs that have the same parts and the same definitions, whatever their order. -/
structure Alike (b b' : Builder) : Prop where
  within : Within b [] b'
  parts : ∀ p, p ∈ b.registry.parts ↔ p ∈ b'.registry.parts
  definitions : b.definitions.Perm b'.definitions

/-- The order of a path tree leaves no trace but in the order of what is made. -/
theorem alike_of_reordered (hp : Prepared api b) (h : Draws b ⟨Path.root, none⟩ tree finished)
    (h' : Draws b ⟨Path.root, none⟩ tree' b') (hr : Reordered tree tree') (hbare : finished.Bare)
    (hi : finished.issued = 0) : Alike finished b' := by
  have hw := within_of_reordered hp h h' hr.symm hbare hi
  have hbare' : b'.Bare := by
    intro id hid
    obtain ⟨part, hpart⟩ := Registry.mem_ids_iff.mp hid
    exact hbare id (Registry.mem_ids_iff.mpr ⟨part, hw.parts hpart⟩)
  -- so the same holds the other way round
  have hw' := within_of_reordered hp h' h hr hbare' hw.issued
  have hn := (((h.grows hp.sound .root).matches hp.sound hp.matched).distinctIds).of_map
  have hn' := (((h'.grows hp.sound .root).matches hp.sound hp.matched).distinctIds).of_map
  exact ⟨hw, fun p => ⟨fun hp => hw'.parts hp, fun hp => hw.parts hp⟩,
    (List.perm_ext_iff_of_nodup hn hn').mpr fun d => ⟨fun hd => hw'.definitions hd, fun hd => hw.definitions hd⟩⟩

end

/-! ## The deployment -/

/-- The work with a condition on all that is defined so far. -/
def withCondition (b : Builder) (condition : Option String) : Builder :=
  { b with definitions := b.definitions.map fun (d : Definition) => d.withCondition condition }

/-- The deployment that is defined last. -/
def deploymentOf (b : Builder) (digestLength : Nat) (condition : Option String) (deployment : Node) : Definition :=
  { id := (b.claim (b.registry.api ++ "Deployment" ++ Digest.suffix b.definitions digestLength)).1
    type := deploymentType
    condition := condition
    dependsOn := b.methodIds
    properties := Table.put deployment.entries "RestApiId" b.apiRef
    attributes := [] }

theorem deploymentOf_id {b : Builder} {digestLength : Nat} {condition : Option String} {deployment : Node}
    (h : b.registry.api ++ "Deployment" ++ Digest.suffix b.definitions digestLength ∉ b.registry.usedIds) :
    (b.deploymentOf digestLength condition deployment).id =
      b.registry.api ++ "Deployment" ++ Digest.suffix b.definitions digestLength :=
  claim_of_not_mem h

theorem addDeployment_spec {b b' : Builder} {digestLength : Nat} {condition : Option String} {deployment : Node}
    (h : b.addDeployment digestLength condition deployment = .ok b') :
    b'.definitions = b.definitions ++ [b.deploymentOf digestLength condition deployment] ∧
      b'.issued = b.issued := by
  unfold addDeployment at h
  split at h
  · obtain rfl := Except.ok.inj h
    exact ⟨rfl, rfl⟩
  · cases h

theorem methodIds_eq {b b' : Builder} (hids : b.registry.ids.Nodup) (hids' : b'.registry.ids.Nodup)
    (hp : ∀ p, p ∈ b.registry.parts ↔ p ∈ b'.registry.parts) : b.methodIds = b'.methodIds := by
  obtain ⟨hperm, hlt⟩ := methodIds_spec hids
  obtain ⟨hperm', hlt'⟩ := methodIds_spec hids'
  have hmem : ∀ {b : Builder} {id}, id ∈ b.registry.methods.map Prod.snd ↔
      ∃ path verb, (.method path verb, id) ∈ b.registry.parts := by
    intro b id
    simp [Registry.parts]
  refine List.Perm.eq_of_pairwise (fun _ _ _ _ h h' => absurd h (String.lt_asymm h')) hlt hlt' ?_
  refine (List.perm_ext_iff_of_nodup (hlt.imp ne_of_lt) (hlt'.imp ne_of_lt)).mpr fun id => ?_
  rw [hperm.mem_iff, hperm'.mem_iff, hmem, hmem]
  simp only [hp]

namespace Alike
variable {b b' : Builder}

theorem withCondition (h : Alike b b') (condition : Option String) :
    Alike (b.withCondition condition) (b'.withCondition condition) where
  within := ⟨h.within.claims, h.within.parts, h.within.pending, List.map_subset _ h.within.definitions,
    h.within.api, h.within.issued⟩
  parts := h.parts
  definitions := h.definitions.map _

/-- A base that is free in one run is free in the other. -/
theorem claim_eq (h : Alike b b') (hb : b.Sound) {base : String} (hclear : (b.claim base).1 = base) :
    (b'.claim base).1 = base := by
  refine claim_of_not_mem fun hu => ?_
  obtain ⟨owner, ho⟩ := h.within.claims base hu
  have hid : base ∈ b.registry.ids :=
    Registry.mem_ids_iff.mpr ⟨owner, h.within.parts (ho.resolve_right List.not_mem_nil)⟩
  exact claim_not_mem b.registry base (hclear.symm ▸ hb.claimed base hid)

/-- The deployment is the same, under an id that carries the digest of what is defined before it. -/
theorem deploymentOf_eq (h : Alike b b') (hb : b.Sound) (hm : Matches b.registry b.definitions)
    (hids : b'.registry.ids.Nodup) (digestLength : Nat) (condition : Option String) (deployment : Node)
    (hbare : '_' ∉ (b.deploymentOf digestLength condition deployment).id.toList) :
    b.deploymentOf digestLength condition deployment = b'.deploymentOf digestLength condition deployment ∧
      (b.deploymentOf digestLength condition deployment).id =
        b.registry.api ++ "Deployment" ++ Digest.suffix b.definitions digestLength ∧
      Digest.suffix b.definitions digestLength = Digest.suffix b'.definitions digestLength := by
  have hsuffix := Digest.suffix_eq_of_perm hm.distinctIds h.definitions digestLength
  have hclear := claim_eq_base hbare
  have hclear' := h.claim_eq hb hclear
  refine ⟨?_, hclear, hsuffix⟩
  rw [deploymentOf, deploymentOf, hclear, h.within.api, ← hsuffix, hclear',
    methodIds_eq hm.ids hids h.parts, apiRef, apiRef, h.within.api]

end Alike

/-- Before their path trees the work on both declarations is the same. -/
theorem draws_of_works {api : String} (ha : IsId api) {digestLength : Nat} {declaration declaration' : Node}
    (hs : SameButOrder declaration declaration') {b b' : Builder}
    (h : work api digestLength declaration = .ok b) (h' : work api digestLength declaration' = .ok b') :
    ∃ before drawn drawn' condition deployment, Prepared api before ∧
      Draws before ⟨Path.root, none⟩ (treeOf declaration) drawn ∧
      Draws before ⟨Path.root, none⟩ (treeOf declaration') drawn' ∧
      (drawn.withCondition condition).addDeployment digestLength condition deployment = .ok b ∧
      (drawn'.withCondition condition).addDeployment digestLength condition deployment = .ok b' := by
  obtain ⟨b₁, b₂, b₃, b₄, deployment, h₁, h₂, h₃, h₄, hd, h₅⟩ := work_eq_ok h
  obtain ⟨c₁, c₂, c₃, c₄, other, k₁, k₂, k₃, k₄, hd', k₅⟩ := work_eq_ok h'
  rw [← hs.containerProps_eq, ← hs.get? (by decide)] at k₁
  obtain rfl := Except.ok.inj (h₁.symm.trans k₁)
  rw [← hs.get? (by decide)] at k₂
  obtain rfl := Except.ok.inj (h₂.symm.trans k₂)
  rw [← hs.get? (by decide)] at k₃
  obtain rfl := Except.ok.inj (h₃.symm.trans k₃)
  rw [← hs.get? (by decide)] at hd'
  obtain rfl := hd.trans hd'.symm
  rw [← hs.conditionOf_eq] at k₅
  exact ⟨b₃, b₄, c₄, conditionOf declaration, deployment, prepared_of_parts ha h₁ h₂ h₃, h₄, k₄, h₅, k₅⟩

/-- A declaration in another order generates the same definitions in another order, and the same deployment after
them. -/
theorem deployment_of_work {api : String} (ha : IsId api) {digestLength : Nat} {declaration declaration' : Node}
    (hs : SameButOrder declaration declaration') {b b' : Builder}
    (h : work api digestLength declaration = .ok b) (h' : work api digestLength declaration' = .ok b')
    (hbare : ∀ d ∈ b.definitions, '_' ∉ d.id.toList) (hi : b.issued = 0) :
    ∃ parts parts' last, b.definitions = parts ++ [last] ∧ b'.definitions = parts' ++ [last] ∧
      parts.Perm parts' ∧ last.type = deploymentType ∧
      last.id = api ++ "Deployment" ++ Digest.suffix parts digestLength ∧
      Digest.suffix parts digestLength = Digest.suffix parts' digestLength := by
  obtain ⟨before, drawn, drawn', condition, deployment, hp, hd, hd', hlast, hlast'⟩ := draws_of_works ha hs h h'
  obtain ⟨hdefs, hissued⟩ := addDeployment_spec hlast
  obtain ⟨hdefs', -⟩ := addDeployment_spec hlast'
  have hg := hd.grows hp.sound .root
  have hb := hg.sound hp.sound
  have hm := hg.matches hp.sound hp.matched
  have hids := ((hd'.grows hp.sound .root).matches hp.sound hp.matched).ids
  rw [hdefs, List.forall_mem_append] at hbare
  obtain ⟨hparts, hbare⟩ := hbare
  have hdrawn : drawn.Bare := hb.bare fun d hd => hparts (d.withCondition condition) (List.mem_map_of_mem hd)
  have halike := (alike_of_reordered hp hd hd' hs.tree hdrawn (hissued.symm.trans hi)).withCondition condition
  obtain ⟨hsame, hid, hsuffix⟩ := halike.deploymentOf_eq (hb.withCondition condition)
    (matches_withCondition hm condition) hids digestLength condition deployment
    (hbare _ (List.mem_singleton_self _))
  have hapi : drawn.registry.api = api := hg.api.trans hp.named
  exact ⟨_, _, _, hdefs, hsame ▸ hdefs', halike.definitions, rfl, hapi ▸ hid, hsuffix⟩

/-- The deployment's id needs no underscore where no other id begins like it. -/
theorem bare_of_work {api : String} (ha : IsId api) (hw : IsWord api) {digestLength : Nat} {declaration : Node}
    {b : Builder} (h : work api digestLength declaration = .ok b)
    (hbefore : ∀ d ∈ b.definitions, d.type ≠ deploymentType →
      '_' ∉ d.id.toList ∧ ¬ (api ++ "Deployment").toList <+: d.id.toList) :
    ∀ d ∈ b.definitions, '_' ∉ d.id.toList := by
  obtain ⟨_, _, before, drawn, deployment, h₁, h₂, h₃, hdraws, -, hlast⟩ := work_eq_ok h
  obtain ⟨hdefs, -⟩ := addDeployment_spec hlast
  have hp := prepared_of_parts ha h₁ h₂ h₃
  have hg := hdraws.grows hp.sound .root
  have hb := hg.sound hp.sound
  have hparts : ∀ d ∈ drawn.definitions, '_' ∉ d.id.toList ∧ ¬ (api ++ "Deployment").toList <+: d.id.toList := by
    intro d hd
    have hmem := hdefs ▸ List.mem_append_left _ (List.mem_map_of_mem hd)
    exact hbefore (d.withCondition (conditionOf declaration)) hmem (hg.not_deployment hp.undeployed d hd)
  have hbare := hb.bare fun d hd => (hparts d hd).1
  have ht := hdraws.tidy hp.sound .root (hp.tidy_of_draws hdraws hbare) hbare
  have hfree : ∀ base ∈ drawn.registry.usedIds, ¬ (api ++ "Deployment").toList <+: base.toList := by
    intro base hu
    obtain ⟨owner, ho⟩ := ht.claims base hu
    have hid := Registry.mem_ids_iff.mpr ⟨owner, ho.resolve_right List.not_mem_nil⟩
    obtain ⟨d, hd, rfl⟩ := List.mem_map.mp (hb.defined base hid)
    exact (hparts d hd).2
  rw [hdefs, List.forall_mem_append]
  refine ⟨fun d hd => ?_, fun d hd => ?_⟩
  · obtain ⟨d, hmem, rfl⟩ := List.mem_map.mp hd
    exact (hparts d hmem).1
  · have hapi : drawn.registry.api = api := hg.api.trans hp.named
    rw [List.mem_singleton.mp hd, deploymentOf_id]
    · have hname : IsWord "Deployment" := by decide
      have hstart : IsWord (drawn.registry.api ++ "Deployment") := isWord_append (hapi.symm ▸ hw) hname
      exact fun hm => absurd (isWord_append hstart (isWord_suffix _ _) '_' hm) (by decide)
    · refine fun hu => hfree _ hu ?_
      rw [← hapi, String.toList_append (t := Digest.suffix _ _)]
      exact List.prefix_append _ _

end Builder
end Api

namespace Apis

/-- What an accepted declaration generates is what its work defines. -/
theorem work_of_declare {apis out : Apis} {id : String} {declaration : Node} {ds : List Definition}
    (h : apis.declare id declaration = .ok (ds, out)) :
    IsId id ∧ ∃ b, Api.Builder.work id apis.digestLength declaration = .ok b ∧ b.definitions = ds := by
  obtain ⟨ha, _, _, he, _⟩ := declare_eq_ok h
  rw [Api.Builder.expand_eq_map_work, Outcome.map_eq_ok] at he
  obtain ⟨b, hw, heq⟩ := he
  exact ⟨ha, b, hw, (Prod.mk.inj heq).2⟩

/-- A declaration whose path tree is put in another order generates the same definitions in another order, and the
same deployment last, if no id needed an underscore at first and no name was made up for what is compiled. So the
new order does not bring a new deployment. -/
theorem sameDeployment_of_declare {apis apis' : Apis} (hl : apis'.digestLength = apis.digestLength) {id : String}
    {declaration declaration' : Node} (hs : Api.SameButOrder declaration declaration')
    {ds ds' : List Definition} {out out' : Apis} (h : apis.declare id declaration = .ok (ds, out))
    (h' : apis'.declare id declaration' = .ok (ds', out')) (hbare : ∀ d ∈ ds, '_' ∉ d.id.toList)
    (hi : (Api.Builder.work id apis.digestLength declaration).map Api.Builder.issued = .ok 0) :
    ∃ parts parts' last, ds = parts ++ [last] ∧ ds' = parts' ++ [last] ∧ parts.Perm parts' ∧
      last.type = Api.deploymentType ∧ last.id = id ++ "Deployment" ++ Digest.suffix parts apis.digestLength ∧
      Digest.suffix parts apis.digestLength = Digest.suffix parts' apis.digestLength := by
  obtain ⟨ha, b, hw, rfl⟩ := work_of_declare h
  obtain ⟨-, b', hw', rfl⟩ := work_of_declare h'
  rw [hw] at hi
  exact Api.Builder.deployment_of_work ha hs hw (hl ▸ hw') hbare (Except.ok.inj hi)

/-- A method that compiles a template. -/
def staged : Node := .map
  [("Integration", .map [("RequestTemplates", .map [("application/json", .map [("stage", .refTo "Stage")])])])]

/-- An API with a path below another, a validator that two methods share, and templates to compile. -/
def shop : Node := .map
  [("Name", .text "shop"),
    ("Models", .map [("Item", .map [("Schema", .map [("title", .refTo "Title")])])]),
    ("/items", .map
      [("$get", .map [("Validate", .text "body")]),
        ("/new", .map [("$post", .map [("Validate", .text "body"), ("Model", .text "Item")])])]),
    ("$any", staged)]

/-- The same with the path tree in another order, at the root and below. -/
def shopTurned : Node := .map
  [("Name", .text "shop"),
    ("$any", staged),
    ("Models", .map [("Item", .map [("Schema", .map [("title", .refTo "Title")])])]),
    ("/items", .map
      [("/new", .map [("$post", .map [("Validate", .text "body"), ("Model", .text "Item")])]),
        ("$get", .map [("Validate", .text "body")])])]

theorem sameButOrder_shopTurned : Api.SameButOrder shop shopTurned :=
  .intro rfl ((Api.Reordered.deeper "items" (.swap _ _ _) (.refl _)).trans (.swap _ _ _))

theorem work_shop : ∀ b ∈ (Api.Builder.work "Shop" 8 shop).toOption, b.issued = 0 ∧
    ∀ d ∈ b.definitions, d.type ≠ Api.deploymentType →
      '_' ∉ d.id.toList ∧ ¬ ("Shop" ++ "Deployment").toList <+: d.id.toList := by
  decide +kernel

theorem sameDeployment_shopTurned :
    ∃ ds ds' out out', ({ digestLength := 8 } : Apis).declare "Shop" shop = .ok (ds, out) ∧
      ({ digestLength := 8 } : Apis).declare "Shop" shopTurned = .ok (ds', out') ∧
      (∀ d ∈ ds, '_' ∉ d.id.toList) ∧
      ∃ parts parts' last, ds = parts ++ [last] ∧ ds' = parts' ++ [last] ∧ parts.Perm parts' ∧
        last.type = Api.deploymentType ∧ last.id = "Shop" ++ "Deployment" ++ Digest.suffix parts 8 ∧
        Digest.suffix parts 8 = Digest.suffix parts' 8 := by
  obtain ⟨⟨ds, out⟩, h⟩ := Outcome.exists_of_isOk
    (show (({ digestLength := 8 } : Apis).declare "Shop" shop).isOk = true by decide +kernel)
  obtain ⟨⟨ds', out'⟩, h'⟩ := Outcome.exists_of_isOk
    (show (({ digestLength := 8 } : Apis).declare "Shop" shopTurned).isOk = true by decide +kernel)
  obtain ⟨ha, b, hw, rfl⟩ := work_of_declare h
  obtain ⟨hi, hbefore⟩ := work_shop b (by rw [hw]; rfl)
  have hbare := Api.Builder.bare_of_work ha (by decide) hw hbefore
  have hissued : (Api.Builder.work "Shop" 8 shop).map Api.Builder.issued = .ok 0 := by
    rw [hw]
    exact congrArg Except.ok hi
  have hsame := sameDeployment_of_declare rfl sameButOrder_shopTurned h h' hbare hissued
  exact ⟨_, ds', out, out', h, h', hbare, hsame⟩

end Apis
end Shorthand
