import Shorthand.Proofs.Api.Compiling
import Shorthand.Proofs.Api.Parts

/-!
# Ids without underscores

A part's id is made from a base, which is told by the part alone, and has underscores behind it where the base was
taken. If none was, then every part stands under its base, and the resources of paths and the validators are the
same whatever else there is.
-/
namespace Shorthand

/-! ## Bases -/

namespace Api

/-- The API's id, and behind it the letters and digits of each segment. -/
def pathId (api : String) (path : Path) : String :=
  path.segments.foldl (fun id segment => id ++ slug segment) api

theorem pathId_child (api : String) (path : Path) (segment : String) :
    pathId api (path.child segment) = pathId api path ++ slug segment := by
  rw [pathId, Path.child, List.foldl_append]
  rfl

/-- How a path is referred to by its id. -/
def pathRef (api : String) (path : Path) : Node :=
  if path = Path.root then .attributeOf api Registry.rootAttribute else .refTo (pathId api path)

end Api

/-- What the id of a part is made from. Behind that of a deployment there is a digest. -/
def ApiPart.base (api : String) : ApiPart → String
  | .container => api
  | .authorizer name => s!"{api}{slug name}Authorizer"
  | .model name => s!"{api}{slug name}Model"
  | .validator mode => s!"{api}{mode.idPart}Validator"
  | .resource path => Api.pathId api path
  | .method path verb => Api.pathId api path ++ slug verb
  | .deployment => s!"{api}Deployment"

namespace Api

/-- The parts with a definition that is told by the part alone. -/
inductive Fixed (api : String) : ApiPart → Definition → Prop
  | resource (parent : Path) (segment : String) :
      Fixed api (.resource (parent.child segment))
        (.new (pathId api (parent.child segment)) resourceType
          [("RestApiId", .refTo api), ("ParentId", pathRef api parent), ("PathPart", .text segment)])
  | validator (mode : ValidatorMode) :
      Fixed api (.validator mode)
        (.new ((ApiPart.validator mode).base api) validatorType
          [("RestApiId", .refTo api), ("ValidateRequestBody", .bool mode.looksAtBody),
            ("ValidateRequestParameters", .bool mode.looksAtParams)])

theorem Fixed.unique {api : String} {part : ApiPart} {d d' : Definition} (h : Fixed api part d)
    (h' : Fixed api part d') : d = d' := by
  generalize hp : part = p at h'
  cases h with
  | resource parent segment =>
      cases h' with
      | resource parent' segment' =>
          have hs := congrArg Path.segments (ApiPart.resource.inj hp)
          obtain ⟨hparent, hsegment⟩ := List.append_inj' hs rfl
          obtain ⟨segments⟩ := parent
          obtain rfl : segments = parent'.segments := hparent
          obtain rfl := List.singleton_inj.mp hsegment
          rfl
      | validator _ => cases hp
  | validator mode =>
      cases h' with
      | resource _ _ => cases hp
      | validator mode' =>
          cases hp
          rfl

theorem Registry.mem_parts_resource {r : Registry} {path : Path} {id : String}
    (h : Table.get? r.resources path = some id) : (.resource path, id) ∈ r.parts := by
  have := Table.mem_of_get? h
  simp [parts, this]

namespace Builder

theorem claim_eq_base {b : Builder} {base : String} (h : '_' ∉ (b.claim base).1.toList) :
    (b.claim base).1 = base :=
  Naming.eq_base_of_not_mem h

theorem claim_of_not_mem {b : Builder} {base : String} (h : base ∉ b.registry.usedIds) :
    (b.claim base).1 = base := by
  show Naming.underscored base (Naming.free b.registry.usedIds (Naming.underscored base) 0) = base
  rw [Naming.free_eq_start (by rwa [Naming.underscored_zero]), Naming.underscored_zero]

/-! ## Claimed ids -/

/-- Every id that was claimed is that of a registered part, or of one for which the registration is pending. -/
def Claims (pending : List (ApiPart × String)) (b : Builder) : Prop :=
  ∀ id ∈ b.registry.usedIds, ∃ part, (part, id) ∈ b.registry.parts ∨ (part, id) ∈ pending

theorem Part.mem_parts {b : Builder} {d : Definition} {part : ApiPart} {registry : Registry}
    (h : b.Part d part registry) {p : ApiPart × String} :
    p ∈ registry.parts ↔ p ∈ b.registry.parts ∨ p = (part, d.id) := by
  rw [h.parts.mem_iff, List.mem_append, List.mem_singleton]

namespace Claims
variable {b : Builder} {pending : List (ApiPart × String)}

theorem claim (h : Claims pending b) (part : ApiPart) (base : String) :
    Claims ((part, (b.claim base).1) :: pending) (b.claim base).2 := by
  intro id hid
  rcases List.mem_append.mp hid with hid | hid
  · obtain ⟨owner, ho⟩ := h id hid
    exact ⟨owner, ho.imp_right (List.mem_cons_of_mem _)⟩
  · rw [List.mem_singleton.mp hid]
    exact ⟨part, .inr List.mem_cons_self⟩

theorem register {part : ApiPart} {registry : Registry} {d : Definition} (h : Claims ((part, d.id) :: pending) b)
    (hp : b.Part d part registry) : Claims pending ({ b with registry := registry }.define d) := by
  intro id hid
  obtain ⟨owner, ho⟩ := h id (hp.usedIds ▸ hid)
  refine ⟨owner, ?_⟩
  rw [List.mem_cons, ← or_assoc] at ho
  exact ho.imp_left hp.mem_parts.mpr

end Claims

/-! ## Parts under their bases -/

/-- Every registered part stands under its base. -/
def Plain (b : Builder) : Prop := ∀ p ∈ b.registry.parts, p.2 = p.1.base b.registry.api

/-- No id of a part has an underscore. -/
def Bare (b : Builder) : Prop := ∀ id ∈ b.registry.ids, '_' ∉ id.toList

theorem Sound.bare {b : Builder} (hb : b.Sound) (h : ∀ d ∈ b.definitions, '_' ∉ d.id.toList) : b.Bare := by
  intro id hid
  obtain ⟨d, hd, rfl⟩ := List.mem_map.mp (hb.defined id hid)
  exact h d hd

theorem Grows.bare {b b' : Builder} (hg : Grows b b') (h : b'.Bare) : b.Bare :=
  fun id hid => h id (hg.ids hid)

/-- All that is known of the work while no id has an underscore. -/
structure Tidy (pending : List (ApiPart × String)) (b : Builder) : Prop where
  claims : Claims pending b
  plain : b.Plain
  pending : ∀ p ∈ pending, p.2 = p.1.base b.registry.api
  defined : ∀ p ∈ b.registry.parts, ∀ d, Fixed b.registry.api p.1 d → d ∈ b.definitions

/-- A validator is there, or is registered under an id claimed for its base. -/
theorem validator_registers (b : Builder) (mode : ValidatorMode) :
    (∃ id, Table.get? b.registry.validators mode = some id ∧ b.validator mode = (id, b)) ∨
      ∃ base registry d, base = (ApiPart.validator mode).base b.registry.api ∧
        Table.get? b.registry.validators mode = none ∧ (b.claim base).2.Part d (.validator mode) registry ∧
        d = .new (b.claim base).1 validatorType
          [("RestApiId", b.apiRef), ("ValidateRequestBody", .bool mode.looksAtBody),
            ("ValidateRequestParameters", .bool mode.looksAtParams)] ∧
        b.validator mode = (d.id, { (b.claim base).2 with registry := registry }.define d) := by
  unfold validator
  split
  · rename_i id hid
    exact .inl ⟨id, hid, rfl⟩
  · rename_i hn
    exact .inr ⟨_, _, _, rfl, hn, .validator hn rfl, rfl, rfl⟩

/-- A segment leads to a path that is there, or that is registered under an id claimed for its base. -/
theorem addSegment_registers {b b' : Builder} {place below : Place} {segment : String} (hp : b.Knows place)
    (h : b.addSegment place segment = .ok (below, b')) :
    b' = b ∨ ∃ base registry d, base = b.placeId place ++ slug segment ∧
      Table.get? b.registry.resources (place.path.child segment) = none ∧
      (b.claim base).2.Part d (.resource (place.path.child segment)) registry ∧
      d = .new (b.claim base).1 resourceType
        [("RestApiId", b.apiRef), ("ParentId", b.placeRef place), ("PathPart", .text segment)] ∧
      b' = { (b.claim base).2 with registry := registry }.define d := by
  unfold addSegment at h
  split at h
  · cases h
  · simp only at h
    split at h
    · exact .inl (Prod.mk.inj (Except.ok.inj h)).2.symm
    · rename_i hn
      obtain ⟨-, rfl⟩ := Prod.mk.inj (Except.ok.inj h)
      have hc : Grows b (b.claim _).2 := .single (.claim (hp.isBase (isWord_slug segment)))
      exact .inr ⟨_, _, _, rfl, hn, .resource (hp.mono hc) hn rfl, rfl, rfl⟩

/-! ### Places -/

theorem Knows.placeId_eq {b : Builder} {place : Place} (hp : b.Knows place) (h : b.Plain) :
    b.placeId place = pathId b.registry.api place.path := by
  cases hp with
  | root => rfl
  | resource hne hg => exact h _ (Registry.mem_parts_resource hg)

theorem Knows.placeRef_eq {b : Builder} {place : Place} (hp : b.Knows place) (h : b.Plain) :
    b.placeRef place = pathRef b.registry.api place.path := by
  have hid := hp.placeId_eq h
  cases hp with
  | root => rfl
  | resource hne hg =>
      rw [pathRef, if_neg hne, ← hid]
      rfl

namespace Tidy
variable {b b' : Builder} {pending : List (ApiPart × String)}

theorem same (h : Tidy pending b) (hs : SameParts b b') : Tidy pending b' := by
  obtain ⟨hr, hd⟩ := hs
  refine ⟨?_, ?_, ?_, ?_⟩
  · rw [Claims, hr]
    exact h.claims
  · rw [Plain, hr]
    exact h.plain
  · rw [hr]
    exact h.pending
  · rw [hr, hd]
    exact h.defined

theorem claim (h : Tidy pending b) (part : ApiPart) {base : String} (hbase : base = part.base b.registry.api)
    (hclear : (b.claim base).1 = base) : Tidy ((part, (b.claim base).1) :: pending) (b.claim base).2 where
  claims := h.claims.claim part base
  plain := h.plain
  pending := List.forall_mem_cons.mpr ⟨hclear.trans hbase, h.pending⟩
  defined := h.defined

theorem register {part : ApiPart} {registry : Registry} {d : Definition} (h : Tidy ((part, d.id) :: pending) b)
    (hp : b.Part d part registry) (hd : ∀ other, Fixed b.registry.api part other → other = d) :
    Tidy pending ({ b with registry := registry }.define d) := by
  obtain ⟨hid, hpending⟩ := List.forall_mem_cons.mp h.pending
  refine ⟨h.claims.register hp, fun p hm => ?_, hp.api.symm ▸ hpending, fun p hm other ho => ?_⟩
  · show p.2 = p.1.base registry.api
    rw [hp.api]
    rcases hp.mem_parts.mp hm with hm | rfl
    · exact h.plain p hm
    · exact hid
  · have ho : Fixed b.registry.api p.1 other := hp.api ▸ ho
    rcases hp.mem_parts.mp hm with hm | rfl
    · exact List.mem_append_left _ (h.defined p hm other ho)
    · rw [hd other ho]
      exact List.mem_append_right _ (List.mem_singleton_self d)

/-- A part is registered under the id that was claimed for it last. -/
theorem add (h : Tidy pending b) (part : ApiPart) {base : String} (hbase : base = part.base b.registry.api)
    (hs : SameParts (b.claim base).2 b') {registry : Registry} {d : Definition} (hp : b'.Part d part registry)
    (hid : d.id = (b.claim base).1)
    (hd : (b.claim base).1 = base → ∀ other, Fixed b'.registry.api part other → other = d)
    (hbare : ({ b' with registry := registry }.define d).Bare) :
    Tidy pending ({ b' with registry := registry }.define d) := by
  have hclear : (b.claim base).1 = base := claim_eq_base (hid ▸ hbare d.id (hp.mem_ids.mpr (.inr rfl)))
  have hclaim := (h.claim part hbase hclear).same hs
  exact Tidy.register (hid ▸ hclaim) hp (hd hclear)

theorem addAuthorizer (h : Tidy pending b) (name : String) (body : Node)
    (hbare : (b.addAuthorizer name body).Bare) : Tidy pending (b.addAuthorizer name body) :=
  h.add (.authorizer name) rfl (.refl _) (.authorizer rfl) rfl (fun _ _ ho => nomatch ho) hbare

theorem addModel (h : Tidy pending b) (name : String) (body : Node) (hbare : (b.addModel name body).Bare) :
    Tidy pending (b.addModel name body) := by
  have hc := compileAt_sameParts compile_sameParts (b.claim s!"{b.registry.api}{slug name}Model").2
    body.entries "Schema"
  exact h.add (.model name) rfl hc (.model rfl) rfl (fun _ _ ho => nomatch ho) hbare

theorem foldl {f : Builder → String × Node → Builder} (hg : ∀ {b} e, b.Sound → Grows b (f b e))
    (hf : ∀ {b} e, Tidy [] b → (f b e).Bare → Tidy [] (f b e)) (entries : List (String × Node)) (hb : b.Sound)
    (h : Tidy [] b) (hbare : (entries.foldl f b).Bare) : Tidy [] (entries.foldl f b) := by
  induction entries generalizing b with
  | nil => exact h
  | cons e entries ih =>
      have hs := (hg e hb).sound hb
      exact ih hs (hf e h ((grows_foldl hg entries hs).bare hbare)) hbare

theorem addAuthorizers (h : Tidy [] b) (hb : b.Sound) {node : Node} (ha : b.addAuthorizers node = .ok b')
    (hbare : b'.Bare) : Tidy [] b' := by
  unfold Builder.addAuthorizers at ha
  split at ha
  · obtain rfl := Except.ok.inj ha
    exact Tidy.foldl (fun _ hb => grows_addAuthorizer hb _ _) (fun _ h => h.addAuthorizer _ _) _ hb h hbare
  · cases ha

theorem addModels (h : Tidy [] b) (hb : b.Sound) {node : Node} (hm : b.addModels node = .ok b')
    (hbare : b'.Bare) : Tidy [] b' := by
  unfold Builder.addModels at hm
  split at hm
  · obtain rfl := Except.ok.inj hm
    exact Tidy.foldl (fun _ hb => grows_addModel hb _ _) (fun _ h => h.addModel _ _) _ hb h hbare
  · cases hm

theorem validator (h : Tidy pending b) (mode : ValidatorMode) (hbare : (b.validator mode).2.Bare) :
    Tidy pending (b.validator mode).2 := by
  rcases validator_registers b mode with ⟨_, _, he⟩ | ⟨base, _, d, hbase, _, hp, rfl, he⟩
  · rwa [he]
  · rw [he] at hbare ⊢
    refine h.add _ hbase (.refl _) hp rfl (fun hclear other ho => ho.unique ?_) hbare
    rw [hclear, hbase]
    exact .validator mode

theorem addModes (h : Tidy [] b) (hb : b.Sound) {nodes : List Node} (hm : b.addModes nodes = .ok b')
    (hbare : b'.Bare) : Tidy [] b' := by
  induction nodes generalizing b with
  | nil => exact Except.ok.inj hm ▸ h
  | cons node nodes ih =>
      obtain ⟨mode, _, hm⟩ := Outcome.bind_eq_ok.mp hm
      have hs := (grows_validator hb mode).sound hb
      exact ih (h.validator mode ((grows_addModes hs hm).bare hbare)) hs hm

theorem addValidators (h : Tidy [] b) (hb : b.Sound) {node : Node} (hv : b.addValidators node = .ok b')
    (hbare : b'.Bare) : Tidy [] b' := by
  unfold Builder.addValidators at hv
  split at hv
  · exact h.addModes hb hv hbare
  · cases hv

theorem addPart {add : Builder → Node → Except Error Builder} (h : Tidy [] b)
    (hadd : ∀ {node}, Tidy [] b → add b node = .ok b' → Tidy [] b') {node : Option Node}
    (hp : b.addPart add node = .ok b') : Tidy [] b' := by
  cases node with
  | none => exact Except.ok.inj hp ▸ h
  | some node => exact hadd h hp

theorem addSegment (h : Tidy [] b) (hb : b.Sound) {place below : Place} {segment : String} (hp : b.Knows place)
    (hs : b.addSegment place segment = .ok (below, b')) (hbare : b'.Bare) : Tidy [] b' := by
  rcases addSegment_registers hp hs with rfl | ⟨base, _, d, hbase, _, hpart, rfl, rfl⟩
  · exact h
  · have hid : base = (ApiPart.resource (place.path.child segment)).base b.registry.api := by
      rw [hbase, hp.placeId_eq h.plain]
      exact (pathId_child _ _ _).symm
    refine h.add _ hid (.refl _) hpart rfl (fun hclear other ho => ho.unique ?_) hbare
    rw [hclear, hid, hp.placeRef_eq h.plain]
    exact .resource place.path segment

theorem addSegments (h : Tidy [] b) (hb : b.Sound) {place below : Place} {segments : List String}
    (hp : b.Knows place) (hs : b.addSegments place segments = .ok (below, b')) (hbare : b'.Bare) :
    Tidy [] b' := by
  induction segments generalizing b place with
  | nil => exact (Prod.mk.inj (Except.ok.inj hs)).2 ▸ h
  | cons segment segments ih =>
      obtain ⟨⟨middle, b₁⟩, h₁, hs⟩ := Outcome.bind_eq_ok.mp hs
      obtain ⟨hg₁, hm⟩ := grows_addSegment hb hp h₁
      have hb₁ := hg₁.sound hb
      exact ih (h.addSegment hb hp h₁ ((grows_addSegments hb₁ hm hs).1.bare hbare)) hb₁ hm hs

theorem addMethod (h : Tidy [] b) (hb : b.Sound) {place : Place} {verb : String} {body : Node}
    (hp : b.Knows place) (hm : b.addMethod place verb body = .ok b') (hbare : b'.Bare) : Tidy [] b' := by
  obtain ⟨base, validated, compiled, final, registry, d, -, hbase, hprops, hd, hpart, rfl⟩ := addMethod_spec hb hp hm
  obtain ⟨_, _, _, hv⟩ := hprops.exists_validate
  have hid : d.id = (b.claim base).1 := congrArg Definition.id hd
  have hclear : (b.claim base).1 = base := claim_eq_base (hid ▸ hbare d.id (hpart.mem_ids.mpr (.inr rfl)))
  rw [hp.placeId_eq h.plain] at hbase
  have hclaimed := h.claim (.method place.path (capital verb)) hbase hclear
  have hvalidated : Tidy [(.method place.path (capital verb), (b.claim base).1)] validated := by
    have hkept : validated.Bare := fun id hm =>
      hbare id (hpart.mem_ids.mpr (.inl (hprops.sameParts.registry ▸ hm)))
    rcases validate_eq_ok hv with rfl | ⟨mode, rfl⟩
    · exact hclaimed
    · exact hclaimed.validator mode hkept
  exact Tidy.register (hid ▸ hvalidated.same hprops.sameParts) hpart fun _ ho => nomatch ho

end Tidy

theorem tidy_container (api : String) (props : Table Node) : Tidy [] (container api props) := by
  refine ⟨fun id hid => ⟨.container, .inl ?_⟩, fun p hp => ?_, by simp, fun p hp d hd => ?_⟩
  · have hid : id ∈ [] ++ [(({ api := api } : Registry).claim api).1] := hid
    rw [claim_first] at hid
    rw [List.mem_singleton.mp hid]
    exact List.mem_cons_self
  · rw [List.mem_singleton.mp hp]
    rfl
  · rw [List.mem_singleton.mp hp] at hd
    cases hd

/-- Before the path tree every part stands under its base. -/
theorem tidy_of_parts {api : String} (ha : IsId api) {props : Table Node} {b₁ b₂ b₃ : Builder}
    {authorizers models validators : Option Node}
    (h₁ : (container api props).addPart addAuthorizers authorizers = .ok b₁)
    (h₂ : b₁.addPart addModels models = .ok b₂) (h₃ : b₂.addPart addValidators validators = .ok b₃)
    (hbare : b₃.Bare) : Tidy [] b₃ := by
  have hc := sound_container ha props
  have hb₁ := (grows_addPart grows_addAuthorizers hc h₁).sound hc
  have hb₂ := (grows_addPart grows_addModels hb₁ h₂).sound hb₁
  have hbare₂ := (grows_addPart grows_addValidators hb₂ h₃).bare hbare
  have hbare₁ := (grows_addPart grows_addModels hb₁ h₂).bare hbare₂
  have ht₁ := (tidy_container api props).addPart (fun ht h => ht.addAuthorizers hc h hbare₁) h₁
  have ht₂ := ht₁.addPart (fun ht h => ht.addModels hb₁ h hbare₂) h₂
  exact ht₂.addPart (fun ht h => ht.addValidators hb₂ h hbare) h₃

/-- All parts but the deployment stand under their bases. -/
theorem Draws.tidy {b b' : Builder} {place : Place} {entries : List (String × Node)} (h : Draws b place entries b')
    (hb : b.Sound) (hp : b.Knows place) (ht : Tidy [] b) (hbare : b'.Bare) : Tidy [] b' := by
  induction h with
  | nil => exact ht
  | null _ ih => exact ih hb hp ht hbare
  | path _ hs hbelow hrest ihbelow ih =>
      obtain ⟨hg₁, hk⟩ := grows_addSegments hb hp hs
      have hb₁ := hg₁.sound hb
      have hg₂ := hbelow.grows hb₁ hk
      have hb₂ := hg₂.sound hb₁
      have hp₂ := hp.mono (hg₁.trans hg₂)
      have hbare₂ := (hrest.grows hb₂ hp₂).bare hbare
      exact ih hb₂ hp₂ (ihbelow hb₁ hk (ht.addSegments hb hp hs (hg₂.bare hbare₂)) hbare₂) hbare
  | method _ _ hm hrest ih =>
      have hg := grows_addMethod hb hp hm
      have hb₁ := hg.sound hb
      have hp₁ := hp.mono hg
      exact ih hb₁ hp₁ (ht.addMethod hb hp hm ((hrest.grows hb₁ hp₁).bare hbare)) hbare

end Builder
end Api
end Shorthand
