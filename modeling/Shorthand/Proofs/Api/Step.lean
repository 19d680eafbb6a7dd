import Mathlib.Logic.Relation
import Shorthand.Api.Declaration
import Shorthand.Proofs.Api.Registry
import Shorthand.Proofs.Naming

/-!
# Steps of the work on a declaration

An id is claimed, a part is registered together with its definition, or a structure is compiled. What such
steps keep holds of the finished registry.
-/
namespace Shorthand

/-- The resource type of a part. -/
def ApiPart.type : ApiPart → String
  | .container => Api.containerType
  | .authorizer _ => Api.authorizerType
  | .validator _ => Api.validatorType
  | .model _ => Api.modelType
  | .resource _ => Api.resourceType
  | .method _ _ => Api.methodType
  | .deployment => Api.deploymentType

namespace Api

open Relation

/-! ## Steps -/

namespace Builder

/-- The ids of what was defined so far. -/
def defined (b : Builder) : List String := b.definitions.map Definition.id

/-- What ids are made from: the id of a part, with letters and digits after it. -/
def IsBase (b : Builder) (base : String) : Prop :=
  ∃ owner ∈ b.registry.ids, ∃ suffix, IsWord suffix ∧ base = owner ++ suffix

/-- A place as the registry has it: the root, or a path with the id of its resource. -/
inductive Knows (b : Builder) : Place → Prop
  | root : Knows b ⟨Path.root, none⟩
  | resource {path : Path} {id : String} (hp : path ≠ Path.root)
      (h : Table.get? b.registry.resources path = some id) : Knows b ⟨path, some id⟩

/-- A part with its definition, and the registry that has it as well. -/
inductive Part (b : Builder) (d : Definition) : ApiPart → Registry → Prop
  | authorizer {name type : String} (hd : d = .new d.id authorizerType d.properties) :
      Part b d (.authorizer name)
        { b.registry with authorizers := b.registry.authorizers ++ [(name, (d.id, type))] }
  | model {name contentType : String} (hd : d = .new d.id modelType d.properties) :
      Part b d (.model name)
        { b.registry with models := b.registry.models ++ [(name, (d.id, contentType))] }
  | validator {mode : ValidatorMode} (hn : Table.get? b.registry.validators mode = none)
      (hd : d = .new d.id validatorType d.properties) :
      Part b d (.validator mode)
        { b.registry with validators := b.registry.validators ++ [(mode, d.id)] }
  | resource {place : Place} {segment : String} (hp : b.Knows place)
      (hn : Table.get? b.registry.resources (place.path.child segment) = none)
      (hd : d = .new d.id resourceType
        [("RestApiId", b.apiRef), ("ParentId", b.placeRef place), ("PathPart", .text segment)]) :
      Part b d (.resource (place.path.child segment))
        { b.registry with resources := b.registry.resources ++ [(place.path.child segment, d.id)] }
  | method {place : Place} {verb : String} (hp : b.Knows place)
      (hn : Table.get? b.registry.methods (place.path, verb) = none) (hd : d = .new d.id methodType d.properties)
      (hv : Table.get? d.properties "HttpMethod" = some (.text verb))
      (hr : Table.get? d.properties "ResourceId" = some (b.placeRef place)) :
      Part b d (.method place.path verb)
        { b.registry with methods := b.registry.methods ++ [((place.path, verb), d.id)] }

/-- Only the compiler may have changed. -/
structure SameParts (b b' : Builder) : Prop where
  registry : b'.registry = b.registry
  definitions : b'.definitions = b.definitions

/-- Only validators may have been added. -/
structure SameBesideValidators (b b' : Builder) : Prop where
  api : b'.registry.api = b.registry.api
  authorizers : b'.registry.authorizers = b.registry.authorizers
  models : b'.registry.models = b.registry.models
  resources : b'.registry.resources = b.registry.resources
  methods : b'.registry.methods = b.registry.methods

/-- What may be done at one time. -/
inductive Step (b : Builder) : Builder → Prop
  /-- A new id is claimed. -/
  | claim {base : String} (hb : b.IsBase base) : Step b (b.claim base).2
  /-- A part is registered and defined under an id that was claimed for it. -/
  | part {part : ApiPart} {registry : Registry} {d : Definition} (hp : b.Part d part registry)
      (hd : d.id ∈ b.registry.usedIds) (hn : d.id ∉ b.registry.ids) :
      Step b ({ b with registry := registry }.define d)
  /-- What is registered and defined stays. -/
  | other {b' : Builder} (h : SameParts b b') : Step b b'

/-- Some steps were done. -/
def Grows : Builder → Builder → Prop := ReflTransGen Step

/-- Registered ids have been claimed and defined. -/
structure Sound (b : Builder) : Prop where
  used : ∀ id ∈ b.registry.usedIds, IsId id
  claimed : ∀ id ∈ b.registry.ids, id ∈ b.registry.usedIds
  defined : ∀ id ∈ b.registry.ids, id ∈ b.defined

/-! ## What the steps keep -/

namespace Part
variable {b : Builder} {d : Definition} {part : ApiPart} {registry : Registry}

theorem usedIds (h : b.Part d part registry) : registry.usedIds = b.registry.usedIds := by
  cases h <;> rfl

theorem api (h : b.Part d part registry) : registry.api = b.registry.api := by
  cases h <;> rfl

theorem deployment (h : b.Part d part registry) : registry.deployment = b.registry.deployment := by
  cases h <;> rfl

/-- A part is defined with its properties only. -/
theorem eq_new (h : b.Part d part registry) : d = .new d.id part.type d.properties := by
  cases h with
  | resource _ _ hd => rw [hd]; rfl
  | _ => assumption

theorem type (h : b.Part d part registry) : d.type = part.type := by
  rw [h.eq_new]
  rfl

/-- The part comes on top of those that are registered. -/
theorem parts (h : b.Part d part registry) :
    registry.parts.Perm (b.registry.parts ++ [(part, d.id)]) := by
  refine List.perm_iff_count.mpr fun e => ?_
  cases h <;>
    simp only [Registry.parts, List.map_append, List.map_cons, List.map_nil, List.count_cons,
      List.count_append, List.count_nil] <;>
    omega

theorem mem_ids (h : b.Part d part registry) {x : String} :
    x ∈ registry.ids ↔ x ∈ b.registry.ids ∨ x = d.id :=
  Registry.mem_ids_of_parts h.parts

/-- A path keeps the id of its resource. -/
theorem resources (h : b.Part d part registry) {path : Path} {id : String}
    (hg : Table.get? b.registry.resources path = some id) :
    Table.get? registry.resources path = some id := by
  cases h with
  | resource _ _ _ => exact (Table.get?_append _ (Table.mem_keys_of_get? hg)).trans hg
  | _ => exact hg

end Part

theorem claim_usedIds (r : Registry) (base : String) :
    (r.claim base).2.usedIds = r.usedIds ++ [(r.claim base).1] := rfl

/-- A claimed id is new. -/
theorem claim_not_mem (r : Registry) (base : String) : (r.claim base).1 ∉ r.usedIds :=
  Naming.free_not_mem (Naming.underscored_injective base) r.usedIds 0

theorem define_defined (b : Builder) (d : Definition) : (b.define d).defined = b.defined ++ [d.id] := by
  simp [defined, define]

namespace Step
variable {b b' : Builder}

theorem ids (h : Step b b') {id : String} (hi : id ∈ b.registry.ids) : id ∈ b'.registry.ids := by
  cases h with
  | claim _ => exact hi
  | part hp _ _ => exact hp.mem_ids.mpr (.inl hi)
  | other h => exact h.registry ▸ hi

theorem usedIds (h : Step b b') {id : String} (hi : id ∈ b.registry.usedIds) :
    id ∈ b'.registry.usedIds := by
  cases h with
  | claim _ => exact List.mem_append_left _ hi
  | part hp _ _ => exact hp.usedIds ▸ hi
  | other h => exact h.registry ▸ hi

theorem api (h : Step b b') : b'.registry.api = b.registry.api := by
  cases h with
  | claim _ => rfl
  | part hp _ _ => exact hp.api
  | other h => rw [h.registry]

theorem deployment (h : Step b b') : b'.registry.deployment = b.registry.deployment := by
  cases h with
  | claim _ => rfl
  | part hp _ _ => exact hp.deployment
  | other h => rw [h.registry]

theorem resources (h : Step b b') {path : Path} {id : String}
    (hg : Table.get? b.registry.resources path = some id) :
    Table.get? b'.registry.resources path = some id := by
  cases h with
  | claim _ => exact hg
  | part hp _ _ => exact hp.resources hg
  | other h => exact h.registry ▸ hg

end Step

theorem Sound.claim {b : Builder} (h : b.Sound) {base : String} (hb : b.IsBase base) :
    (b.claim base).2.Sound := by
  obtain ⟨owner, ho, suffix, hs, rfl⟩ := hb
  refine ⟨fun id hid => ?_, fun id hid => List.mem_append_left _ (h.claimed id hid), h.defined⟩
  rcases List.mem_append.mp hid with hid | hid
  · exact h.used id hid
  · rw [List.mem_singleton.mp hid]
    exact ((h.used owner (h.claimed owner ho)).append hs).underscored _

/-- A registry that has one part more, defined under a claimed id. -/
theorem Sound.define {b : Builder} (h : b.Sound) {registry : Registry} {d : Definition}
    (hd : d.id ∈ b.registry.usedIds) (hu : registry.usedIds = b.registry.usedIds)
    (hi : ∀ {x}, x ∈ registry.ids ↔ x ∈ b.registry.ids ∨ x = d.id) :
    ({ b with registry := registry }.define d).Sound := by
  refine ⟨fun id hid => h.used id (hu ▸ hid), fun id hid => ?_, fun id hid => ?_⟩
  · rcases hi.mp hid with hid | rfl
    · exact hu ▸ h.claimed id hid
    · exact hu ▸ hd
  · rw [define_defined, List.mem_append]
    rcases hi.mp hid with hid | rfl
    · exact .inl (h.defined id hid)
    · exact .inr (List.mem_singleton_self _)

theorem Step.sound {b b' : Builder} (h : Step b b') (hb : b.Sound) : b'.Sound := by
  cases h with
  | claim hbase => exact hb.claim hbase
  | part hp hd _ => exact hb.define hd hp.usedIds hp.mem_ids
  | other h =>
      refine ⟨fun id hid => hb.used id (h.registry ▸ hid), fun id hid => ?_, fun id hid => ?_⟩
      · exact h.registry ▸ hb.claimed id (h.registry ▸ hid)
      · rw [defined, h.definitions]
        exact hb.defined id (h.registry ▸ hid)

namespace Grows
variable {b b' : Builder}

theorem trans {b'' : Builder} (h : Grows b b') (h' : Grows b' b'') : Grows b b'' :=
  ReflTransGen.trans h h'

theorem ids (h : Grows b b') {id : String} (hi : id ∈ b.registry.ids) : id ∈ b'.registry.ids := by
  induction h with
  | refl => exact hi
  | tail _ hs ih => exact hs.ids ih

theorem usedIds (h : Grows b b') {id : String} (hi : id ∈ b.registry.usedIds) :
    id ∈ b'.registry.usedIds := by
  induction h with
  | refl => exact hi
  | tail _ hs ih => exact hs.usedIds ih

theorem api (h : Grows b b') : b'.registry.api = b.registry.api := by
  induction h with
  | refl => rfl
  | tail _ hs ih => exact hs.api.trans ih

theorem deployment (h : Grows b b') : b'.registry.deployment = b.registry.deployment := by
  induction h with
  | refl => rfl
  | tail _ hs ih => exact hs.deployment.trans ih

theorem resources (h : Grows b b') {path : Path} {id : String}
    (hg : Table.get? b.registry.resources path = some id) :
    Table.get? b'.registry.resources path = some id := by
  induction h with
  | refl => exact hg
  | tail _ hs ih => exact hs.resources ih

theorem sound (h : Grows b b') (hb : b.Sound) : b'.Sound := by
  induction h with
  | refl => exact hb
  | tail _ hs ih => exact hs.sound ih

end Grows

end Builder
end Api
end Shorthand
