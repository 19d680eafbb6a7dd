import Shorthand.Proofs.Api.Step

/-!
# Every registered part is defined

The work on a declaration is a run of steps, part after part: authorizers, models, validators, the path
tree, and last the deployment.
-/
namespace Shorthand.Api.Builder

open Relation

/-! ## Compiling -/

namespace SameParts

theorem refl (b : Builder) : SameParts b b := ⟨rfl, rfl⟩

theorem trans {a b c : Builder} (h : SameParts a b) (h' : SameParts b c) : SameParts a c :=
  ⟨h'.registry.trans h.registry, h'.definitions.trans h.definitions⟩

theorem grows {b b' : Builder} (h : SameParts b b') : Grows b b' :=
  .single (.other h)

end SameParts

theorem compile_sameParts (b : Builder) (node : Node) : SameParts b (b.compile node).2 := by
  unfold compile
  split
  · exact .refl b
  · exact ⟨rfl, rfl⟩

theorem compileAt_sameParts {f : Builder → Node → Node × Builder}
    (hf : ∀ b node, SameParts b (f b node).2) (b : Builder) (props : Table Node) (key : String) :
    SameParts b (compileAt f b props key).2 := by
  unfold compileAt
  split
  · exact .refl b
  · exact hf b _

theorem compileTemplates_sameParts (b : Builder) (templates : List (String × Node)) :
    SameParts b (b.compileTemplates templates).2 := by
  induction templates generalizing b with
  | nil => exact .refl b
  | cons t templates ih => exact (compile_sameParts b t.2).trans (ih _)

theorem compileTemplateMap_sameParts (b : Builder) (node : Node) :
    SameParts b (b.compileTemplateMap node).2 := by
  unfold compileTemplateMap
  split
  · exact compileTemplates_sameParts b _
  · exact .refl b

theorem compileResponses_sameParts (b : Builder) (responses : List Node) :
    SameParts b (b.compileResponses responses).2 := by
  induction responses generalizing b with
  | nil => exact .refl b
  | cons r responses ih =>
      cases r with
      | map response => exact (compileAt_sameParts compileTemplateMap_sameParts b _ _).trans (ih _)
      | _ => exact ih b

theorem compileResponseList_sameParts (b : Builder) (node : Node) :
    SameParts b (b.compileResponseList node).2 := by
  unfold compileResponseList
  split
  · exact compileResponses_sameParts b _
  · exact .refl b

theorem compileIntegration_sameParts (b : Builder) (node : Node) :
    SameParts b (b.compileIntegration node).2 := by
  unfold compileIntegration
  split
  · exact (compileAt_sameParts compileTemplateMap_sameParts b _ _).trans
      (compileAt_sameParts compileResponseList_sameParts _ _ _)
  · exact .refl b

/-! ## The parts in turn -/

theorem mem_ids_api (b : Builder) : b.registry.api ∈ b.registry.ids := List.mem_cons_self

theorem claim_mem_usedIds (b : Builder) (base : String) :
    (b.claim base).1 ∈ (b.claim base).2.registry.usedIds :=
  List.mem_append_right _ (List.mem_singleton_self _)

theorem Sound.claim_not_mem_ids {b : Builder} (hb : b.Sound) (base : String) :
    (b.claim base).1 ∉ b.registry.ids :=
  fun hi => claim_not_mem b.registry base (hb.claimed _ hi)

theorem isBase_api (b : Builder) {s t : String} (hs : IsWord s) (ht : IsWord t) :
    b.IsBase (b.registry.api ++ s ++ t) :=
  ⟨_, b.mem_ids_api, s ++ t, isWord_append hs ht, String.append_assoc⟩

theorem grows_addAuthorizer {b : Builder} (hb : b.Sound) (name : String) (body : Node) :
    Grows b (b.addAuthorizer name body) := by
  have hbase : b.IsBase s!"{b.registry.api}{slug name}Authorizer" :=
    b.isBase_api (isWord_slug name) (by decide)
  exact .trans (.single (.claim hbase))
    (.single (.part (.authorizer rfl) (claim_mem_usedIds b _) (hb.claim_not_mem_ids _)))

theorem grows_addModel {b : Builder} (hb : b.Sound) (name : String) (body : Node) :
    Grows b (b.addModel name body) := by
  have hbase : b.IsBase s!"{b.registry.api}{slug name}Model" :=
    b.isBase_api (isWord_slug name) (by decide)
  have hc := compileAt_sameParts compile_sameParts (b.claim s!"{b.registry.api}{slug name}Model").2
    body.entries "Schema"
  refine .trans (.single (.claim hbase)) (.trans hc.grows (.single (.part (.model rfl) ?_ ?_)))
  · rw [hc.registry]
    exact claim_mem_usedIds b _
  · rw [hc.registry]
    exact hb.claim_not_mem_ids _

theorem grows_foldl {α : Type} {f : Builder → α → Builder} (hf : ∀ {b} a, b.Sound → Grows b (f b a))
    (as : List α) {b : Builder} (hb : b.Sound) : Grows b (as.foldl f b) := by
  induction as generalizing b with
  | nil => exact .refl
  | cons a as ih =>
      have hg := hf a hb
      exact hg.trans (ih (hg.sound hb))

theorem grows_addAuthorizers {b b' : Builder} {node : Node} (hb : b.Sound)
    (h : b.addAuthorizers node = .ok b') : Grows b b' := by
  unfold addAuthorizers at h
  split at h
  · exact Except.ok.inj h ▸ grows_foldl (fun _ hb => grows_addAuthorizer hb _ _) _ hb
  · cases h

theorem grows_addModels {b b' : Builder} {node : Node} (hb : b.Sound)
    (h : b.addModels node = .ok b') : Grows b b' := by
  unfold addModels at h
  split at h
  · exact Except.ok.inj h ▸ grows_foldl (fun _ hb => grows_addModel hb _ _) _ hb
  · cases h

/-- A validator is there, or is registered under an id claimed for it. -/
theorem validator_cases (b : Builder) (mode : ValidatorMode) :
    (b.validator mode).2 = b ∨ ∃ base registry d, b.IsBase base ∧ d.id = (b.claim base).1 ∧
      (b.claim base).2.Part d (.validator mode) registry ∧
      (b.validator mode).2 = { (b.claim base).2 with registry := registry }.define d := by
  unfold validator
  split
  · exact .inl rfl
  · rename_i hn
    have hbase : b.IsBase s!"{b.registry.api}{mode.idPart}Validator" :=
      b.isBase_api (by cases mode <;> decide) (by decide)
    exact .inr ⟨_, _, .new (b.claim _).1 validatorType _, hbase, rfl, .validator hn rfl, rfl⟩

theorem grows_validator {b : Builder} (hb : b.Sound) (mode : ValidatorMode) :
    Grows b (b.validator mode).2 := by
  rcases b.validator_cases mode with he | ⟨base, registry, d, hbase, hd, hp, he⟩
  · rw [he]
    exact .refl
  · rw [he]
    exact .trans (.single (.claim hbase))
      (.single (.part hp (hd ▸ claim_mem_usedIds b _) (hd ▸ hb.claim_not_mem_ids _)))

/-- A validator does not take an id that was claimed for another part. -/
theorem not_mem_ids_validator {b : Builder} {id : String} (hu : id ∈ b.registry.usedIds)
    (hn : id ∉ b.registry.ids) (mode : ValidatorMode) : id ∉ (b.validator mode).2.registry.ids := by
  rcases b.validator_cases mode with he | ⟨base, registry, d, _, hd, hp, he⟩
  · rwa [he]
  · rw [he]
    intro hi
    rcases hp.mem_ids.mp hi with hi | hi
    · exact hn hi
    · exact claim_not_mem b.registry base (hd ▸ hi ▸ hu)

theorem sameBesideValidators_validator (b : Builder) (mode : ValidatorMode) :
    SameBesideValidators b (b.validator mode).2 := by
  rcases b.validator_cases mode with he | ⟨base, registry, d, _, _, hp, he⟩
  · rw [he]
    exact ⟨rfl, rfl, rfl, rfl, rfl⟩
  · rw [he]
    cases hp
    exact ⟨rfl, rfl, rfl, rfl, rfl⟩

theorem grows_addModes {b b' : Builder} {nodes : List Node} (hb : b.Sound)
    (h : b.addModes nodes = .ok b') : Grows b b' := by
  induction nodes generalizing b with
  | nil => exact Except.ok.inj h ▸ .refl
  | cons node nodes ih =>
      obtain ⟨mode, _, h⟩ := Outcome.bind_eq_ok.mp h
      have hg := grows_validator hb mode
      exact hg.trans (ih (hg.sound hb) h)

theorem grows_addValidators {b b' : Builder} {node : Node} (hb : b.Sound)
    (h : b.addValidators node = .ok b') : Grows b b' := by
  unfold addValidators at h
  split at h
  · exact grows_addModes hb h
  · cases h

/-! ## Names -/

/-- Authorizers and models of these names were added, and validators perhaps. -/
structure Names (authorizers models : List String) (b b' : Builder) : Prop where
  authorizers : Table.keys b'.registry.authorizers = Table.keys b.registry.authorizers ++ authorizers
  models : Table.keys b'.registry.models = Table.keys b.registry.models ++ models
  resources : b'.registry.resources = b.registry.resources
  methods : b'.registry.methods = b.registry.methods

namespace Names
variable {as bs ms ns : List String} {a b c : Builder}

theorem refl (b : Builder) : Names [] [] b b :=
  ⟨(List.append_nil _).symm, (List.append_nil _).symm, rfl, rfl⟩

theorem trans (h : Names as ms a b) (h' : Names bs ns b c) : Names (as ++ bs) (ms ++ ns) a c where
  authorizers := by rw [h'.authorizers, h.authorizers, List.append_assoc]
  models := by rw [h'.models, h.models, List.append_assoc]
  resources := h'.resources.trans h.resources
  methods := h'.methods.trans h.methods

end Names

theorem SameBesideValidators.names {b b' : Builder} (h : SameBesideValidators b b') : Names [] [] b b' where
  authorizers := by rw [h.authorizers, List.append_nil]
  models := by rw [h.models, List.append_nil]
  resources := h.resources
  methods := h.methods

theorem names_addAuthorizer (b : Builder) (name : String) (body : Node) :
    Names [name] [] b (b.addAuthorizer name body) where
  authorizers := List.map_append
  models := (List.append_nil _).symm
  resources := rfl
  methods := rfl

theorem names_addModel (b : Builder) (name : String) (body : Node) :
    Names [] [name] b (b.addModel name body) := by
  have hc := compileAt_sameParts compile_sameParts (b.claim s!"{b.registry.api}{slug name}Model").2
    body.entries "Schema"
  refine ⟨?_, ?_, ?_, ?_⟩
  all_goals simp only [addModel, define, hc.registry]
  · exact (List.append_nil _).symm
  · exact List.map_append
  · rfl
  · rfl

/-- The names in a part of a declaration. -/
def namesOf : Option Node → List String
  | some (.map entries) => Table.keys entries
  | _ => []

theorem names_addAuthorizers {b b' : Builder} {node : Option Node}
    (h : b.addPart addAuthorizers node = .ok b') : Names (namesOf node) [] b b' := by
  cases node with
  | none => exact Except.ok.inj h ▸ .refl b
  | some node =>
      change b.addAuthorizers node = .ok b' at h
      unfold addAuthorizers at h
      split at h
      · rename_i entries
        obtain rfl := Except.ok.inj h
        clear h
        induction entries generalizing b with
        | nil => exact .refl b
        | cons e entries ih => exact (names_addAuthorizer b e.1 e.2).trans ih
      · cases h

theorem names_addModels {b b' : Builder} {node : Option Node}
    (h : b.addPart addModels node = .ok b') : Names [] (namesOf node) b b' := by
  cases node with
  | none => exact Except.ok.inj h ▸ .refl b
  | some node =>
      change b.addModels node = .ok b' at h
      unfold addModels at h
      split at h
      · rename_i entries
        obtain rfl := Except.ok.inj h
        clear h
        induction entries generalizing b with
        | nil => exact .refl b
        | cons e entries ih => exact (names_addModel b e.1 e.2).trans ih
      · cases h

theorem names_addValidators {b b' : Builder} {node : Option Node}
    (h : b.addPart addValidators node = .ok b') : Names [] [] b b' := by
  cases node with
  | none => exact Except.ok.inj h ▸ .refl b
  | some node =>
      change b.addValidators node = .ok b' at h
      unfold addValidators at h
      split at h
      · rename_i nodes
        induction nodes generalizing b with
        | nil => exact Except.ok.inj h ▸ .refl b
        | cons node nodes ih =>
            obtain ⟨mode, _, h⟩ := Outcome.bind_eq_ok.mp h
            exact (sameBesideValidators_validator b mode).names.trans (ih h)
      · cases h

/-! ## The path tree -/

theorem Knows.mono {b b' : Builder} {place : Place} (h : b.Knows place) (hg : Grows b b') :
    b'.Knows place := by
  cases h with
  | root => exact .root
  | resource hp h => exact .resource hp (hg.resources h)

theorem Knows.isBase {b : Builder} {place : Place} (h : b.Knows place) {s : String} (hs : IsWord s) :
    b.IsBase (b.placeId place ++ s) := by
  refine ⟨_, ?_, s, hs, rfl⟩
  cases h with
  | root => exact b.mem_ids_api
  | resource _ h => exact Registry.mem_ids_of_resource h

theorem child_ne_root (path : Path) (segment : String) : path.child segment ≠ Path.root := by
  simp [Path.child, Path.root]

theorem grows_addSegment {b b' : Builder} {place below : Place} {segment : String} (hb : b.Sound)
    (hp : b.Knows place) (h : b.addSegment place segment = .ok (below, b')) :
    Grows b b' ∧ b'.Knows below := by
  unfold addSegment at h
  split at h
  · cases h
  · simp only at h
    split at h
    · rename_i id hget
      obtain ⟨rfl, rfl⟩ := Prod.mk.inj (Except.ok.inj h)
      exact ⟨.refl, .resource (child_ne_root _ _) hget⟩
    · rename_i hn
      obtain ⟨rfl, rfl⟩ := Prod.mk.inj (Except.ok.inj h)
      have hc : Grows b (b.claim _).2 := .single (.claim (hp.isBase (isWord_slug segment)))
      refine ⟨hc.trans (.single (.part (.resource (hp.mono hc) hn rfl) (claim_mem_usedIds b _)
        (hb.claim_not_mem_ids _))), .resource (child_ne_root _ _) ?_⟩
      exact Table.get?_append_self _ (Table.get?_eq_none_iff.mp hn)

theorem grows_addSegments {b b' : Builder} {place below : Place} {segments : List String}
    (hb : b.Sound) (hp : b.Knows place) (h : b.addSegments place segments = .ok (below, b')) :
    Grows b b' ∧ b'.Knows below := by
  induction segments generalizing b place with
  | nil =>
      obtain ⟨rfl, rfl⟩ := Prod.mk.inj (Except.ok.inj h)
      exact ⟨.refl, hp⟩
  | cons segment segments ih =>
      obtain ⟨⟨middle, b₁⟩, h₁, h⟩ := Outcome.bind_eq_ok.mp h
      obtain ⟨hg₁, hm⟩ := grows_addSegment hb hp h₁
      obtain ⟨hg, hk⟩ := ih (hg₁.sound hb) hm h
      exact ⟨hg₁.trans hg, hk⟩

/-- Nothing is done for validation but to define a validator. -/
theorem validate_eq_ok {b b' : Builder} {props props' : Table Node} {node : Option Node}
    (h : b.validate props node = .ok (props', b')) : b' = b ∨ ∃ mode, b' = (b.validator mode).2 := by
  unfold validate at h
  split at h
  · exact .inl (Prod.mk.inj (Except.ok.inj h)).2.symm
  · obtain ⟨mode, _, h⟩ := Outcome.bind_eq_ok.mp h
    exact .inr ⟨mode, (Prod.mk.inj (Except.ok.inj h)).2.symm⟩

theorem sameBesideValidators_validate {b b' : Builder} {props props' : Table Node} {node : Option Node}
    (h : b.validate props node = .ok (props', b')) : SameBesideValidators b b' := by
  rcases validate_eq_ok h with rfl | ⟨mode, rfl⟩
  · exact ⟨rfl, rfl, rfl, rfl, rfl⟩
  · exact sameBesideValidators_validator b mode

theorem grows_validate {b b' : Builder} {props props' : Table Node} {node : Option Node} (hb : b.Sound)
    (h : b.validate props node = .ok (props', b')) : Grows b b' := by
  rcases validate_eq_ok h with rfl | ⟨mode, rfl⟩
  · exact .refl
  · exact grows_validator hb mode

theorem not_mem_ids_validate {b b' : Builder} {props props' : Table Node} {node : Option Node}
    (h : b.validate props node = .ok (props', b')) {id : String} (hu : id ∈ b.registry.usedIds)
    (hn : id ∉ b.registry.ids) : id ∉ b'.registry.ids := by
  rcases validate_eq_ok h with rfl | ⟨mode, rfl⟩
  · exact hn
  · exact not_mem_ids_validator hu hn mode

/-- A verb in capital letters. -/
def capital (verb : String) : String := String.ofList (verb.toList.map Char.toUpper)

/-- The last things that are put among the properties of a method. -/
def methodProps (b : Builder) (place : Place) (verb : String) (props : Table Node) : Table Node :=
  Table.put (Table.put (Table.put props "HttpMethod" (.text verb)) "ResourceId" (b.placeRef place))
    "RestApiId" b.apiRef

/-- How a method comes to its properties: its authorizer, its validator and its model are put in for their
names, and structures are compiled. -/
inductive MadeProps (b : Builder) (place : Place) (verb : String) (body : Node) :
    Builder → Builder → Table Node → Prop
  | intro {authorized props modelled : Table Node} {validated : Builder}
      (ha : b.authorize place.path verb (["Authorizer", "Validate", "Model"].foldl Table.erase body.entries)
        (Table.get? body.entries "Authorizer") = .ok authorized)
      (hv : b.validate (Table.putNew authorized "AuthorizationType" (.text "NONE"))
        (Table.get? (Table.erase body.entries "Authorizer") "Validate") = .ok (props, validated))
      (hm : validated.useModel place.path verb props
        (Table.get? (Table.erase (Table.erase body.entries "Authorizer") "Validate") "Model") = .ok modelled) :
      MadeProps b place verb body validated (compileAt compileIntegration validated modelled "Integration").2
        (compileAt compileIntegration validated modelled "Integration").1

namespace MadeProps
variable {b validated compiled : Builder} {place : Place} {verb : String} {body : Node} {final : Table Node}

theorem exists_validate (h : MadeProps b place verb body validated compiled final) :
    ∃ props mode props', b.validate props mode = .ok (props', validated) := by
  cases h with
  | intro _ hv _ => exact ⟨_, _, _, hv⟩

theorem sameParts (h : MadeProps b place verb body validated compiled final) : SameParts validated compiled := by
  cases h with
  | intro _ _ _ => exact compileAt_sameParts compileIntegration_sameParts validated _ "Integration"

end MadeProps

/-- A method's id is claimed first, then a validator may be defined and structures are compiled, and the
method itself is registered last. -/
theorem addMethod_cases {b b' : Builder} {place : Place} {verb : String} {body : Node}
    (h : b.addMethod place verb body = .ok b') :
    ∃ base id validated compiled final,
      Table.get? b.registry.methods (place.path, capital verb) = none ∧
      base = b.placeId place ++ slug (capital verb) ∧ id = (b.claim base).1 ∧
      MadeProps (b.claim base).2 place (capital verb) body validated compiled final ∧
      b' = { compiled with registry := { compiled.registry with
          methods := compiled.registry.methods ++ [((place.path, capital verb), id)] } }.define
        (.new id methodType (compiled.methodProps place (capital verb) final)) := by
  unfold addMethod at h
  simp only [malformed] at h
  split at h
  · obtain ⟨_, he, _⟩ := Outcome.bind_eq_ok.mp h
    cases he
  · split at h
    · obtain ⟨_, he, _⟩ := Outcome.bind_eq_ok.mp h
      cases he
    · rename_i hn
      obtain ⟨props, ha, h⟩ := Outcome.bind_eq_ok.mp h
      obtain ⟨⟨props₁, b₁⟩, hv, h⟩ := Outcome.bind_eq_ok.mp h
      obtain ⟨props₂, hm, h⟩ := Outcome.bind_eq_ok.mp h
      obtain rfl := Except.ok.inj h
      exact ⟨_, _, _, _, _, Option.not_isSome_iff_eq_none.mp hn, rfl, rfl, .intro ha hv hm, rfl⟩

theorem MadeProps.grows {b validated compiled : Builder} {place : Place} {verb : String} {body : Node}
    {final : Table Node} (hb : b.Sound) (h : MadeProps b place verb body validated compiled final) :
    Grows b compiled := by
  obtain ⟨_, _, _, hv⟩ := h.exists_validate
  exact (grows_validate hb hv).trans h.sameParts.grows

/-- The method is the part that is registered last. -/
theorem addMethod_spec {b b' : Builder} {place : Place} {verb : String} {body : Node} (hb : b.Sound)
    (hp : b.Knows place) (h : b.addMethod place verb body = .ok b') :
    ∃ base validated compiled final registry d,
      Table.get? b.registry.methods (place.path, capital verb) = none ∧
      base = b.placeId place ++ slug (capital verb) ∧
      MadeProps (b.claim base).2 place (capital verb) body validated compiled final ∧
      d = .new (b.claim base).1 methodType (compiled.methodProps place (capital verb) final) ∧
      compiled.Part d (.method place.path (capital verb)) registry ∧
      b' = { compiled with registry := registry }.define d := by
  obtain ⟨base, _, validated, compiled, final, hn, rfl, rfl, hprops, rfl⟩ := addMethod_cases h
  obtain ⟨_, _, _, hv⟩ := hprops.exists_validate
  have hc := hprops.sameParts
  have hs := sameBesideValidators_validate hv
  have hclaim : Grows b (b.claim _).2 := .single (.claim (hp.isBase (isWord_slug (capital verb))))
  have hg := hclaim.trans (hprops.grows (hclaim.sound hb))
  refine ⟨_, validated, compiled, final, _, _, hn, rfl, hprops, rfl, .method (hp.mono hg) ?_ rfl ?_ ?_, rfl⟩
  · rw [hc.registry, hs.methods]
    exact hn
  · simp [Definition.new, methodProps, Table.get?_put_of_ne]
  · simp [Definition.new, methodProps, Table.get?_put_of_ne]

theorem grows_addMethod {b b' : Builder} {place : Place} {verb : String} {body : Node} (hb : b.Sound)
    (hp : b.Knows place) (h : b.addMethod place verb body = .ok b') : Grows b b' := by
  obtain ⟨_, _, compiled, _, _, _, -, rfl, hprops, rfl, hpart, rfl⟩ := addMethod_spec hb hp h
  obtain ⟨_, _, _, hv⟩ := hprops.exists_validate
  have hclaim : Grows b (b.claim _).2 := .single (.claim (hp.isBase (isWord_slug (capital verb))))
  have hg := hprops.grows (hclaim.sound hb)
  refine (hclaim.trans hg).trans (.single (.part hpart (hg.usedIds (claim_mem_usedIds b _)) ?_))
  -- the method's id is claimed before a validator is defined, and used after it
  rw [hprops.sameParts.registry]
  exact not_mem_ids_validate hv (claim_mem_usedIds b _) (hb.claim_not_mem_ids _)

/-- How one level of a path tree is gone through, entry by entry, with the levels below it. -/
inductive Draws : Builder → Place → List (String × Node) → Builder → Prop
  | nil {b : Builder} {place : Place} : Draws b place [] b
  | null {b b' : Builder} {place : Place} {key : String} {entries : List (String × Node)}
      (h : Draws b place entries b') : Draws b place ((key, .null) :: entries) b'
  | path {b b₁ b₂ b' : Builder} {place below : Place} {key : String} {segments : List String}
      {tree entries : List (String × Node)} (hk : TreeKey.ofText? key = some (.path segments))
      (hs : b.addSegments place segments = .ok (below, b₁)) (hbelow : Draws b₁ below tree b₂)
      (h : Draws b₂ place entries b') : Draws b place ((key, .map tree) :: entries) b'
  | method {b b₁ b' : Builder} {place : Place} {key verb : String} {body : Node}
      {entries : List (String × Node)} (hk : TreeKey.ofText? key = some (.method verb))
      (hv : body ≠ .null) (hm : b.addMethod place verb body = .ok b₁)
      (h : Draws b₁ place entries b') : Draws b place ((key, body) :: entries) b'

mutual
theorem draws_of_addTree {b b' : Builder} {place : Place} (entries : List (String × Node))
    (h : b.addTree place entries = .ok b') : Draws b place entries b' := by
  match entries with
  | [] => exact Except.ok.inj h ▸ .nil
  | (key, value) :: entries =>
      by_cases hv : value = .null
      · subst hv
        exact .null (draws_of_addTree entries h)
      · simp only [addTree] at h
        split at h
        · rename_i hk
          obtain ⟨⟨below, b₁⟩, hs, hrest⟩ := Outcome.bind_eq_ok.mp h
          obtain ⟨b₂, h₂, hnext⟩ := Outcome.bind_eq_ok.mp hrest
          obtain ⟨tree, rfl, hbelow⟩ := draws_of_addSubtree value h₂
          exact .path hk hs hbelow (draws_of_addTree entries hnext)
        · rename_i hk
          obtain ⟨b₁, hm, h⟩ := Outcome.bind_eq_ok.mp h
          exact .method hk hv hm (draws_of_addTree entries h)
        · cases h

theorem draws_of_addSubtree {b b' : Builder} {place : Place} (node : Node)
    (h : b.addSubtree place node = .ok b') : ∃ tree, node = .map tree ∧ Draws b place tree b' := by
  match node with
  | .map tree => exact ⟨tree, rfl, draws_of_addTree tree (by simpa [addSubtree] using h)⟩
  | .null | .bool _ | .number _ | .text _ | .list _ => cases h
end

theorem Draws.grows {b b' : Builder} {place : Place} {entries : List (String × Node)}
    (h : Draws b place entries b') (hb : b.Sound) (hp : b.Knows place) : Grows b b' := by
  induction h with
  | nil => exact .refl
  | null _ ih => exact ih hb hp
  | path _ hs _ _ ihbelow ih =>
      obtain ⟨hg₁, hk⟩ := grows_addSegments hb hp hs
      have hg := hg₁.trans (ihbelow (hg₁.sound hb) hk)
      exact hg.trans (ih (hg.sound hb) (hp.mono hg))
  | method _ _ hm _ ih =>
      have hg := grows_addMethod hb hp hm
      exact hg.trans (ih (hg.sound hb) (hp.mono hg))

/-! ## The whole declaration -/

theorem Sound.withCondition {b : Builder} (hb : b.Sound) (condition : Option String) :
    { b with definitions := b.definitions.map fun (d : Definition) => d.withCondition condition }.Sound := by
  refine ⟨hb.used, hb.claimed, fun id hid => ?_⟩
  simpa [Builder.defined, Function.comp_def, Definition.withCondition] using hb.defined id hid

theorem addDeployment_eq_ok {b b' : Builder} {digestLength : Nat} {condition : Option String}
    {deployment : Node} (h : b.addDeployment digestLength condition deployment = .ok b') :
    ∃ base props, b.IsBase base ∧
      b' = { (b.claim base).2 with registry :=
          { (b.claim base).2.registry with deployment := some (b.claim base).1 } }.define
        { id := (b.claim base).1, type := deploymentType, condition := condition,
          dependsOn := b.methodIds, properties := props, attributes := [] } := by
  unfold Builder.addDeployment at h
  split at h
  · have hbase : b.IsBase s!"{b.registry.api}Deployment{Digest.suffix b.definitions digestLength}" :=
      b.isBase_api (by decide) (isWord_suffix _ _)
    exact ⟨_, _, hbase, (Except.ok.inj h).symm⟩
  · cases h

theorem Sound.addDeployment {b b' : Builder} (hb : b.Sound) (hn : b.registry.deployment = none)
    {digestLength : Nat} {condition : Option String} {deployment : Node}
    (h : b.addDeployment digestLength condition deployment = .ok b') : b'.Sound := by
  obtain ⟨base, props, hbase, rfl⟩ := addDeployment_eq_ok h
  exact (hb.claim hbase).define (claim_mem_usedIds b _) rfl
    (Registry.mem_ids_of_parts (Registry.parts_deployment hn))

theorem grows_addPart {add : Builder → Node → Except Error Builder}
    (hadd : ∀ {b b' node}, b.Sound → add b node = .ok b' → Grows b b') {b b' : Builder}
    {node : Option Node} (hb : b.Sound) (h : b.addPart add node = .ok b') : Grows b b' := by
  cases node with
  | none => exact Except.ok.inj h ▸ .refl
  | some node => exact hadd hb h

theorem claim_first (api : String) : (({ api := api } : Registry).claim api).1 = api := by
  show String.ofList (api.toList ++ []) = api
  rw [List.append_nil, String.ofList_toList]

/-- The work begins with the container, under the id of the API. -/
def container (api : String) (props : Table Node) : Builder :=
  { registry := (({ api := api } : Registry).claim api).2 : Builder }.define
    (.new (({ api := api } : Registry).claim api).1 containerType props)

theorem sound_container {api : String} (ha : IsId api) (props : Table Node) :
    (container api props).Sound := by
  have hused : (({ api := api } : Registry).claim api).2.usedIds = [api] := by
    rw [claim_usedIds, claim_first]
    rfl
  refine ⟨fun id hid => ?_, fun id hid => ?_, fun id hid => ?_⟩
  · obtain rfl := List.mem_singleton.mp (hused ▸ hid)
    exact ha
  · rw [List.mem_singleton.mp hid]
    exact hused ▸ List.mem_singleton_self api
  · rw [List.mem_singleton.mp hid, container, define_defined, Definition.new, claim_first]
    exact List.mem_singleton_self api

/-- The condition of a declaration: a name, or none. -/
def conditionOf (declaration : Node) : Option String :=
  (Table.get? declaration.entries "Condition").bind Node.text?

/-- The keys of a declaration that have a meaning of their own. -/
def ownKeys : List String := ["Condition", "Authorizers", "Models", "Validators", "Deployment"]

/-- What is left of a declaration without its own keys: the path tree, and the container's properties. -/
def restOf (declaration : Node) : Table Node := ownKeys.foldl Table.erase declaration.entries

def treeOf (declaration : Node) : Table Node := (restOf declaration).filter fun e => isTreeKey e.1

def containerProps (api : String) (declaration : Node) : Table Node :=
  Table.putNew ((restOf declaration).filter fun e => !isTreeKey e.1) "Name" (.text api)

/-- The work on a declaration, part after part. -/
def work (api : String) (digestLength : Nat) (declaration : Node) : Except Error Builder := do
  let b := container api (containerProps api declaration)
  if !declaration.isMap then b.malformed "declaration must be a mapping"
  let b ← b.addPart addAuthorizers (Table.get? declaration.entries "Authorizers")
  let b ← b.addPart addModels (Table.get? declaration.entries "Models")
  let b ← b.addPart addValidators (Table.get? declaration.entries "Validators")
  let b ← b.addTree ⟨Path.root, none⟩ (treeOf declaration)
  let b := { b with definitions :=
    b.definitions.map fun (d : Definition) => d.withCondition (conditionOf declaration) }
  b.addDeployment digestLength (conditionOf declaration)
    ((Table.get? declaration.entries "Deployment").getD (.map []))

/-- An expansion is what was registered and defined when the work was done. -/
theorem expand_eq_map_work (api : String) (digestLength : Nat) (declaration : Node) :
    expand api digestLength declaration =
      (work api digestLength declaration).map fun b => (b.registry, b.definitions) := by
  unfold expand work
  cases declaration.isMap with
  | false => rfl
  | true =>
      simp only [Bool.not_true, Bool.false_eq_true, ↓reduceIte, Table.take, List.partition_eq_filter_filter,
        Outcome.map_bind, Outcome.bind_ok]
      simp (disch := decide) only [Table.get?_erase_of_ne]
      rfl

/-- An accepted declaration goes through its parts in turn. -/
theorem work_eq_ok {api : String} {digestLength : Nat} {declaration : Node} {b : Builder}
    (h : work api digestLength declaration = .ok b) :
    ∃ b₁ b₂ b₃ b₄ deployment,
      (container api (containerProps api declaration)).addPart addAuthorizers
        (Table.get? declaration.entries "Authorizers") = .ok b₁ ∧
      b₁.addPart addModels (Table.get? declaration.entries "Models") = .ok b₂ ∧
      b₂.addPart addValidators (Table.get? declaration.entries "Validators") = .ok b₃ ∧
      Draws b₃ ⟨Path.root, none⟩ (treeOf declaration) b₄ ∧
      deployment = (Table.get? declaration.entries "Deployment").getD (.map []) ∧
      { b₄ with definitions :=
          b₄.definitions.map fun (d : Definition) => d.withCondition (conditionOf declaration) }.addDeployment
        digestLength (conditionOf declaration) deployment = .ok b := by
  unfold work at h
  cases hm : declaration.isMap with
  | false =>
      rw [hm] at h
      cases h
  | true =>
      simp only [hm, Bool.not_true, Bool.false_eq_true, ↓reduceIte, Outcome.bind_eq_ok] at h
      obtain ⟨b₁, h₁, b₂, h₂, b₃, h₃, b₄, h₄, h⟩ := h
      exact ⟨b₁, b₂, b₃, b₄, _, h₁, h₂, h₃, draws_of_addTree _ h₄, rfl, h⟩

theorem expand_eq_ok {api : String} {digestLength : Nat} {declaration : Node} {registry : Registry}
    {ds : List Definition} (h : expand api digestLength declaration = .ok (registry, ds)) :
    ∃ b₁ b₂ b₃ b₄ b₅ deployment,
      (container api (containerProps api declaration)).addPart addAuthorizers
        (Table.get? declaration.entries "Authorizers") = .ok b₁ ∧
      b₁.addPart addModels (Table.get? declaration.entries "Models") = .ok b₂ ∧
      b₂.addPart addValidators (Table.get? declaration.entries "Validators") = .ok b₃ ∧
      Draws b₃ ⟨Path.root, none⟩ (treeOf declaration) b₄ ∧
      deployment = (Table.get? declaration.entries "Deployment").getD (.map []) ∧
      { b₄ with definitions :=
          b₄.definitions.map fun (d : Definition) => d.withCondition (conditionOf declaration) }.addDeployment
        digestLength (conditionOf declaration) deployment = .ok b₅ ∧
      registry = b₅.registry ∧ ds = b₅.definitions := by
  rw [expand_eq_map_work, Outcome.map_eq_ok] at h
  obtain ⟨b, hw, he⟩ := h
  obtain ⟨rfl, rfl⟩ := Prod.mk.inj he
  obtain ⟨b₁, b₂, b₃, b₄, deployment, h₁, h₂, h₃, h₄, hd, h₅⟩ := work_eq_ok hw
  exact ⟨b₁, b₂, b₃, b₄, b, deployment, h₁, h₂, h₃, h₄, hd, h₅, rfl, rfl⟩

/-- All parts but the deployment are added in steps. -/
theorem grows_of_parts {api : String} (ha : IsId api) {props : Table Node} {b₁ b₂ b₃ b₄ : Builder}
    {authorizers models validators : Option Node} {tree : List (String × Node)}
    (h₁ : (container api props).addPart addAuthorizers authorizers = .ok b₁)
    (h₂ : b₁.addPart addModels models = .ok b₂) (h₃ : b₂.addPart addValidators validators = .ok b₃)
    (h₄ : Draws b₃ ⟨Path.root, none⟩ tree b₄) :
    Grows (container api props) b₃ ∧ Grows (container api props) b₄ := by
  have hc := sound_container ha props
  have hg₁ := grows_addPart grows_addAuthorizers hc h₁
  have hg₂ := hg₁.trans (grows_addPart grows_addModels (hg₁.sound hc) h₂)
  have hg₃ := hg₂.trans (grows_addPart grows_addValidators (hg₂.sound hc) h₃)
  exact ⟨hg₃, hg₃.trans (h₄.grows (hg₃.sound hc) .root)⟩

/-- Before the path tree there are the declared names only. -/
theorem names_of_parts {b b₁ b₂ b₃ : Builder} {authorizers models validators : Option Node}
    (h₁ : b.addPart addAuthorizers authorizers = .ok b₁) (h₂ : b₁.addPart addModels models = .ok b₂)
    (h₃ : b₂.addPart addValidators validators = .ok b₃) :
    Names (namesOf authorizers) (namesOf models) b b₃ := by
  have hn := ((names_addAuthorizers h₁).trans (names_addModels h₂)).trans (names_addValidators h₃)
  simpa only [List.append_nil, List.nil_append] using hn

/-- Every part of an accepted declaration is registered under the id of a definition. -/
theorem registered_of_expand {api : String} (ha : IsId api) {digestLength : Nat} {declaration : Node}
    {registry : Registry} {ds : List Definition}
    (h : expand api digestLength declaration = .ok (registry, ds)) {id : String} (hid : id ∈ registry.ids) :
    IsId id ∧ id ∈ ds.map Definition.id := by
  obtain ⟨b₁, b₂, b₃, b₄, b₅, _, h₁, h₂, h₃, h₄, _, h₅, rfl, rfl⟩ := expand_eq_ok h
  have hc := sound_container ha (containerProps api declaration)
  obtain ⟨-, hg⟩ := grows_of_parts ha h₁ h₂ h₃ h₄
  have hb := ((hg.sound hc).withCondition (conditionOf declaration)).addDeployment hg.deployment h₅
  exact ⟨hb.used id (hb.claimed id hid), hb.defined id hid⟩

end Shorthand.Api.Builder
