import Shorthand.Proofs.Api.Plain
import Shorthand.Proofs.Api.Reordering

/-!
# Methods by themselves

What a method is defined as depends on the names that are declared and on nothing that was done in the path tree
before, if the parts stand under their bases and no name was made up.
-/
namespace Shorthand.Api.Builder

/-! ## What only grows -/

/-- Parts and definitions stay. -/
structure Keeps (b b' : Builder) : Prop where
  parts : b.registry.parts ⊆ b'.registry.parts
  definitions : b.definitions ⊆ b'.definitions

theorem Step.keeps {b b' : Builder} (h : Step b b') : Keeps b b' := by
  cases h with
  | claim _ => exact ⟨fun _ hp => hp, fun _ hd => hd⟩
  | part hp _ _ => exact ⟨fun _ hm => hp.mem_parts.mpr (.inl hm), List.subset_append_left _ _⟩
  | other h => exact ⟨by rw [h.registry]; exact fun _ hp => hp, by rw [h.definitions]; exact fun _ hd => hd⟩

theorem Grows.keeps {b b' : Builder} (h : Grows b b') : Keeps b b' := by
  induction h with
  | refl => exact ⟨fun _ hp => hp, fun _ hd => hd⟩
  | tail _ hs ih =>
      exact ⟨fun _ hp => hs.keeps.parts (ih.parts hp), fun _ hd => hs.keeps.definitions (ih.definitions hd)⟩

theorem Plain.of_grows {b b' : Builder} (h : b'.Plain) (hg : Grows b b') : b.Plain := by
  intro p hp
  rw [← hg.api]
  exact h p (hg.keeps.parts hp)

/-! ## Validators -/

/-- The kind of validation that a method asks for. -/
def modeOf (body : Node) : Option ValidatorMode :=
  ((Table.get? body.entries "Validate").bind Node.text?).bind ValidatorMode.ofText?

theorem issued_validator (b : Builder) (mode : ValidatorMode) : (b.validator mode).2.issued = b.issued := by
  rcases b.validator_registers mode with ⟨_, _, he⟩ | ⟨_, _, _, _, _, _, _, he⟩ <;> rw [he]
  rfl

theorem mem_parts_validator (b : Builder) (mode : ValidatorMode) :
    (.validator mode, (b.validator mode).1) ∈ (b.validator mode).2.registry.parts := by
  rcases b.validator_registers mode with ⟨_, hid, he⟩ | ⟨_, _, _, _, _, hp, _, he⟩ <;> rw [he]
  · have := Table.mem_of_get? hid
    simp [Registry.parts, this]
  · exact hp.mem_parts.mpr (.inr rfl)

/-- A reference to the validator is put in, where validation is asked for. -/
theorem validate_spec {b b' : Builder} {props out : Table Node} {node : Option Node}
    (h : b.validate props node = .ok (out, b')) :
    node = none ∧ out = props ∧ b' = b ∨ ∃ mode, (node.bind Node.text?).bind ValidatorMode.ofText? = some mode ∧
      out = Table.put props "RequestValidatorId" (.refTo (b.validator mode).1) ∧ b' = (b.validator mode).2 := by
  unfold validate at h
  split at h
  · obtain ⟨rfl, rfl⟩ := Prod.mk.inj (Except.ok.inj h)
    exact .inl ⟨rfl, rfl, rfl⟩
  · obtain ⟨mode, hm, h⟩ := Outcome.bind_eq_ok.mp h
    obtain ⟨rfl, rfl⟩ := Prod.mk.inj (Except.ok.inj h)
    refine .inr ⟨mode, ?_, rfl, rfl⟩
    unfold readMode at hm
    split at hm
    · rename_i hmode
      rw [← Except.ok.inj hm]
      exact hmode
    · cases hm

/-! ## One method -/

/-- The names of a declaration, and nothing of its path tree but that all validators are there. -/
def alone (b : Builder) : Builder :=
  { registry :=
      { api := b.registry.api
        authorizers := b.registry.authorizers
        models := b.registry.models
        validators := [.body, .params, .all].map fun mode =>
          (mode, (ApiPart.validator mode).base b.registry.api) } }

theorem alone_eq {b b' : Builder} (ha : b'.registry.api = b.registry.api) (hn : SameNames b b') :
    b'.alone = b.alone := by
  rw [alone, alone, ha, hn.authorizers, hn.models]

theorem validator_alone (b : Builder) (mode : ValidatorMode) :
    b.alone.validator mode = ((ApiPart.validator mode).base b.registry.api, b.alone) := by
  cases mode <;> rfl

theorem authorize_alone (b : Builder) (path : Path) (verb : String) (props : Table Node) (node : Option Node) :
    b.alone.authorize path verb props node = b.authorize path verb props node := by
  cases node <;> rfl

theorem useModel_alone {b b' : Builder} (hs : SameBesideValidators b b') (path : Path) (verb : String)
    (props : Table Node) (node : Option Node) :
    b.alone.useModel path verb props node = b'.useModel path verb props node := by
  cases node with
  | none => rfl
  | some node =>
      simp only [useModel, context, hs.models, hs.api]
      rfl

theorem validate_alone {b b' : Builder} {props out : Table Node} {node : Option Node}
    (h : b.validate props node = .ok (out, b')) (hp : b'.Plain) (ha : b'.registry.api = b.registry.api) :
    b.alone.validate props node = .ok (out, b.alone) := by
  rcases validate_spec h with ⟨rfl, rfl, rfl⟩ | ⟨mode, hmode, rfl, rfl⟩
  · rfl
  · cases node with
    | none => cases hmode
    | some node =>
        have hread : b.alone.readMode node = .ok mode := by
          have hmode : node.text?.bind ValidatorMode.ofText? = some mode := hmode
          rw [readMode, hmode]
        have hid := hp _ (b.mem_parts_validator mode)
        rw [ha] at hid
        simp only [validate, hread, Outcome.ok_bind, validator_alone]
        rw [← hid]

namespace MadeProps
variable {b validated compiled : Builder} {place : Place} {verb : String} {body : Node} {final : Table Node}

theorem issued_le (h : MadeProps b place verb body validated compiled final) : validated.issued ≤ compiled.issued := by
  cases h with
  | intro _ _ _ => exact (resumes_compileAt resumes_compileIntegration "Integration").le validated _

/-- Validation is the only thing for which something may be registered. -/
theorem validated_cases (h : MadeProps b place verb body validated compiled final) :
    modeOf body = none ∧ validated = b ∨ ∃ mode, modeOf body = some mode ∧ validated = (b.validator mode).2 := by
  cases h with
  | intro _ hv _ =>
      rw [Table.get?_erase_of_ne _ (by decide)] at hv
      rcases validate_spec hv with ⟨hn, _, he⟩ | ⟨mode, hmode, _, he⟩
      · exact .inl ⟨by rw [modeOf, hn]; rfl, he⟩
      · exact .inr ⟨mode, hmode, he⟩

theorem issued_eq (h : MadeProps b place verb body validated compiled final) : validated.issued = b.issued := by
  rcases h.validated_cases with ⟨-, rfl⟩ | ⟨mode, -, rfl⟩
  · rfl
  · exact b.issued_validator mode

/-- The properties of a method come out the same when it is worked on by itself. -/
theorem alone (h : MadeProps b place verb body validated compiled final) (hi : b.issued = 0)
    (hp : validated.Plain) :
    ∃ other, MadeProps b.alone ⟨place.path, none⟩ verb body b.alone other final ∧
      other.issued = compiled.issued := by
  have hissued : b.alone.issued = validated.issued := by
    rw [h.issued_eq, hi]
    rfl
  cases h with
  | @intro authorized props modelled _ ha hv hm =>
      have hs := sameBesideValidators_validate hv
      rw [← authorize_alone] at ha
      rw [← useModel_alone hs] at hm
      obtain ⟨hprops, hnames⟩ :=
        (resumes_compileAt resumes_compileIntegration "Integration").same modelled hissued
      exact ⟨_, hprops ▸ .intro ha (validate_alone hv hp hs.api) hm, hnames⟩

theorem unique {validated' compiled' : Builder} {final' : Table Node}
    (h : MadeProps b place verb body validated compiled final)
    (h' : MadeProps b place verb body validated' compiled' final') : compiled = compiled' ∧ final = final' := by
  cases h with
  | intro ha hv hm =>
      cases h' with
      | intro ha' hv' hm' =>
          obtain rfl := Except.ok.inj (ha.symm.trans ha')
          obtain ⟨rfl, rfl⟩ := Prod.mk.inj (Except.ok.inj (hv.symm.trans hv'))
          obtain rfl := Except.ok.inj (hm.symm.trans hm')
          exact ⟨rfl, rfl⟩

end MadeProps

/-! ## The definition of a method -/

/-- The definition of a verb at a path, by its properties. -/
def methodOf (api : String) (path : Path) (verb : String) (props : Table Node) : Definition :=
  .new ((ApiPart.method path verb).base api) methodType
    (Table.put (Table.put (Table.put props "HttpMethod" (.text verb)) "ResourceId" (pathRef api path)) "RestApiId"
      (.refTo api))

/-- The definition that comes of a method by itself, for which no name is made up. -/
inductive Gives (b : Builder) (path : Path) (verb : String) (body : Node) : Definition → Prop
  | intro {compiled : Builder} {final : Table Node}
      (h : MadeProps b.alone ⟨path, none⟩ verb body b.alone compiled final) (hi : compiled.issued = 0) :
      Gives b path verb body (methodOf b.registry.api path verb final)

theorem Gives.congr {b b' : Builder} {path : Path} {verb : String} {body : Node} {d : Definition}
    (ha : b'.alone = b.alone) (h : b.Gives path verb body d) : b'.Gives path verb body d := by
  cases h with
  | intro hmade hi =>
      rw [← ha] at hmade
      have hapi : b'.registry.api = b.registry.api := congrArg (fun b => b.registry.api) ha
      rw [← hapi]
      exact .intro hmade hi

theorem methodProps_eq {b compiled : Builder} {place : Place} (hp : b.Knows place) (h : b.Plain)
    (ha : compiled.registry.api = b.registry.api) (verb : String) (props : Table Node) :
    compiled.methodProps place verb props =
      Table.put (Table.put (Table.put props "HttpMethod" (.text verb)) "ResourceId"
        (pathRef b.registry.api place.path)) "RestApiId" (.refTo b.registry.api) := by
  have href : compiled.placeRef place = b.placeRef place := by simp only [placeRef, ha]
  rw [methodProps, href, hp.placeRef_eq h, apiRef, ha]

/-- All there is for a method: it is registered, and so is its validator, and its definition is there. -/
structure Offers (b : Builder) (path : Path) (verb : String) (body : Node) : Prop where
  registered : .method path verb ∈ Table.keys b.registry.parts
  validator : ∀ mode, modeOf body = some mode → .validator mode ∈ Table.keys b.registry.parts
  defined : ∃ d ∈ b.definitions, Gives b path verb body d

theorem Offers.mono {b b' : Builder} {path : Path} {verb : String} {body : Node} (h : b.Offers path verb body)
    (hg : Grows b b') (hn : SameNames b b') : b'.Offers path verb body where
  registered := (List.map_subset Prod.fst hg.keeps.parts) h.registered
  validator mode hm := (List.map_subset Prod.fst hg.keeps.parts) (h.validator mode hm)
  defined := by
    obtain ⟨d, hd, hgives⟩ := h.defined
    exact ⟨d, hg.keeps.definitions hd, hgives.congr (alone_eq hg.api hn)⟩

theorem offers_addMethod {b b' : Builder} {place : Place} {verb : String} {body : Node} (hb : b.Sound)
    (hp : b.Knows place) (h : b.addMethod place verb body = .ok b') (hplain : b'.Plain) (hi : b'.issued = 0) :
    b'.Offers place.path (capital verb) body := by
  have hg := grows_addMethod hb hp h
  have hn := sameNames_addMethod h
  have hb₀ := hplain.of_grows hg
  obtain ⟨base, validated, compiled, final, registry, d, -, hbase, hprops, hd, hpart, rfl⟩ := addMethod_spec hb hp h
  have hid : (.method place.path (capital verb), d.id) ∈ registry.parts := hpart.mem_parts.mpr (.inr rfl)
  have hkept : validated.registry.parts ⊆ registry.parts := fun p hm =>
    hpart.mem_parts.mpr (.inl (hprops.sameParts.registry ▸ hm))
  have hapi : compiled.registry.api = b.registry.api := hpart.api.symm.trans hg.api
  have hvalidated : validated.Plain := fun p hm => by
    rw [← hprops.sameParts.registry, hapi, ← hg.api]
    exact hplain p (hkept hm)
  refine ⟨List.mem_map_of_mem (f := Prod.fst) hid, fun mode hmode => ?_, d, ?_, ?_⟩
  · rcases hprops.validated_cases with ⟨hnone, -⟩ | ⟨other, hother, rfl⟩
    · rw [hnone] at hmode
      cases hmode
    · obtain rfl := Option.some.inj (hother.symm.trans hmode)
      exact List.mem_map_of_mem (f := Prod.fst) (hkept (mem_parts_validator _ _))
  · exact List.mem_append_right _ (List.mem_singleton_self d)
  · have hstart : (b.claim base).2.issued = 0 :=
      Nat.le_zero.mp (hprops.issued_eq ▸ hi ▸ hprops.issued_le)
    obtain ⟨other, hmade, hissued⟩ := hprops.alone hstart hvalidated
    have hdef : d = methodOf b.registry.api place.path (capital verb) final := by
      have hbare : d.id = (ApiPart.method place.path (capital verb)).base b.registry.api := by
        rw [← hg.api]
        exact hplain _ hid
      rw [methodOf, ← methodProps_eq hp hb₀ hapi, ← hbare, hd]
      rfl
    have hgives := Gives.congr (alone_eq hg.api hn) (.intro hmade (hissued.trans hi))
    rwa [← hdef] at hgives

theorem issued_addSegments {b b' : Builder} {place below : Place} {segments : List String}
    (h : b.addSegments place segments = .ok (below, b')) : b'.issued = b.issued := by
  induction segments generalizing b place with
  | nil => exact (Prod.mk.inj (Except.ok.inj h)).2 ▸ rfl
  | cons segment segments ih =>
      obtain ⟨⟨middle, b₁⟩, h₁, h⟩ := Outcome.bind_eq_ok.mp h
      refine (ih h).trans ?_
      unfold addSegment at h₁
      split at h₁
      · cases h₁
      · simp only at h₁
        split at h₁ <;> exact (Prod.mk.inj (Except.ok.inj h₁)).2 ▸ rfl

theorem issued_le_addMethod {b b' : Builder} {place : Place} {verb : String} {body : Node}
    (h : b.addMethod place verb body = .ok b') : b.issued ≤ b'.issued := by
  obtain ⟨_, _, _, _, _, _, rfl, rfl, hprops, rfl⟩ := addMethod_cases h
  exact Nat.le_trans (Nat.le_of_eq hprops.issued_eq.symm) hprops.issued_le

theorem Draws.issued_le {b b' : Builder} {place : Place} {entries : List (String × Node)}
    (h : Draws b place entries b') : b.issued ≤ b'.issued := by
  induction h with
  | nil => exact Nat.le_refl _
  | null _ ih => exact ih
  | path _ hs _ _ ihbelow ih => exact issued_addSegments hs ▸ Nat.le_trans ihbelow ih
  | method _ _ hm _ ih => exact Nat.le_trans (issued_le_addMethod hm) ih

/-- All that the methods of a tree need is there after the tree was gone through. -/
theorem Draws.offers {b b' : Builder} {place : Place} {entries : List (String × Node)}
    (h : Draws b place entries b') (hb : b.Sound) (hp : b.Knows place) (hplain : b'.Plain) (hi : b'.issued = 0)
    {path : Path} {verb : String} {body : Node} (hm : HasMethod place.path entries path verb body) :
    b'.Offers path verb body := by
  induction h with
  | nil =>
      cases hm with
      | here h _ => cases h
      | deeper h _ => cases h
  | null _ ih => exact ih hb hp hplain hi (hm.cons.resolve_left HasMethod.not_null)
  | path hk hs hbelow hrest ihbelow ih =>
      obtain ⟨rest, rfl, rfl⟩ := path_of_ofText? hk
      obtain ⟨hg₁, hk₁⟩ := grows_addSegments hb hp hs
      have hb₁ := hg₁.sound hb
      have hg₂ := hbelow.grows hb₁ hk₁
      have hb₂ := hg₂.sound hb₁
      have hp₂ := hp.mono (hg₁.trans hg₂)
      have hg := hrest.grows hb₂ hp₂
      rcases hm.cons with hm | hm
      · have hm := (addSegments_paths hs).1 ▸ hm.of_path
        exact (ihbelow hb₁ hk₁ (hplain.of_grows hg) (Nat.le_zero.mp (hi ▸ hrest.issued_le)) hm).mono hg hrest.sameNames
      · exact ih hb₂ hp₂ hplain hi hm
  | method hk _ hmethod hrest ih =>
      obtain rfl := method_of_ofText? hk
      have hg₁ := grows_addMethod hb hp hmethod
      have hb₁ := hg₁.sound hb
      have hp₁ := hp.mono hg₁
      have hg := hrest.grows hb₁ hp₁
      rcases hm.cons with hm | hm
      · obtain ⟨rfl, rfl, rfl⟩ := hm.of_verb
        have hi₁ := Nat.le_zero.mp (hi ▸ hrest.issued_le)
        exact (offers_addMethod hb hp hmethod (hplain.of_grows hg) hi₁).mono hg hrest.sameNames
      · exact ih hb₁ hp₁ hplain hi hm

end Shorthand.Api.Builder
