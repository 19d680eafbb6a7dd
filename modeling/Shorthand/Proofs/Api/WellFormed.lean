import Shorthand.Proofs.Api.Builder
import Shorthand.Proofs.Definition
import Shorthand.Proofs.Fragment

/-!
# The definitions of an API are well-formed

Whatever part of a well-formed declaration is worked on, the definitions stay well-formed.
-/
namespace Shorthand.Api.Builder

/-- All definitions so far are well-formed. -/
def WellFormed (b : Builder) : Prop := ∀ d ∈ b.definitions, d.WellFormed

variable {b b' : Builder} {props : Table Node}

theorem WellFormed.define (hb : b.WellFormed) {d : Definition} (hd : d.WellFormed) : (b.define d).WellFormed := by
  intro e he
  rcases List.mem_append.mp he with he | he
  · exact hb e he
  · rw [List.mem_singleton.mp he]
    exact hd

theorem SameParts.wellFormed (h : SameParts b b') (hb : b.WellFormed) : b'.WellFormed := by
  rw [WellFormed, h.definitions]
  exact hb

/-! ## Compiling -/

/-- A compilation makes well-formed nodes of well-formed ones. -/
def Compiles (f : Builder → Node → Node × Builder) : Prop :=
  ∀ b {node : Node}, node.WellFormed → (f b node).1.WellFormed

theorem compiles_compile : Compiles compile := by
  intro b node hn
  unfold compile
  split
  · exact hn
  · exact Fragment.Compiler.wellFormed_compile _ hn

theorem wellFormed_compileAt {f : Builder → Node → Node × Builder} (hf : Compiles f)
    (hp : (Node.map props).WellFormed) (b : Builder) (key : String) :
    (Node.map (compileAt f b props key).1).WellFormed := by
  unfold compileAt
  split
  · exact hp
  · rename_i hg
    exact hp.put key (hf b (hp.of_get? hg))

theorem compileTemplates_spec (b : Builder) {templates : List (String × Node)}
    (ht : ∀ e ∈ templates, e.2.WellFormed) :
    Table.keys (b.compileTemplates templates).1 = Table.keys templates ∧
      ∀ e ∈ (b.compileTemplates templates).1, e.2.WellFormed := by
  induction templates generalizing b with
  | nil => exact ⟨rfl, by simp [compileTemplates]⟩
  | cons t templates ih =>
      obtain ⟨htemplate, ht⟩ := List.forall_mem_cons.mp ht
      obtain ⟨hkeys, hall⟩ := ih (b.compile t.2).2 ht
      exact ⟨congrArg (t.1 :: ·) hkeys, List.forall_mem_cons.mpr ⟨compiles_compile b htemplate, hall⟩⟩

theorem compiles_compileTemplateMap : Compiles compileTemplateMap := by
  intro b node hn
  unfold compileTemplateMap
  split
  · obtain ⟨hd, ht⟩ := Node.wellFormed_map_iff.mp hn
    obtain ⟨hkeys, hall⟩ := b.compileTemplates_spec ht
    refine Node.wellFormed_map_iff.mpr ⟨?_, hall⟩
    rw [Table.Distinct, hkeys]
    exact hd
  · exact hn

theorem wellFormed_compileResponses (b : Builder) {responses : List Node}
    (hr : ∀ response ∈ responses, response.WellFormed) :
    ∀ response ∈ (b.compileResponses responses).1, response.WellFormed := by
  induction responses generalizing b with
  | nil => simp [compileResponses]
  | cons response responses ih =>
      obtain ⟨hresponse, hrest⟩ := List.forall_mem_cons.mp hr
      cases response with
      | map response =>
          have hc := wellFormed_compileAt compiles_compileTemplateMap hresponse b "ResponseTemplates"
          exact List.forall_mem_cons.mpr ⟨hc, ih _ hrest⟩
      | _ => exact List.forall_mem_cons.mpr ⟨hresponse, ih b hrest⟩

theorem compiles_compileResponseList : Compiles compileResponseList := by
  intro b node hn
  unfold compileResponseList
  split
  · exact Node.wellFormed_list_iff.mpr (b.wellFormed_compileResponses (Node.wellFormed_list_iff.mp hn))
  · exact hn

theorem compiles_compileIntegration : Compiles compileIntegration := by
  intro b node hn
  unfold compileIntegration
  split
  · have hc := wellFormed_compileAt compiles_compileTemplateMap hn b "RequestTemplates"
    exact wellFormed_compileAt compiles_compileResponseList hc _ "IntegrationResponses"
  · exact hn

/-! ## The parts in turn -/

theorem wellFormed_withAuthorizerUri (hp : (Node.map props).WellFormed) {arn : Option Node}
    (ha : ∀ node, arn = some node → node.WellFormed) : (Node.map (withAuthorizerUri props arn)).WellFormed := by
  cases arn with
  | none => exact hp
  | some node =>
      refine hp.put "AuthorizerUri" (Node.wellFormed_call_iff.mpr (Node.wellFormed_list_iff.mpr ?_))
      have hbinding : (Node.map [("FunctionArn", node)]).WellFormed := Node.wellFormed_call_iff.mpr (ha node rfl)
      exact List.forall_mem_cons.mpr ⟨trivial, List.forall_mem_singleton.mpr hbinding⟩

theorem WellFormed.addAuthorizer (hb : b.WellFormed) (name : String) {body : Node} (hw : body.WellFormed) :
    (b.addAuthorizer name body).WellFormed := by
  have hown := hw.entries.erase "FunctionArn"
  have htyped := hown.putNew "Type" (Node.wellFormed_text
    (if Table.has (Table.erase body.entries "FunctionArn") "ProviderARNs" then userPools else token))
  have harn : ∀ node, Table.get? body.entries "FunctionArn" = some node → node.WellFormed :=
    fun _ hg => hw.entries.of_get? hg
  have huri := wellFormed_withAuthorizerUri htyped harn
  exact hb.define (.new ((huri.putNew "Name" (Node.wellFormed_text _)).put "RestApiId" (Node.wellFormed_refTo _)))

theorem WellFormed.addModel (hb : b.WellFormed) (name : String) {body : Node} (hw : body.WellFormed) :
    (b.addModel name body).WellFormed := by
  have hc := compileAt_sameParts compile_sameParts (b.claim s!"{b.registry.api}{slug name}Model").2
    body.entries "Schema"
  have hprops := wellFormed_compileAt compiles_compile hw.entries
    (b.claim s!"{b.registry.api}{slug name}Model").2 "Schema"
  refine WellFormed.define ?_
    (.new (((hprops.putNew "ContentType" (Node.wellFormed_text _)).putNew "Name" (Node.wellFormed_text _)).put
      "RestApiId" (Node.wellFormed_refTo _)))
  exact hc.wellFormed hb

theorem WellFormed.foldl {f : Builder → String × Node → Builder}
    (hf : ∀ {b e}, b.WellFormed → e.2.WellFormed → (f b e).WellFormed) (hb : b.WellFormed)
    {entries : List (String × Node)} (he : ∀ e ∈ entries, e.2.WellFormed) : (entries.foldl f b).WellFormed := by
  induction entries generalizing b with
  | nil => exact hb
  | cons e entries ih =>
      obtain ⟨hentry, he⟩ := List.forall_mem_cons.mp he
      exact ih (hf hb hentry) he

theorem WellFormed.addAuthorizers (hb : b.WellFormed) {node : Node} (hn : node.WellFormed)
    (h : b.addAuthorizers node = .ok b') : b'.WellFormed := by
  unfold Builder.addAuthorizers at h
  split at h
  · exact Except.ok.inj h ▸ hb.foldl (fun hb he => hb.addAuthorizer _ he) (Node.wellFormed_map_iff.mp hn).2
  · cases h

theorem WellFormed.addModels (hb : b.WellFormed) {node : Node} (hn : node.WellFormed)
    (h : b.addModels node = .ok b') : b'.WellFormed := by
  unfold Builder.addModels at h
  split at h
  · exact Except.ok.inj h ▸ hb.foldl (fun hb he => hb.addModel _ he) (Node.wellFormed_map_iff.mp hn).2
  · cases h

theorem WellFormed.validator (hb : b.WellFormed) (mode : ValidatorMode) : (b.validator mode).2.WellFormed := by
  unfold Builder.validator
  split
  · exact hb
  · refine WellFormed.define hb (.new ?_)
    simp [Node.wellFormed_map_iff, Table.Distinct, Table.keys, apiRef]

theorem WellFormed.addModes (hb : b.WellFormed) {nodes : List Node} (h : b.addModes nodes = .ok b') :
    b'.WellFormed := by
  induction nodes generalizing b with
  | nil => exact Except.ok.inj h ▸ hb
  | cons node nodes ih =>
      obtain ⟨mode, _, h⟩ := Outcome.bind_eq_ok.mp h
      exact ih (hb.validator mode) h

theorem WellFormed.addValidators (hb : b.WellFormed) {node : Node} (h : b.addValidators node = .ok b') :
    b'.WellFormed := by
  unfold Builder.addValidators at h
  split at h
  · exact hb.addModes h
  · cases h

/-! ## The path tree -/

theorem wellFormed_placeRef (b : Builder) (place : Place) : (b.placeRef place).WellFormed := by
  unfold placeRef
  split
  · exact Node.wellFormed_refTo _
  · exact Node.wellFormed_attributeOf _ _

theorem WellFormed.addSegment (hb : b.WellFormed) {place below : Place} {segment : String}
    (h : b.addSegment place segment = .ok (below, b')) : b'.WellFormed := by
  unfold Builder.addSegment at h
  split at h
  · cases h
  · simp only at h
    split at h
    · exact (Prod.mk.inj (Except.ok.inj h)).2 ▸ hb
    · obtain ⟨_, rfl⟩ := Prod.mk.inj (Except.ok.inj h)
      refine WellFormed.define hb (.new ?_)
      simp [Node.wellFormed_map_iff, Table.Distinct, Table.keys, apiRef, wellFormed_placeRef]

theorem WellFormed.addSegments (hb : b.WellFormed) {place below : Place} {segments : List String}
    (h : b.addSegments place segments = .ok (below, b')) : b'.WellFormed := by
  induction segments generalizing b place with
  | nil => exact (Prod.mk.inj (Except.ok.inj h)).2 ▸ hb
  | cons segment segments ih =>
      obtain ⟨⟨middle, b₁⟩, h₁, h⟩ := Outcome.bind_eq_ok.mp h
      exact ih (hb.addSegment h₁) h

theorem wellFormed_authorize {path : Path} {verb : String} {node : Option Node} {out : Table Node}
    (hp : (Node.map props).WellFormed) (h : b.authorize path verb props node = .ok out) :
    (Node.map out).WellFormed := by
  unfold authorize at h
  split at h
  · exact Except.ok.inj h ▸ hp
  · simp only at h
    split at h
    · cases h
    · exact Except.ok.inj h ▸
        (hp.put "AuthorizerId" (Node.wellFormed_refTo _)).putNew "AuthorizationType" (Node.wellFormed_text _)

theorem WellFormed.validate (hb : b.WellFormed) {node : Option Node} {out : Table Node}
    (hp : (Node.map props).WellFormed) (h : b.validate props node = .ok (out, b')) :
    (Node.map out).WellFormed ∧ b'.WellFormed := by
  unfold Builder.validate at h
  split at h
  · obtain ⟨rfl, rfl⟩ := Prod.mk.inj (Except.ok.inj h)
    exact ⟨hp, hb⟩
  · obtain ⟨mode, _, h⟩ := Outcome.bind_eq_ok.mp h
    obtain ⟨rfl, rfl⟩ := Prod.mk.inj (Except.ok.inj h)
    exact ⟨hp.put "RequestValidatorId" (Node.wellFormed_refTo _), hb.validator mode⟩

theorem wellFormed_useModel {path : Path} {verb : String} {node : Option Node} {out : Table Node}
    (hp : (Node.map props).WellFormed) (h : b.useModel path verb props node = .ok out) :
    (Node.map out).WellFormed := by
  unfold useModel at h
  split at h
  · exact Except.ok.inj h ▸ hp
  · simp only at h
    split at h
    · cases h
    · have hmodels := hp.putNew "RequestModels" Node.wellFormed_nil
      split at h
      · rename_i hg
        exact Except.ok.inj h ▸ hmodels.put "RequestModels"
          ((hmodels.of_get? hg).put _ (Node.wellFormed_refTo _))
      · exact Except.ok.inj h ▸ hmodels

theorem MadeProps.wellFormed {validated compiled : Builder} {place : Place} {verb : String} {body : Node}
    {final : Table Node} (h : MadeProps b place verb body validated compiled final) (hb : b.WellFormed)
    (hw : body.WellFormed) : (Node.map final).WellFormed ∧ compiled.WellFormed := by
  have hs := h.sameParts
  cases h with
  | intro ha hv hm =>
      have hown := hw.entries.of_sublist (Table.foldl_erase_sublist ["Authorizer", "Validate", "Model"] _)
      obtain ⟨hvalidated, hb'⟩ :=
        hb.validate ((wellFormed_authorize hown ha).putNew "AuthorizationType" (Node.wellFormed_text _)) hv
      exact ⟨wellFormed_compileAt compiles_compileIntegration (wellFormed_useModel hvalidated hm) _ _,
        hs.wellFormed hb'⟩

theorem WellFormed.addMethod (hb : b.WellFormed) {place : Place} {verb : String} {body : Node}
    (hw : body.WellFormed) (h : b.addMethod place verb body = .ok b') : b'.WellFormed := by
  obtain ⟨_, _, _, compiled, _, _, _, _, hprops, rfl⟩ := addMethod_cases h
  obtain ⟨hfinal, hcompiled⟩ := hprops.wellFormed hb hw
  have hplaced := (hfinal.put "HttpMethod" (Node.wellFormed_text (capital verb))).put "ResourceId"
    (compiled.wellFormed_placeRef place)
  exact WellFormed.define hcompiled (.new (hplaced.put "RestApiId" (Node.wellFormed_refTo _)))

theorem Draws.wellFormed {place : Place} {entries : List (String × Node)} (h : Draws b place entries b')
    (hb : b.WellFormed) (he : ∀ e ∈ entries, e.2.WellFormed) : b'.WellFormed := by
  induction h with
  | nil => exact hb
  | null _ ih => exact ih hb (List.forall_mem_cons.mp he).2
  | path _ hs _ _ ihbelow ih =>
      obtain ⟨htree, he⟩ := List.forall_mem_cons.mp he
      exact ih (ihbelow (hb.addSegments hs) (Node.wellFormed_map_iff.mp htree).2) he
  | method _ _ hm _ ih =>
      obtain ⟨hbody, he⟩ := List.forall_mem_cons.mp he
      exact ih (hb.addMethod hbody hm) he

/-! ## The whole declaration -/

theorem WellFormed.addPart {add : Builder → Node → Except Error Builder}
    (hadd : ∀ {b b' node}, Node.WellFormed node → b.WellFormed → add b node = .ok b' → b'.WellFormed)
    (hb : b.WellFormed) {node : Option Node} (hn : ∀ n, node = some n → n.WellFormed)
    (h : b.addPart add node = .ok b') : b'.WellFormed := by
  cases node with
  | none => exact Except.ok.inj h ▸ hb
  | some node => exact hadd (hn node rfl) hb h

theorem WellFormed.withCondition (hb : b.WellFormed) (condition : Option String) :
    { b with definitions := b.definitions.map fun (d : Definition) => d.withCondition condition }.WellFormed := by
  intro d hd
  obtain ⟨d, hmem, rfl⟩ := List.mem_map.mp hd
  exact ⟨(hb d hmem).properties, (hb d hmem).attributes⟩

theorem WellFormed.addDeployment (hb : b.WellFormed) {digestLength : Nat} {condition : Option String}
    {deployment : Node} (hw : deployment.WellFormed)
    (h : b.addDeployment digestLength condition deployment = .ok b') : b'.WellFormed := by
  unfold Builder.addDeployment at h
  split at h
  · obtain rfl := Except.ok.inj h
    exact WellFormed.define hb ⟨hw.entries.put "RestApiId" (Node.wellFormed_refTo _), Node.wellFormed_nil⟩
  · cases h

/-- What an accepted declaration generates is well-formed, as the declaration is. -/
theorem wellFormed_of_expand {api : String} {digestLength : Nat} {declaration : Node} {registry : Registry}
    {ds : List Definition} (hw : declaration.WellFormed)
    (h : expand api digestLength declaration = .ok (registry, ds)) : ∀ d ∈ ds, d.WellFormed := by
  obtain ⟨b₁, b₂, b₃, b₄, b₅, deployment, h₁, h₂, h₃, h₄, hdeployment, h₅, _, rfl⟩ := expand_eq_ok h
  have hrest : (Node.map (restOf declaration)).WellFormed :=
    hw.entries.of_sublist (Table.foldl_erase_sublist ownKeys _)
  have hprops : (Node.map (containerProps api declaration)).WellFormed :=
    (hrest.of_sublist List.filter_sublist).putNew "Name" (Node.wellFormed_text _)
  have htree : ∀ e ∈ treeOf declaration, e.2.WellFormed :=
    (Node.wellFormed_map_iff.mp (hrest.of_sublist List.filter_sublist)).2
  have hc : (container api (containerProps api declaration)).WellFormed :=
    WellFormed.define (fun _ hd => absurd hd List.not_mem_nil) (.new hprops)
  have hb₁ := hc.addPart (fun hn hb => hb.addAuthorizers hn) (fun _ hg => hw.entries.of_get? hg) h₁
  have hb₂ := hb₁.addPart (fun hn hb => hb.addModels hn) (fun _ hg => hw.entries.of_get? hg) h₂
  have hb₃ := hb₂.addPart (fun _ hb => hb.addValidators) (fun _ hg => hw.entries.of_get? hg) h₃
  have hb₄ := h₄.wellFormed hb₃ htree
  refine (hb₄.withCondition (conditionOf declaration)).addDeployment ?_ h₅
  rw [hdeployment]
  cases hg : Table.get? declaration.entries "Deployment" with
  | none => exact Node.wellFormed_nil
  | some node => exact hw.entries.of_get? hg

end Shorthand.Api.Builder
