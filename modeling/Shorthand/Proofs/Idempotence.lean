import Shorthand.Proofs.Generated
import Shorthand.Proofs.Native

/-!
# Expanding twice

What an expansion gives is a template without shorthand, so a second expansion leaves it alone.
-/
namespace Shorthand

/-! ## No loose substitution is left -/

theorem Matrices.Rewrites.isClosed {ms : Matrices} (plain : ∀ {s t}, ms.lookup s = .ok t → t.Plain)
    {arg arg' : Node} (h : ms.Rewrites Call.sub arg (.call Call.sub arg')) {t : String}
    (ht : Call.template? arg' = some t) : Template.isClosed t = true := by
  generalize hname : Call.sub = name at h
  generalize ho : Node.call name arg' = out at h
  cases h with
  | length _ => exact absurd hname (by decide)
  | symbols _ h =>
      subst hname ho
      exact h.isClosed plain ht

namespace Import

theorem putAll_ne_nil {bindings more : Table Node} (h : more ≠ []) : Table.putAll bindings more ≠ [] := by
  obtain ⟨e, he⟩ := List.exists_mem_of_ne_nil more h
  have hk : e.1 ∈ Table.keys (Table.putAll bindings more) :=
    Table.mem_keys_putAll.mpr (.inr (List.mem_map_of_mem he))
  intro hn
  rw [hn] at hk
  cases hk

/-- A closed template gets no loose substitution from its imports. -/
theorem Expands.not_loose {arg out : Node} (h : Expands Call.sub arg out)
    (hc : ∀ t, Call.template? arg = some t → Template.isClosed t = true) : ¬ out.Loose := by
  cases h with
  | other hp =>
      refine Node.not_loose_iff.mpr ⟨hc, ?_⟩
      rintro t rfl
      cases hp
  | @free template bindings hp _ =>
      have hclosed : Template.isClosed template = true := hc template (template?_of_parts? hp)
      split
      · exact Node.not_loose_iff.mpr ⟨fun t ht => Option.some.inj ht ▸ hclosed, by simp⟩
      · rename_i hb
        refine Node.not_loose_iff.mpr ⟨fun t ht => Option.some.inj ht ▸ hclosed, ?_⟩
        rintro t he
        cases he
        exact hb rfl
  | @bound template rewritten bindings imports hp _ hne _ hclosed =>
      exact Node.not_loose_iff.mpr ⟨fun t ht => Option.some.inj ht ▸ hclosed, by simp [putAll_ne_nil, hne]⟩

end Import

namespace Expansion
variable {apis : Apis} {ms : Matrices}

/-- What the chain puts in place of a mapping is no loose substitution. -/
theorem not_loose_of_apply (plain : PlainTargets apis ms) {entries : List (String × Node)} {out : Node}
    (h : (chain apis ms).apply (.map entries) = .ok out) : ¬ out.Loose := by
  cases applies_of_apply h with
  | call _ hs =>
      cases hs with
      | other _ _ hn ho =>
          subst ho
          exact fun hl => hn hl.isSub
      | sub _ h₂ h₃ => exact h₃.not_loose fun t ht => h₂.isClosed plain.matrices ht
  | other hn ho =>
      subst ho
      intro hl
      obtain ⟨name, arg, he⟩ := Node.Loose.outlined.isCall hl
      exact hn name arg (Node.map.inj he)

/-! ## No pipeline becomes shorthand -/

/-- Under a key that no rewritten call has, a rewritten mapping has the rewritten value. -/
theorem rel_get?_of_rewrite {node out : Node} (h : (chain apis ms).rewrite node = .ok out) {key : String}
    (hk : key ∉ Call.rewritten) :
    Option.Rel (fun a b => (chain apis ms).rewrite a = .ok b) (node.get? key) (out.get? key) := by
  cases node with
  | map entries =>
      obtain ⟨news, outs, ha, rfl, hf⟩ := Chain.rewrite_map (shrinks apis ms) h
      have hsame : Table.get? news key = Table.get? entries key := by
        rcases eq_or_rewritten_of_apply ha with he | ⟨name, arg, name', arg', rfl, he, hr⟩
        · rw [Node.map.inj he]
        · -- neither call has an entry for the key
          have hne : name ≠ key := fun he => hk (he ▸ hr.old)
          have hne' : name' ≠ key := fun he => hk (he ▸ hr.new)
          simp only [Node.map.inj he, Table.get?, hne, hne', ↓reduceIte]
      have hrel := Table.rel_get?_of_forall₂ (R := fun a b => (chain apis ms).rewrite a = .ok b) hf key
      rwa [hsame] at hrel
  | list items =>
      obtain ⟨outs, rfl, _⟩ := Chain.rewrite_list (shrinks apis ms) h
      exact .none
  | _ =>
      obtain rfl := Chain.rewrite_leaf (shrinks apis ms) rfl h
      exact .none

theorem rel_list?_of_rewrite {node out : Node} (h : (chain apis ms).rewrite node = .ok out) :
    Option.Rel (List.Forall₂ fun a b => (chain apis ms).rewrite a = .ok b) node.list? out.list? := by
  cases node with
  | map entries =>
      obtain ⟨_, outs, _, rfl, _⟩ := Chain.rewrite_map (shrinks apis ms) h
      exact .none
  | list items =>
      obtain ⟨outs, rfl, hf⟩ := Chain.rewrite_list (shrinks apis ms) h
      exact .some hf
  | _ =>
      obtain rfl := Chain.rewrite_leaf (shrinks apis ms) rfl h
      exact .none

theorem hasActionMap_of_rewrite {node out : Node} (h : (chain apis ms).rewrite node = .ok out) :
    Pipeline.hasActionMap out = Pipeline.hasActionMap node := by
  have hrel := rel_get?_of_rewrite h (show "Actions" ∉ Call.rewritten by decide)
  unfold Pipeline.hasActionMap
  generalize node.get? "Actions" = a at hrel
  generalize out.get? "Actions" = b at hrel
  cases hrel with
  | none => rfl
  | some h => exact congrArg (Option.getD · false) (congrArg some (sameOutline_of_rewrite h).isMap_eq)

theorem any_hasActionMap_of_rewrite {stages outs : List Node}
    (h : List.Forall₂ (fun a b => (chain apis ms).rewrite a = .ok b) stages outs) :
    outs.any Pipeline.hasActionMap = stages.any Pipeline.hasActionMap := by
  induction h with
  | nil => rfl
  | cons h _ ih => rw [List.any_cons, List.any_cons, hasActionMap_of_rewrite h, ih]

theorem rel_stagesOf?_of_rewrite {node out : Node} (h : (chain apis ms).rewrite node = .ok out) :
    Option.Rel (List.Forall₂ fun a b => (chain apis ms).rewrite a = .ok b) (Pipeline.stagesOf? node)
      (Pipeline.stagesOf? out) := by
  have hproperties := rel_get?_of_rewrite h (show "Properties" ∉ Call.rewritten by decide)
  have hstages := Outcome.rel_bind hproperties fun _ _ h =>
    rel_get?_of_rewrite h (show "Stages" ∉ Call.rewritten by decide)
  exact Outcome.rel_bind hstages fun _ _ h => rel_list?_of_rewrite h

/-- The walk makes no resource a shorthand pipeline, and leaves every shorthand pipeline one. -/
theorem isShorthand_of_rewrite (types : List String) {node out : Node}
    (h : (chain apis ms).rewrite node = .ok out) :
    Pipeline.isShorthand types out = Pipeline.isShorthand types node := by
  have htype : (out.get? "Type").bind Node.text? = (node.get? "Type").bind Node.text? := by
    have hrel := rel_get?_of_rewrite h (show "Type" ∉ Call.rewritten by decide)
    generalize node.get? "Type" = a at hrel
    generalize out.get? "Type" = b at hrel
    cases hrel with
    | none => rfl
    | some h => exact (sameOutline_of_rewrite h).text?_eq
  have hstages := rel_stagesOf?_of_rewrite h
  unfold Pipeline.isShorthand
  rw [htype]
  generalize Pipeline.stagesOf? node = olds at hstages
  generalize Pipeline.stagesOf? out = news at hstages
  cases hstages with
  | none => rfl
  | some hf =>
      cases (node.get? "Type").bind Node.text? with
      | none => rfl
      | some type => exact congrArg (types.contains type && ·) (any_hasActionMap_of_rewrite hf)

theorem isShorthand_of_not_isMap (types : List String) {node : Node} (h : node.isMap = false) :
    Pipeline.isShorthand types node = false := by
  cases node with
  | map _ => cases h
  | _ => rfl

/-- Resources without shorthand pipelines get none from the walk. -/
theorem not_isShorthand_of_rewrite {types : List String} {resources outs : Table Node}
    (hr : ∀ e ∈ resources, Pipeline.isShorthand types e.2 = false)
    (h : (chain apis ms).rewrite (.map resources) = .ok (.map outs)) :
    ∀ e ∈ outs, Pipeline.isShorthand types e.2 = false := by
  obtain ⟨news, outs', ha, he, hf⟩ := Chain.rewrite_map (shrinks apis ms) h
  obtain rfl := Node.map.inj he
  have hnews : ∀ e ∈ news, Pipeline.isShorthand types e.2 = false := by
    rcases eq_or_rewritten_of_apply ha with he | ⟨_, _, _, _, _, he, hrewritten⟩
    · exact Node.map.inj he ▸ hr
    · -- one resource with the name of a call: its new argument is no mapping
      rw [Node.map.inj he]
      exact List.forall_mem_singleton.mpr (isShorthand_of_not_isMap types hrewritten.newArg)
  intro e he
  obtain ⟨old, hold, _, hrewrite⟩ := Outcome.exists_of_mem_right hf he
  rw [isShorthand_of_rewrite types hrewrite]
  exact hnews old hold

/-! ## Whole templates -/

theorem wellFormed_of_generatedBy {params : Parameters} {options : Options} {template : Table Node}
    {g : Generated} (hw : (Node.map template).WellFormed) (h : generatedBy params options template = .ok g) :
    ∀ d ∈ g.definitions, d.WellFormed :=
  wellFormed_of_generate (fun _ hg => hw.of_get? hg) (fun _ hg => (hw.erase _).of_get? hg) h

/-- The resources are well-formed before their pipelines are expanded. -/
theorem wellFormed_of_merge {ds : List Definition} {template merged : Table Node}
    (hw : (Node.map template).WellFormed) (hds : ∀ d ∈ ds, d.WellFormed)
    (h : merge ds (resourcesOf template) = .ok merged) : ∀ e ∈ merged, e.2.WellFormed := by
  rw [merge_eq h]
  refine List.forall_mem_append.mpr ⟨?_, List.forall_mem_map.mpr fun d hd => (hds d hd).toNode⟩
  unfold resourcesOf
  split
  · rename_i resources hg
    exact (Node.wellFormed_map_iff.mp (hw.of_get? hg)).2
  · simp

/-- The resources of an expanded template hold no shorthand pipeline. -/
theorem not_isShorthand_of_passes {options : Options} {template middle out : Table Node} {g : Generated}
    {summaries : List Pipeline.Summary} (hw : (Node.map template).WellFormed)
    (hds : ∀ d ∈ g.definitions, d.WellFormed)
    (hr : expandResources options g.definitions template = .ok (middle, summaries))
    (hout : (chain g.apis g.matrices).rewriteTemplate middle = .ok out) :
    ∀ e ∈ resourcesOf out, Pipeline.isShorthand options.pipelineTypes e.2 = false := by
  have hrel := Chain.rel_of_rewriteSections (by decide) hout (show resourcesKey ∈ Chain.sections by decide)
  rw [resourcesOf]
  split
  · rename_i outs hg
    rw [hg] at hrel
    rcases expandResources_eq_ok hr with ⟨_, hno, rfl, _⟩ | ⟨_, merged, expanded, hmerge, hp, rfl⟩
    · rw [Table.get?_eq_none_iff.mpr hno] at hrel
      cases hrel
    · rw [Table.get?_put_self] at hrel
      cases hrel with
      | some hrewrite =>
          refine not_isShorthand_of_rewrite ?_ hrewrite
          exact Pipeline.not_isShorthand_of_expandAll (wellFormed_of_merge hw hds hmerge) hp
  · simp

/-- In the rewritten sections nothing symbolic and nothing loose is left. -/
theorem without_of_rewriteTemplate (plain : PlainTargets apis ms) {middle out : Table Node}
    (h : (chain apis ms).rewriteTemplate middle = .ok out) {name : String} (hname : name ∈ Chain.sections)
    {node : Node} (hg : Table.get? out name = some node) :
    node.Without Node.Symbolic ∧ node.Without Node.Loose := by
  have hrel := Chain.rel_of_rewriteSections (by decide) h hname
  rw [hg] at hrel
  generalize Table.get? middle name = old at hrel
  cases hrel with
  | some hr =>
      exact ⟨(sameOutline_and_settled_of_rewrite plain hr).2,
        (sameOutline_and_without_of_rewrite Node.Loose.outlined (not_loose_of_apply plain) hr).2⟩

/-- An expanded template is one without shorthand. -/
theorem native_of_passes {params : Parameters} {options : Options} {template : Table Node} {e : Expansion}
    (hw : (Node.map template).WellFormed) (hs : ApartSections options)
    (h : ofNode params options (.map template) = .ok e) : Native options e.template := by
  obtain ⟨g, middle, summaries, hg, hr, hout, hreport⟩ := passes_of_ofNode h
  obtain ⟨ha, hm⟩ := backed_of_generate hg
  have hkeeps := keeps_of_passes hw hs ha hm hr hout hreport
  have gone : ∀ {name}, name ∉ Chain.sections → name = options.apiSection ∨ name = options.matrixSection →
      name ∉ Table.keys e.template := by
    intro name hname hsection hmem
    -- the one key that may be new is `Resources`
    rw [hkeeps.keys, List.mem_append] at hmem
    rcases hmem with hmem | hmem
    · simp only [List.mem_filter, decide_eq_true_eq] at hmem
      exact hsection.elim hmem.2.1 hmem.2.2
    · split at hmem
      · cases hmem
      · exact hname (List.mem_singleton.mp hmem ▸ by decide)
  have hw' : (Node.map (unsectioned options template)).WellFormed := (hw.erase _).erase _
  exact {
    api := gone hs.api (.inl rfl)
    matrix := gone hs.matrix (.inr rfl)
    mapping := hkeeps.mapping
    pipelines := not_isShorthand_of_passes hw' (wellFormed_of_generatedBy hw hg) hr hout
    calls := fun name hname node hnode =>
      without_of_rewriteTemplate (Generated.plainTargets ha hm) hout hname hnode }

/-- Expansion is idempotent: an expanded template is its own expansion, and there is nothing to tell about
that. -/
theorem ofNode_idempotent {params : Parameters} {options : Options} {node : Node} {e : Expansion}
    (hw : node.WellFormed) (hs : ApartSections options) (h : ofNode params options node = .ok e) :
    ofNode params options (.map e.template) = .ok ⟨e.template, {}⟩ := by
  cases node with
  | map template => exact (native_of_passes hw hs h).ofNode params
  | _ => cases h

theorem ofNode_idempotent_oneMatrix :
    (Node.map oneMatrix).WellFormed ∧ ApartSections {} ∧ ofNode [] {} (.map oneMatrix) = .ok oneMatrixExpanded ∧
      ofNode [] {} (.map oneMatrixExpanded.template) = .ok ⟨oneMatrixExpanded.template, {}⟩ := by
  have hs : ApartSections {} := ⟨by decide, by decide⟩
  have hw : (Node.map oneMatrix).WellFormed := by
    simp [oneMatrix, Node.call, Node.WellFormed, Node.EntriesWellFormed, Node.AllWellFormed, Table.Distinct,
      Table.keys]
  have h : ofNode [] {} (.map oneMatrix) = .ok oneMatrixExpanded := rfl
  exact ⟨hw, hs, h, ofNode_idempotent hw hs h⟩

end Expansion
end Shorthand
