import Shorthand.Proofs.Expansion
import Shorthand.Proofs.WellFormed

/-!
# What an expansion leaves in place

No section, no resource and no key of a template is lost, renamed or moved; what was generated goes after
the resources of the template, under ids of its own.
-/
namespace Shorthand

/-! ## Names of calls -/

/-- Without an answer of the symbol table a call keeps its name. -/
theorem SymbolTable.Rewrites.name {symbols : SymbolTable} (hno : ∀ s t, symbols.lookup s ≠ .ok t)
    {name name' : String} {arg arg' : Node} (h : symbols.Rewrites name arg (.call name' arg')) :
    name' = name := by
  generalize ho : Node.call name' arg' = out at h
  cases h with
  | kept _ _ => exact (Node.call_inj ho).1
  | ref _ hl => exact absurd hl (hno _ _)
  | named _ _ _ => exact (Node.call_inj ho).1
  | pair _ _ => exact (Node.call_inj ho).1
  | template _ => exact (Node.call_inj ho).1
  | bound _ => exact (Node.call_inj ho).1

theorem Matrices.Rewrites.name {ms : Matrices} (hno : ∀ s t, ms.lookup s ≠ .ok t) {name name' : String}
    {arg arg' : Node} (h : ms.Rewrites name arg (.call name' arg')) : name' = name := by
  generalize ho : Node.call name' arg' = out at h
  cases h with
  | length _ => exact (Node.call_inj ho).1
  | symbols _ h => exact (ho ▸ h).name hno

namespace Expansion
variable {apis : Apis} {ms : Matrices}

theorem Steps.name (ha : ∀ s t, apis.lookup s ≠ .ok t) (hm : ∀ s t, ms.lookup s ≠ .ok t) {name : String}
    {arg out : Node} (h : Steps apis ms name arg out) : ∃ arg', out = .call name arg' := by
  cases h with
  | sub h₁ _ h₃ =>
      obtain rfl := h₁.sub_iff.mp rfl
      exact h₃.isCall
  | other h₁ h₂ _ ho =>
      obtain rfl := h₁.name ha
      obtain rfl := h₂.name hm
      exact ⟨_, ho⟩

/-- A mapping keeps its keys as long as nothing was declared. -/
theorem keys_of_rewrite_nothing (ha : apis.Backed []) (hm : ms.Backed []) {resources : Table Node} {out : Node}
    (h : (chain apis ms).rewrite (.map resources) = .ok out) :
    ∃ outs, out = .map outs ∧ Table.keys outs = Table.keys resources := by
  have hno : ∀ s t, apis.lookup s ≠ .ok t := fun s t hl => List.not_mem_nil (ha.lookup hl).2
  have hno' : ∀ s t, ms.lookup s ≠ .ok t := fun s t hl => List.not_mem_nil (hm.lookup hl).2
  obtain ⟨news, outs, happly, rfl, hf⟩ := Chain.rewrite_map (shrinks apis ms) h
  have hk : Table.keys news = Table.keys resources := by
    cases applies_of_apply happly with
    | call he hs =>
        obtain ⟨arg', ho⟩ := hs.name hno hno'
        rw [he, Node.map.inj ho]
        rfl
    | other _ ho => rw [Node.map.inj ho]
  exact ⟨outs, rfl, (Table.keys_eq_of_forall₂ (hf.imp fun _ _ he => he.1)).symm.trans hk⟩

/-! ## The passes -/

/-- The resources of a template. -/
def resourcesOf (template : Table Node) : Table Node :=
  match Table.get? template resourcesKey with
  | some (.map resources) => resources
  | _ => []

/-- Definitions can be merged just if no id is taken, and each is merged under an id of its own. -/
theorem merge_ok_iff {ds : List Definition} {resources : Table Node} (hd : Table.Distinct resources) :
    (∃ merged, merge ds resources = .ok merged) ↔
      (Table.keys resources ++ ds.map Definition.id).Nodup := by
  induction ds generalizing resources with
  | nil =>
      rw [List.map_nil, List.append_nil]
      exact iff_of_true ⟨_, rfl⟩ hd
  | cons d ds ih =>
      have hkeys : Table.keys resources ++ (d :: ds).map Definition.id =
          Table.keys (resources ++ [(d.id, d.toNode)]) ++ ds.map Definition.id := by
        simp [Table.keys]
      rw [merge, hkeys]
      split
      · rename_i hm
        rw [Table.has_iff_mem_keys] at hm
        refine iff_of_false ?_ fun hn => ?_
        · rintro ⟨_, he⟩
          cases he
        · rw [Table.keys, List.map_append] at hn
          exact List.disjoint_of_nodup_append hn.of_append_left hm List.mem_cons_self
      · rename_i hm
        rw [Table.has_iff_mem_keys] at hm
        rw [ih (hd.put _ _), Table.put_of_not_mem _ hm]

/-- A merge fails at a definition whose id is taken. -/
theorem merge_eq_error {ds : List Definition} {resources : Table Node} {error : Error}
    (h : merge ds resources = .error error) : ∃ d ∈ ds, error = .duplicateLogicalId d.id := by
  induction ds generalizing resources with
  | nil => cases h
  | cons d ds ih =>
      rw [merge] at h
      split at h
      · exact ⟨d, List.mem_cons_self, (Except.error.inj h).symm⟩
      · obtain ⟨d', hd', he⟩ := ih h
        exact ⟨d', List.mem_cons_of_mem _ hd', he⟩

/-- The resources, if there are any, are a mapping. -/
def HasMapping (template : Table Node) : Prop :=
  ∀ node, Table.get? template resourcesKey = some node → node.isMap = true

theorem get?_of_hasMapping {template : Table Node} (h : HasMapping template)
    (hr : resourcesKey ∈ Table.keys template) :
    Table.get? template resourcesKey = some (.map (resourcesOf template)) := by
  obtain ⟨node, hg⟩ := Table.exists_get?_of_mem_keys hr
  have hmap := h node hg
  cases node with
  | map resources => rw [resourcesOf, hg]
  | _ => cases hmap

/-- The resources of a template are merged with the generated ones, and their pipelines expanded. -/
theorem expandResources_of_hasMapping {options : Options} {ds : List Definition} {template : Table Node}
    (hm : HasMapping template) (hs : ds ≠ [] ∨ resourcesKey ∈ Table.keys template) :
    expandResources options ds template = (do
      let merged ← merge ds (resourcesOf template)
      let summaries ← (Pipeline.expandAll options.pipelineTypes merged).1
      .ok (Table.put template resourcesKey (.map (Pipeline.expandAll options.pipelineTypes merged).2),
        summaries)) := by
  cases ds with
  | nil =>
      simp only [expandResources, List.isEmpty_nil, ↓reduceIte]
      rw [get?_of_hasMapping hm (hs.resolve_left (by simp))]
  | cons d ds =>
      have hget : Table.get? (Table.putNew template resourcesKey (.map [])) resourcesKey =
          some (.map (resourcesOf template)) := by
        rw [Table.get?_putNew_self]
        by_cases hr : resourcesKey ∈ Table.keys template
        · rw [get?_of_hasMapping hm hr, Option.getD_some]
        · rw [resourcesOf, Table.get?_eq_none_iff.mpr hr, Option.getD_none]
      simp only [expandResources, List.isEmpty_cons, Bool.false_eq_true, ↓reduceIte, hget, Table.put_putNew]

theorem hasMapping_of_expandResources {options : Options} {ds : List Definition} {template out : Table Node}
    {summaries : List Pipeline.Summary} (h : expandResources options ds template = .ok (out, summaries)) :
    HasMapping template := by
  intro node hg
  have hkeep : Table.get? (if ds.isEmpty then template else Table.putNew template resourcesKey (.map []))
      resourcesKey = some node := by
    split
    · exact hg
    · rw [Table.get?_putNew_self, hg, Option.getD_some]
  simp only [expandResources, hkeep] at h
  cases node with
  | map _ => rfl
  | _ => cases h

/-- Where there are neither resources nor definitions, nothing is done. -/
theorem expandResources_eq_ok {options : Options} {ds : List Definition} {template out : Table Node}
    {summaries : List Pipeline.Summary} (h : expandResources options ds template = .ok (out, summaries)) :
    (ds = [] ∧ resourcesKey ∉ Table.keys template ∧ out = template ∧ summaries = []) ∨
      ((ds ≠ [] ∨ resourcesKey ∈ Table.keys template) ∧ ∃ merged expanded,
        merge ds (resourcesOf template) = .ok merged ∧
        Pipeline.expandAll options.pipelineTypes merged = (.ok summaries, expanded) ∧
        out = Table.put template resourcesKey (.map expanded)) := by
  by_cases hs : ds ≠ [] ∨ resourcesKey ∈ Table.keys template
  · rw [expandResources_of_hasMapping (hasMapping_of_expandResources h) hs] at h
    simp only [Outcome.bind_eq_ok] at h
    obtain ⟨merged, hm, summaries', hp, h⟩ := h
    obtain ⟨rfl, rfl⟩ := Prod.mk.inj (Except.ok.inj h)
    exact .inr ⟨hs, merged, _, hm, Prod.ext hp rfl, rfl⟩
  · obtain ⟨hds, hno⟩ := not_or.mp hs
    obtain rfl := Decidable.not_not.mp hds
    simp only [expandResources, List.isEmpty_nil, ↓reduceIte, Table.get?_eq_none_iff.mpr hno] at h
    obtain ⟨rfl, rfl⟩ := Prod.mk.inj (Except.ok.inj h)
    exact .inl ⟨rfl, hno, rfl, rfl⟩

theorem keys_of_expandResources {options : Options} {ds : List Definition} {template out : Table Node}
    {summaries : List Pipeline.Summary} (h : expandResources options ds template = .ok (out, summaries)) :
    Table.keys out = Table.keys template ++
      if resourcesKey ∈ Table.keys template ∨ ds = [] then [] else [resourcesKey] := by
  rcases expandResources_eq_ok h with ⟨hds, _, rfl, _⟩ | ⟨hsome, _, _, _, _, rfl⟩
  · rw [if_pos (.inr hds), List.append_nil]
  · rw [Table.keys_put]
    split
    · rename_i hmem
      rw [if_pos (.inl hmem), List.append_nil]
    · rename_i hmem
      rw [if_neg (not_or.mpr ⟨hmem, hsome.resolve_right hmem⟩)]

theorem get?_of_expandResources {options : Options} {ds : List Definition} {template out : Table Node}
    {summaries : List Pipeline.Summary} (h : expandResources options ds template = .ok (out, summaries))
    {name : String} (hne : name ≠ resourcesKey) : Table.get? out name = Table.get? template name := by
  rcases expandResources_eq_ok h with ⟨_, _, rfl, _⟩ | ⟨_, _, _, _, _, rfl⟩
  · rfl
  · exact Table.get?_put_of_ne _ _ (Ne.symm hne)

theorem keys_of_rewriteSections {chain : Chain} {names : List String} {template out : Table Node}
    (h : chain.rewriteSections names template = .ok out) : Table.keys out = Table.keys template := by
  induction names generalizing template with
  | nil => rw [Except.ok.inj h]
  | cons name names ih =>
      rw [Chain.rewriteSections] at h
      split at h
      · exact ih h
      · rename_i node hg
        obtain ⟨new, _, h⟩ := Outcome.bind_eq_ok.mp h
        rw [ih h, Table.keys_put_of_mem new (Table.mem_keys_of_get? hg)]

/-! ## Without the two sections -/

theorem keys_unsectioned {options : Options} {template : Table Node} (hd : Table.Distinct template) :
    Table.keys (unsectioned options template) =
      (Table.keys template).filter fun key => key ≠ options.apiSection ∧ key ≠ options.matrixSection := by
  have hd' := hd.of_sublist (Table.erase_sublist template options.apiSection)
  rw [unsectioned, hd'.keys_erase, hd.keys_erase, List.filter_filter]
  congr 1
  funext key
  simp [Bool.and_comm]

theorem get?_unsectioned {options : Options} {template : Table Node} {name : String}
    (ha : name ≠ options.apiSection) (hm : name ≠ options.matrixSection) :
    Table.get? (unsectioned options template) name = Table.get? template name := by
  rw [unsectioned, Table.get?_erase_of_ne _ (Ne.symm hm), Table.get?_erase_of_ne _ (Ne.symm ha)]

/-! ## The whole template -/

/-- What an expansion keeps of a template, and what it adds. -/
structure Keeps (options : Options) (template : Table Node) (g : Generated) (e : Expansion) : Prop where
  /-- The two sections are gone, and there are resources now if something was generated. -/
  keys : Table.keys e.template =
    (Table.keys template).filter (fun key => key ≠ options.apiSection ∧ key ≠ options.matrixSection) ++
      if resourcesKey ∈ Table.keys template ∨ g.definitions = [] then [] else [resourcesKey]
  others : ∀ name, name ≠ options.apiSection → name ≠ options.matrixSection → name ∉ Chain.sections →
    Table.get? e.template name = Table.get? template name
  mapping : ∀ node, Table.get? e.template resourcesKey = some node → node.isMap = true
  resources : Table.keys (resourcesOf e.template) = Table.keys (resourcesOf template) ++
    g.apiDefinitions.map Definition.id ++ g.matrixDefinitions.map Definition.id
  distinct : (Table.keys (resourcesOf e.template)).Nodup
  counts : e.report.apiResources = g.apiDefinitions.length ∧
    e.report.matrixResources = g.matrixDefinitions.length

theorem distinct_resourcesOf {template : Table Node} (hw : (Node.map template).WellFormed) :
    Table.Distinct (resourcesOf template) := by
  unfold resourcesOf
  split
  · rename_i resources hg
    exact (hw.of_get? hg).distinct
  · exact List.nodup_nil

/-- The last pass keeps the keys of the resources. A lone resource could be taken for a call, but then
nothing was generated that the call could name, or the resource was generated and is no text. -/
theorem keys_of_rewrite_merged {options : Options} {g : Generated}
    (ha : g.apis.Backed (g.definitions.map Definition.id))
    (hm : g.matrices.Backed (g.definitions.map Definition.id)) {resources merged expanded : Table Node}
    {summaries : List Pipeline.Summary} {out : Node} (hmerge : merge g.definitions resources = .ok merged)
    (hp : Pipeline.expandAll options.pipelineTypes merged = (.ok summaries, expanded))
    (h : (chain g.apis g.matrices).rewrite (.map expanded) = .ok out) :
    ∃ outs, out = .map outs ∧ Table.keys outs = Table.keys resources ++ g.definitions.map Definition.id := by
  have hk : Table.keys expanded = Table.keys resources ++ g.definitions.map Definition.id := by
    rw [← Table.keys_eq_of_forall₂ ((Pipeline.expanded_of_expandAll hp).imp fun _ _ he => he.key.symm),
      merge_eq hmerge]
    simp [Table.keys]
  rw [← hk]
  cases hds : g.definitions with
  | nil =>
      rw [hds] at ha hm
      exact keys_of_rewrite_nothing ha hm h
  | cons d ds =>
      have hd : (d.id, d.toNode) ∈ merged := by
        rw [merge_eq hmerge, hds]
        exact List.mem_append_right _ List.mem_cons_self
      obtain ⟨entries, hmem⟩ := Pipeline.exists_map_of_expandAll hp hd
      exact keys_of_rewrite hmem h

/-- The options name two sections other than those that calls are rewritten in. -/
structure ApartSections (options : Options) : Prop where
  api : options.apiSection ∉ Chain.sections
  matrix : options.matrixSection ∉ Chain.sections

namespace ApartSections
variable {options : Options}

theorem ne_api (h : ApartSections options) {name : String} (hn : name ∈ Chain.sections) :
    name ≠ options.apiSection := fun he => h.api (he ▸ hn)

theorem ne_matrix (h : ApartSections options) {name : String} (hn : name ∈ Chain.sections) :
    name ≠ options.matrixSection := fun he => h.matrix (he ▸ hn)

theorem get?_unsectioned (h : ApartSections options) (template : Table Node) {name : String}
    (hn : name ∈ Chain.sections) :
    Table.get? (unsectioned options template) name = Table.get? template name :=
  Expansion.get?_unsectioned (h.ne_api hn) (h.ne_matrix hn)

theorem resourcesOf_unsectioned (h : ApartSections options) (template : Table Node) :
    resourcesOf (unsectioned options template) = resourcesOf template := by
  rw [resourcesOf, resourcesOf, h.get?_unsectioned template (by decide)]

theorem mem_keys_unsectioned (h : ApartSections options) (template : Table Node) {name : String}
    (hn : name ∈ Chain.sections) :
    name ∈ Table.keys (unsectioned options template) ↔ name ∈ Table.keys template := by
  rw [← Table.has_iff_mem_keys, ← Table.has_iff_mem_keys, Table.has, Table.has,
    h.get?_unsectioned template hn]

end ApartSections

/-- There are no resources in the end, or a mapping of those of the template and the generated ones. -/
theorem resources_of_passes {options : Options} {template middle out : Table Node} {g : Generated}
    {summaries : List Pipeline.Summary} (hd : Table.Distinct (resourcesOf template))
    (ha : g.apis.Backed (g.definitions.map Definition.id))
    (hm : g.matrices.Backed (g.definitions.map Definition.id))
    (hr : expandResources options g.definitions template = .ok (middle, summaries))
    (hw : (chain g.apis g.matrices).rewriteTemplate middle = .ok out) :
    (Table.get? out resourcesKey = none ∧ resourcesOf template = [] ∧ g.definitions = []) ∨
      ∃ outs, Table.get? out resourcesKey = some (.map outs) ∧
        Table.keys outs = Table.keys (resourcesOf template) ++ g.definitions.map Definition.id ∧
        (Table.keys outs).Nodup := by
  have hrel := Chain.rel_of_rewriteSections (by decide) hw (show resourcesKey ∈ Chain.sections by decide)
  rcases expandResources_eq_ok hr with ⟨hds, hno, rfl, _⟩ | ⟨_, merged, expanded, hmerge, hp, rfl⟩
  · rw [Table.get?_eq_none_iff.mpr hno] at hrel
    refine .inl ⟨?_, ?_, hds⟩
    · cases h : Table.get? out resourcesKey with
      | none => rfl
      | some node => rw [h] at hrel; cases hrel
    · rw [resourcesOf, Table.get?_eq_none_iff.mpr hno]
  · rw [Table.get?_put_self] at hrel
    cases h : Table.get? out resourcesKey with
    | none => rw [h] at hrel; cases hrel
    | some node =>
        rw [h] at hrel
        cases hrel with
        | some hrewrite =>
            obtain ⟨outs, rfl, hk⟩ := keys_of_rewrite_merged ha hm hmerge hp hrewrite
            exact .inr ⟨outs, rfl, hk, hk ▸ (merge_ok_iff hd).mp ⟨_, hmerge⟩⟩

theorem keeps_of_passes {options : Options} {template middle : Table Node} {g : Generated}
    {summaries : List Pipeline.Summary} {e : Expansion} (hw : (Node.map template).WellFormed)
    (hs : ApartSections options) (ha : g.apis.Backed (g.definitions.map Definition.id))
    (hm : g.matrices.Backed (g.definitions.map Definition.id))
    (hr : expandResources options g.definitions (unsectioned options template) = .ok (middle, summaries))
    (hout : (chain g.apis g.matrices).rewriteTemplate middle = .ok e.template)
    (hreport : e.report = g.report summaries) : Keeps options template g e := by
  have hd := distinct_resourcesOf hw
  rw [← hs.resourcesOf_unsectioned] at hd
  have hresources := resources_of_passes hd ha hm hr hout
  rw [hs.resourcesOf_unsectioned] at hresources
  have hids : g.definitions.map Definition.id =
      g.apiDefinitions.map Definition.id ++ g.matrixDefinitions.map Definition.id := List.map_append
  refine ⟨?_, ?_, ?_, ?_, ?_, ?_⟩
  · rw [keys_of_rewriteSections hout, keys_of_expandResources hr, keys_unsectioned hw.distinct]
    have hmem : resourcesKey ∈ _ ↔ _ := hs.mem_keys_unsectioned template (by decide)
    simp only [← keys_unsectioned hw.distinct, hmem]
  · intro name hapi hmatrix hname
    have hne : name ≠ resourcesKey := fun he => hname (he ▸ by decide)
    rw [Chain.get?_of_rewriteSections hout hname, get?_of_expandResources hr hne,
      get?_unsectioned hapi hmatrix]
  · intro node hnode
    rcases hresources with ⟨hnone, _, _⟩ | ⟨outs, hsome, _, _⟩
    · cases hnone.symm.trans hnode
    · rw [← Option.some.inj (hsome.symm.trans hnode)]
      rfl
  · rw [List.append_assoc, ← hids]
    rcases hresources with ⟨hnone, hno, hds⟩ | ⟨outs, hsome, hkeys, _⟩
    · rw [hno, hds, resourcesOf, hnone]
      rfl
    · rw [← hkeys, resourcesOf, hsome]
  · rcases hresources with ⟨hnone, _, _⟩ | ⟨outs, hsome, _, hnodup⟩
    · rw [resourcesOf, hnone]
      exact List.nodup_nil
    · rw [resourcesOf, hsome]
      exact hnodup
  · rw [hreport]
    exact ⟨rfl, rfl⟩

/-- Where an id is taken, the merge is where the expansion ends. -/
theorem duplicate_of_ofNode {params : Parameters} {options : Options} {template : Table Node} {g : Generated}
    (hw : (Node.map template).WellFormed) (hs : ApartSections options)
    (hg : generatedBy params options template = .ok g) (hm : HasMapping template)
    (hn : ¬ (Table.keys (resourcesOf template) ++ g.definitions.map Definition.id).Nodup) :
    ∃ d ∈ g.definitions, ofNode params options (.map template) = .error (.duplicateLogicalId d.id) := by
  have hd := distinct_resourcesOf hw
  have hm' : HasMapping (unsectioned options template) := by
    rw [HasMapping, hs.get?_unsectioned template (by decide)]
    exact hm
  have hne : g.definitions ≠ [] := by
    intro he
    rw [he, List.map_nil, List.append_nil] at hn
    exact hn hd
  cases hmerge : merge g.definitions (resourcesOf template) with
  | ok merged => exact absurd ((merge_ok_iff hd).mp ⟨merged, hmerge⟩) hn
  | error error =>
      obtain ⟨d, hmem, rfl⟩ := merge_eq_error hmerge
      refine ⟨d, hmem, ?_⟩
      rw [ofNode_map, hg, Outcome.ok_bind, expandResources_of_hasMapping hm' (.inl hne),
        hs.resourcesOf_unsectioned, hmerge]
      rfl

/-- An expansion keeps all that the template had but the two sections. If an id that was generated is
taken, by a resource or by another generated one, there is no expansion. -/
theorem keeps_of_ofNode {params : Parameters} {options : Options} {template : Table Node}
    (hw : (Node.map template).WellFormed) (hs : ApartSections options) :
    (∀ e, ofNode params options (.map template) = .ok e →
      ∃ g, generatedBy params options template = .ok g ∧ Keeps options template g e) ∧
    (∀ g, generatedBy params options template = .ok g →
      ¬ (Table.keys (resourcesOf template) ++ g.definitions.map Definition.id).Nodup →
      ∃ error, ofNode params options (.map template) = .error error ∧
        (HasMapping template → ∃ d ∈ g.definitions, error = .duplicateLogicalId d.id)) ∧
    ∀ error, generatedBy params options template = .error error →
      ofNode params options (.map template) = .error error := by
  have hkeeps : ∀ e, ofNode params options (.map template) = .ok e →
      ∃ g, generatedBy params options template = .ok g ∧ Keeps options template g e := by
    intro e h
    obtain ⟨g, middle, summaries, hg, hr, hout, hreport⟩ := passes_of_ofNode h
    obtain ⟨ha, hm⟩ := backed_of_generate hg
    exact ⟨g, hg, keeps_of_passes hw hs ha hm hr hout hreport⟩
  refine ⟨hkeeps, fun g hg hn => ?_, fun error he => ?_⟩
  · cases h : ofNode params options (.map template) with
    | error error =>
        refine ⟨error, rfl, fun hm => ?_⟩
        obtain ⟨d, hmem, hd⟩ := duplicate_of_ofNode hw hs hg hm hn
        exact ⟨d, hmem, Except.error.inj (h.symm.trans hd)⟩
    | ok e =>
        obtain ⟨g', hg', hk⟩ := hkeeps e h
        obtain rfl := Except.ok.inj (hg.symm.trans hg')
        refine absurd ?_ hn
        rw [Generated.definitions, List.map_append, ← List.append_assoc, ← hk.resources]
        exact hk.distinct
  · rw [ofNode_map, he]
    rfl

/-- The template of one matrix, with a resource in its way. -/
def takenId : Table Node :=
  oneMatrix ++ [("Resources", .map [("Own", .map [("Type", .text "T")]), ("M1", .map [("Type", .text "U")])])]

theorem keeps_oneMatrix :
    ((Node.map oneMatrix).WellFormed ∧ ApartSections {} ∧
      ∃ g, generatedBy [] {} oneMatrix = .ok g ∧ Keeps {} oneMatrix g oneMatrixExpanded) ∧
    (Node.map takenId).WellFormed ∧ ∃ error, ofNode [] {} (.map takenId) = .error error := by
  have hs : ApartSections {} := ⟨by decide, by decide⟩
  have hw : (Node.map oneMatrix).WellFormed := by
    simp [oneMatrix, Node.call, Node.WellFormed, Node.EntriesWellFormed, Node.AllWellFormed, Table.Distinct,
      Table.keys]
  have hw' : (Node.map takenId).WellFormed := by
    simp [takenId, oneMatrix, Node.call, Node.WellFormed, Node.EntriesWellFormed, Node.AllWellFormed,
      Table.Distinct, Table.keys]
  have h : ofNode [] {} (.map oneMatrix) = .ok oneMatrixExpanded := rfl
  obtain ⟨g, hg, hid⟩ : ∃ g, generatedBy [] {} takenId = .ok g ∧ g.definitions.map Definition.id = ["M1"] :=
    ⟨_, rfl, rfl⟩
  have hn : ¬ (Table.keys (resourcesOf takenId) ++ g.definitions.map Definition.id).Nodup := by
    rw [hid]
    decide
  obtain ⟨error, he, _⟩ := (keeps_of_ofNode hw' hs).2.1 g hg hn
  exact ⟨⟨hw, hs, (keeps_of_ofNode hw hs).1 _ h⟩, hw', error, he⟩

end Expansion
end Shorthand
