import Shorthand.Proofs.Families
import Shorthand.Proofs.Pipeline.Shorthand
import Shorthand.Proofs.Symbolic

/-!
# Expanded templates

After a successful expansion no symbolic call is left in the rewritten sections, and all that the symbol
tables answer with is among the resources of the output.
-/
namespace Shorthand.Expansion

/-! ## What the sections generate -/

variable {params : Parameters} {options : Options}

theorem backed_of_generate {apiSection matrixSection : Option Node} {g : Generated}
    (h : generate params options apiSection matrixSection = .ok g) :
    g.apis.Backed (g.definitions.map Definition.id) ∧ g.matrices.Backed (g.definitions.map Definition.id) := by
  unfold generate at h
  obtain ⟨ads, ha, h⟩ := Outcome.bind_eq_ok.mp h
  obtain ⟨mds, hm, h⟩ := Outcome.bind_eq_ok.mp h
  obtain rfl := Except.ok.inj h
  rw [Generated.definitions, List.map_append]
  constructor
  · cases apiSection with
    | none => exact Apis.backed_nil _ _
    | some node =>
        have hb := (Apis.backed_nil options.digestLength []).expandSection ha
        exact hb.mono (List.subset_append_left _ _)
  · cases matrixSection with
    | none => exact Matrices.backed_nil _
    | some node =>
        have hb := (Matrices.backed_nil []).expandSection hm
        exact hb.mono (List.subset_append_right _ _)

theorem Generated.plainTargets {g : Generated} (ha : g.apis.Backed (g.definitions.map Definition.id))
    (hm : g.matrices.Backed (g.definitions.map Definition.id)) : PlainTargets g.apis g.matrices :=
  ⟨fun h => (ha.lookup h).1, fun h => (hm.lookup h).1⟩

/-! ## Generated definitions among the resources -/

/-- Merged definitions stand after the resources, in their order. -/
theorem merge_eq {ds : List Definition} {resources merged : Table Node}
    (h : merge ds resources = .ok merged) : merged = resources ++ ds.map fun d => (d.id, d.toNode) := by
  induction ds generalizing resources with
  | nil =>
      obtain rfl := Except.ok.inj h
      simp
  | cons d ds ih =>
      rw [merge] at h
      split at h
      · cases h
      · rename_i hd
        rw [Table.has_iff_mem_keys] at hd
        rw [ih h, Table.put_of_not_mem _ hd]
        simp

end Shorthand.Expansion

namespace Shorthand.Pipeline

/-- The expansion of pipelines keeps the key of each resource, and at most puts stages into it. -/
inductive Expanded (e : String × Node) : String × Node → Prop
  | same : Expanded e e
  | stages (stages : Node) : Expanded e (e.1, putStages stages e.2)

theorem Expands.expanded {types : List String} {resources out : Table Node} {summaries : List Summary}
    (h : Expands types resources summaries out) : List.Forall₂ Expanded resources out := by
  induction h with
  | nil => exact .nil
  | keep _ _ ih => exact .cons .same ih
  | expand _ _ _ _ ih => exact .cons (.stages _) ih

theorem expanded_of_expandAll {types : List String} {resources out : Table Node} {summaries : List Summary}
    (h : expandAll types resources = (.ok summaries, out)) : List.Forall₂ Expanded resources out :=
  (expands_of_expandAll h).expanded

theorem mapAt_map (key : String) (f : Node → Node) (entries : List (String × Node)) :
    ∃ entries', mapAt key f (.map entries) = .map entries' := by
  rw [mapAt]
  split
  · exact ⟨_, rfl⟩
  · exact ⟨_, rfl⟩

theorem Expanded.key {e e' : String × Node} (h : Expanded e e') : e'.1 = e.1 := by
  cases h <;> rfl

theorem Expanded.map {e e' : String × Node} (h : Expanded e e') {entries : List (String × Node)}
    (he : e.2 = .map entries) : ∃ entries', e'.2 = .map entries' := by
  cases h with
  | same => exact ⟨_, he⟩
  | stages stages =>
      rw [putStages, he]
      exact mapAt_map _ _ _

theorem exists_map_of_expandAll {types : List String} {resources out : Table Node} {summaries : List Summary}
    (h : expandAll types resources = (.ok summaries, out)) {id : String} {entries : List (String × Node)}
    (hm : (id, Node.map entries) ∈ resources) : ∃ entries', (id, Node.map entries') ∈ out := by
  obtain ⟨⟨id', node⟩, hmem, hx⟩ := Outcome.exists_of_mem_right (expanded_of_expandAll h).flip hm
  obtain ⟨entries', rfl⟩ := hx.map rfl
  obtain rfl := hx.key
  exact ⟨entries', hmem⟩

end Shorthand.Pipeline

namespace Shorthand.Expansion
variable {apis : Apis} {ms : Matrices}

theorem resources_of_expandResources {options : Options} {ds : List Definition} {template out : Table Node}
    {summaries : List Pipeline.Summary} (h : expandResources options ds template = .ok (out, summaries))
    (hne : ds ≠ []) :
    ∃ resources, Table.get? out resourcesKey = some (.map resources) ∧
      ∀ d ∈ ds, ∃ entries, (d.id, Node.map entries) ∈ resources := by
  unfold expandResources at h
  have he : ds.isEmpty = false := by simpa using hne
  simp only [he, Bool.false_eq_true, ↓reduceIte] at h
  split at h
  · rename_i hg
    exact absurd hg (Table.get?_putNew_ne_none _ _ _)
  · rename_i resources _
    obtain ⟨merged, hm, h⟩ := Outcome.bind_eq_ok.mp h
    obtain ⟨summaries', hs, h⟩ := Outcome.bind_eq_ok.mp h
    obtain ⟨rfl, rfl⟩ := Prod.mk.inj (Except.ok.inj h)
    refine ⟨_, Table.get?_put_self _ _ _, fun d hd => ?_⟩
    have hdm : (d.id, d.toNode) ∈ merged := by
      rw [merge_eq hm]
      exact List.mem_append_right _ (List.mem_map_of_mem hd)
    exact Pipeline.exists_map_of_expandAll (Prod.ext hs rfl) hdm
  · cases h

theorem keys_of_rewrite {resources : Table Node} {out : Node} {id : String} {entries : List (String × Node)}
    (hm : (id, Node.map entries) ∈ resources) (h : (chain apis ms).rewrite (.map resources) = .ok out) :
    ∃ outs, out = .map outs ∧ Table.keys outs = Table.keys resources := by
  obtain ⟨news, outs, ha, rfl, hf⟩ := Chain.rewrite_map (shrinks apis ms) h
  have hn : news = resources := by
    rcases eq_or_rewritten_of_apply ha with he | ⟨name, arg, _, _, rfl, _, hr⟩
    · exact Node.map.inj he
    · -- no call is rewritten that has a mapping for its argument
      obtain ⟨rfl, rfl⟩ := Prod.mk.inj (List.mem_singleton.mp hm)
      cases hr.oldArg
  subst hn
  exact ⟨outs, rfl, (Table.keys_eq_of_forall₂ (hf.imp fun _ _ he => he.1)).symm⟩

end Shorthand.Expansion

/-! ## The rewritten sections -/

namespace Shorthand.Chain
variable {chain : Chain} {names : List String} {template out : Table Node}

theorem get?_of_rewriteSections (h : chain.rewriteSections names template = .ok out) {name : String}
    (hn : name ∉ names) : Table.get? out name = Table.get? template name := by
  induction names generalizing template with
  | nil => exact Except.ok.inj h ▸ rfl
  | cons first names ih =>
      obtain ⟨hf, hn⟩ := not_or.mp (fun ho => hn (List.mem_cons.mpr ho))
      rw [rewriteSections] at h
      split at h
      · exact ih h hn
      · obtain ⟨node, _, h⟩ := Outcome.bind_eq_ok.mp h
        rw [ih h hn, Table.get?_put_of_ne _ _ (Ne.symm hf)]

theorem rel_of_rewriteSections (hnd : names.Nodup) (h : chain.rewriteSections names template = .ok out)
    {name : String} (hn : name ∈ names) :
    Option.Rel (fun a b => chain.rewrite a = .ok b) (Table.get? template name) (Table.get? out name) := by
  induction names generalizing template with
  | nil => cases hn
  | cons first names ih =>
      obtain ⟨hf, hnd⟩ := List.nodup_cons.mp hnd
      rw [rewriteSections] at h
      split at h
      · rename_i hg
        rcases List.mem_cons.mp hn with rfl | hn
        · rw [get?_of_rewriteSections h hf, hg]
          exact .none
        · exact ih hnd h hn
      · rename_i old hg
        obtain ⟨node, hr, h⟩ := Outcome.bind_eq_ok.mp h
        rcases List.mem_cons.mp hn with rfl | hn
        · rw [get?_of_rewriteSections h hf, Table.get?_put_self, hg]
          exact .some hr
        · have hne : first ≠ name := fun he => hf (he ▸ hn)
          exact Table.get?_put_of_ne template node hne ▸ ih hnd h hn

end Shorthand.Chain

namespace Shorthand.Expansion

/-! ## Whole templates -/

/-- What the two sections of a template generate, its parameters' defaults taken. -/
def generatedBy (params : Parameters) (options : Options) (template : Table Node) : Except Error Generated :=
  generate (Parameters.withDefaults params template) options
    (Table.get? template options.apiSection)
    (Table.get? (Table.erase template options.apiSection) options.matrixSection)

/-- A template without the two sections. -/
def unsectioned (options : Options) (template : Table Node) : Table Node :=
  Table.erase (Table.erase template options.apiSection) options.matrixSection

/-- What is told about an expansion. -/
def Generated.report (g : Generated) (pipelines : List Pipeline.Summary) : Report where
  apis := g.apis.count
  apiResources := g.apiDefinitions.length
  matrices := g.matrices.count
  matrixResources := g.matrixDefinitions.length
  pipelines := pipelines

/-- The passes of an expansion. -/
theorem ofNode_map (params : Parameters) (options : Options) (template : Table Node) :
    ofNode params options (.map template) = (do
      let g ← generatedBy params options template
      let (middle, pipelines) ← expandResources options g.definitions (unsectioned options template)
      let out ← (chain g.apis g.matrices).rewriteTemplate middle
      .ok ⟨out, g.report pipelines⟩) := rfl

theorem passes_of_ofNode {params : Parameters} {options : Options} {template : Table Node} {e : Expansion}
    (h : ofNode params options (.map template) = .ok e) :
    ∃ g middle summaries, generatedBy params options template = .ok g ∧
      expandResources options g.definitions (unsectioned options template) = .ok (middle, summaries) ∧
      (chain g.apis g.matrices).rewriteTemplate middle = .ok e.template ∧ e.report = g.report summaries := by
  rw [ofNode_map] at h
  simp only [Outcome.bind_eq_ok] at h
  obtain ⟨g, hg, ⟨middle, summaries⟩, hr, out, hw, h⟩ := h
  obtain rfl := Except.ok.inj h
  exact ⟨g, middle, summaries, hg, hr, hw, rfl⟩

theorem steps_of_ofNode {params : Parameters} {options : Options} {node : Node} {e : Expansion}
    (h : ofNode params options node = .ok e) :
    ∃ template g before middle summaries, node = .map template ∧
      generatedBy params options template = .ok g ∧
      expandResources options g.definitions before = .ok (middle, summaries) ∧
      (chain g.apis g.matrices).rewriteTemplate middle = .ok e.template := by
  cases node with
  | map template =>
      obtain ⟨g, middle, summaries, hg, hr, hw, _⟩ := passes_of_ofNode h
      exact ⟨template, g, _, middle, summaries, rfl, hg, hr, hw⟩
  | _ => cases h

/-- No symbolic call is left in the resources and the outputs of an expanded template, at any depth. -/
theorem not_symbolic_of_ofNode {params : Parameters} {options : Options} {node : Node} {e : Expansion}
    (h : ofNode params options node = .ok e) {name : String} (hname : name = "Resources" ∨ name = "Outputs")
    {part : Node} (hs : Table.get? e.template name = some part) {n : Node} (ho : n.Occurs part) :
    ¬ n.Symbolic := by
  obtain ⟨template, g, before, middle, summaries, rfl, hg, _, hw⟩ := steps_of_ofNode h
  obtain ⟨ha, hm⟩ := backed_of_generate hg
  have hrel := Chain.rel_of_rewriteSections (by decide) hw
    (show name ∈ Chain.sections by simpa [Chain.sections] using hname)
  rw [hs] at hrel
  generalize Table.get? middle name = old at hrel
  cases hrel with
  | some hr => exact (sameOutline_and_settled_of_rewrite (Generated.plainTargets ha hm) hr).2 n ho

/-- A template with a matrix of one entry, and an output that refers to it and to an import. -/
def oneMatrix : Table Node :=
  [("Matrices", .map [("M", .map [("Dimensions", .map [("D", .list [.text "x"])]),
    ("Resource", .map [("Type", .text "T")])])]),
   ("Outputs", .map [("O", .call Call.sub (.text "$\x7bMatrix:M[D=1]\x7d $\x7bImport:E\x7d"))])]

/-- Its output, expanded. -/
def oneMatrixOutput : Node :=
  .call Call.sub (.list [.text "$\x7bM1\x7d $\x7bImport1\x7d",
    .map [("Import1", .call Call.importValue (.text "E"))]])

def oneMatrixExpanded : Expansion where
  template :=
    [("Outputs", .map [("O", oneMatrixOutput)]),
     ("Resources", .map [("M1", .map [("Type", .text "T")])])]
  report := { matrices := 1, matrixResources := 1 }

theorem not_symbolic_oneMatrix :
    ofNode [] {} (.map oneMatrix) = .ok oneMatrixExpanded ∧ ¬ oneMatrixOutput.Symbolic := by
  have h : ofNode [] {} (.map oneMatrix) = .ok oneMatrixExpanded := rfl
  exact ⟨h, not_symbolic_of_ofNode h (.inr rfl) rfl (.value List.mem_cons_self .here)⟩

/-- A resource of the expanded template stands under this id. -/
def HasResource (e : Expansion) (id : String) : Prop :=
  ∃ resources, Table.get? e.template "Resources" = some (.map resources) ∧ id ∈ Table.keys resources

theorem hasResource_of_definition {options : Options} {g : Generated} {before middle : Table Node}
    {summaries : List Pipeline.Summary} {e : Expansion}
    (hr : expandResources options g.definitions before = .ok (middle, summaries))
    (hw : (chain g.apis g.matrices).rewriteTemplate middle = .ok e.template) {id : String}
    (hid : id ∈ g.definitions.map Definition.id) : e.HasResource id := by
  obtain ⟨d, hd, rfl⟩ := List.mem_map.mp hid
  obtain ⟨resources, hg, hall⟩ := resources_of_expandResources hr (List.ne_nil_of_mem hd)
  obtain ⟨entries, hm⟩ := hall d hd
  have hrel := Chain.rel_of_rewriteSections (by decide) hw (show resourcesKey ∈ Chain.sections by decide)
  rw [hg] at hrel
  generalize ho : Table.get? e.template resourcesKey = out at hrel
  cases hrel with
  | some hr =>
      obtain ⟨outs, rfl, hk⟩ := keys_of_rewrite hm hr
      exact ⟨outs, ho, hk ▸ List.mem_map_of_mem hm⟩

/-- Whatever the symbol tables of the last pass answer with is a resource of the output. So what the pass
makes of a call refers to what the call referred to outside of these families, to a binding of an import,
or to a resource that is there. -/
theorem hasResource_of_ofNode {params : Parameters} {options : Options} {template : Table Node}
    {e : Expansion} (h : ofNode params options (.map template) = .ok e) :
    ∃ g before, generatedBy params options template = .ok g ∧
      (chain g.apis g.matrices).rewriteTemplate before = .ok e.template ∧
      (∀ text t, g.apis.lookup text = .ok t ∨ g.matrices.lookup text = .ok t → e.HasResource t.id) ∧
      ∀ entries out, (chain g.apis g.matrices).apply (.map entries) = .ok out → ∀ r ∈ out.references,
        (r ∈ (Node.map entries).references ∧ ¬ IsReference r) ∨ (∃ n, r = Import.nameOf n) ∨
          ∃ text ∈ (Node.map entries).references, ∃ t : Target, IsReference text ∧
            (g.apis.lookup text = .ok t ∨ g.matrices.lookup text = .ok t) ∧ e.HasResource t.id ∧
            (r = t.id ∨ r = t.body) := by
  obtain ⟨_, g, before, middle, summaries, heq, hg, hr, hw⟩ := steps_of_ofNode h
  obtain rfl := Node.map.inj heq
  obtain ⟨ha, hm⟩ := backed_of_generate hg
  have there : ∀ text t, g.apis.lookup text = .ok t ∨ g.matrices.lookup text = .ok t →
      e.HasResource t.id := by
    intro text t hl
    have hid : t.id ∈ g.definitions.map Definition.id := hl.elim (ha.lookup · |>.2) (hm.lookup · |>.2)
    exact hasResource_of_definition hr hw hid
  refine ⟨g, middle, hg, hw, there, fun entries out happly r hmem => ?_⟩
  rcases references_of_apply (Generated.plainTargets ha hm) happly hmem with hs | hi
  · cases hs with
    | kept ho hn => exact .inl ⟨ho, hn⟩
    | @found text t ho ht hl hrt => exact .inr (.inr ⟨text, ho, t, ht, hl, there text t hl, hrt⟩)
  · exact .inr (.inl hi)

theorem hasResource_oneMatrix :
    ofNode [] {} (.map oneMatrix) = .ok oneMatrixExpanded ∧ oneMatrixExpanded.HasResource "M1" := by
  have h : ofNode [] {} (.map oneMatrix) = .ok oneMatrixExpanded := rfl
  obtain ⟨g, _, hg, _, there, _⟩ := hasResource_of_ofNode h
  have answer : (generatedBy [] {} oneMatrix).map (fun g => g.matrices.lookup "Matrix:M[D=1]") =
      .ok (.ok (.resource "M1")) := rfl
  rw [hg] at answer
  exact ⟨h, there _ _ (.inr (Except.ok.inj answer))⟩

end Shorthand.Expansion
