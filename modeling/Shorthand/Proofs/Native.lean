import Shorthand.Proofs.Frame
import Shorthand.Proofs.Pipeline.Shorthand

/-!
# Templates without shorthand

A template in which nothing symbolic, no loose substitution and no shorthand pipeline is found is its own
expansion.
-/
namespace Shorthand

/-! ## Loose substitutions -/

namespace Node

/-- A substitution whose template has an unclosed placeholder, or which binds nothing by a mapping. -/
inductive Loose : Node → Prop
  | unclosed {arg : Node} {t : String} (h : Call.template? arg = some t) (hc : Template.isClosed t = false) :
      Loose (.call Call.sub arg)
  | unbound (t : String) : Loose (.call Call.sub (.list [.text t, .map []]))

theorem SameOutline.template? {a b : Node} (h : SameOutline a b) {t : String}
    (ht : Call.template? b = some t) : Call.template? a = some t := by
  unfold Call.template? at ht
  split at ht
  · obtain rfl := h.sameKind.eq_text
    exact ht
  · obtain ⟨as, rfl, hf⟩ := h.list_inv
    obtain ⟨x, _, hx, _, rfl⟩ := List.forall₂_cons_right_iff.mp hf
    obtain rfl := hx.eq_text
    exact ht
  · cases ht

theorem Loose.outlined : Outlined Loose where
  isCall h := by cases h <;> exact ⟨_, _, rfl⟩
  of_sameOutline {name a b} hl ho := by
    generalize hn : Node.call name b = node at hl
    cases hl with
    | unclosed h hc =>
        cases hn
        exact .unclosed (ho.template? h) hc
    | unbound t =>
        cases hn
        obtain ⟨as, rfl, hf⟩ := ho.list_inv
        obtain ⟨x, _, hx, hf₁, rfl⟩ := List.forall₂_cons_right_iff.mp hf
        obtain ⟨y, _, hy, hnil, rfl⟩ := List.forall₂_cons_right_iff.mp hf₁
        cases hnil
        obtain rfl := hx.eq_text
        cases hy with
        | leaf h => cases h
        | map h =>
            obtain rfl := h.mpr rfl
            exact .unbound t

/-- A substitution is not loose if its template is closed and it has no empty bindings. -/
theorem not_loose_iff {arg : Node} : ¬ (call Call.sub arg).Loose ↔
    (∀ t, Call.template? arg = some t → Template.isClosed t = true) ∧ ∀ t, arg ≠ .list [.text t, .map []] := by
  constructor
  · intro h
    refine ⟨fun t ht => ?_, ?_⟩
    · exact Bool.not_eq_false _ ▸ fun hc => h (.unclosed ht hc)
    · rintro t rfl
      exact h (.unbound t)
  · rintro ⟨hc, hb⟩ hl
    generalize ho : call Call.sub arg = node at hl
    cases hl with
    | unclosed ht hopen =>
        cases ho
        exact Bool.eq_false_iff.mp hopen (hc _ ht)
    | unbound t =>
        cases ho
        exact hb t rfl

theorem Loose.isSub {name : String} {arg : Node} (h : (call name arg).Loose) : name = Call.sub := by
  generalize ho : call name arg = node at h
  cases h <;> exact (Node.call_inj ho).1

end Node

/-! ## Calls in their final form -/

theorem Matrices.expand_eq_self {ms : Matrices} {name : String} {arg : Node}
    (hl : name = Call.length → ∀ s, arg = .text s → MatrixReference.claims s = false)
    (h : ms.symbols.rewriteCall name arg = .ok (.call name arg)) : ms.expand name arg = .ok (.call name arg) := by
  unfold expand
  split
  · rename_i s
    rw [if_neg fun hc => Bool.eq_false_iff.mp (hl hc.1 s rfl) hc.2, h]
  · exact h

namespace Expansion
variable {apis : Apis} {ms : Matrices}

theorem apply_cons_of_keeps {r : Resolver} {rs : Chain} {name : String} {arg : Node}
    (h : r.handles name = true → r.expand name arg = .ok (.call name arg)) :
    Chain.apply (r :: rs) (.call name arg) = Chain.apply rs (.call name arg) := by
  rw [apply_cons]
  split
  · rename_i hn
    rw [h hn, Outcome.ok_bind]
  · rfl

/-- The chain keeps a call that is neither symbolic nor a loose substitution. -/
theorem apply_call_eq_self {name : String} {arg : Node} (hs : ¬ (Node.call name arg).Symbolic)
    (hl : ¬ (Node.call name arg).Loose) : (chain apis ms).apply (.call name arg) = .ok (.call name arg) := by
  have hr : ∀ r ∈ Call.references name arg, ¬ IsReference r := fun r hr h => hs (Node.Open.reference hr h).symbolic
  have hclosed : name = Call.sub → ∀ t, Call.template? arg = some t → Template.isClosed t = true := by
    rintro rfl
    exact (Node.not_loose_iff.mp hl).1
  have hapi : apis.symbols.rewriteCall name arg = .ok (.call name arg) :=
    SymbolTable.rewriteCall_eq_self
      (fun r hmem => Bool.eq_false_iff.mpr fun hc => hr r hmem (.inl (claims_api_iff.mp hc))) hclosed
  have hmatrix : ms.symbols.rewriteCall name arg = .ok (.call name arg) :=
    SymbolTable.rewriteCall_eq_self
      (fun r hmem => Bool.eq_false_iff.mpr fun hc => hr r hmem (.inr (claims_matrix_iff.mp hc))) hclosed
  have hlength : name = Call.length → ∀ s, arg = .text s → MatrixReference.claims s = false := by
    rintro hn s ha
    exact Bool.eq_false_iff.mpr fun hc => hs (Node.Open.length hn ha (claims_matrix_iff.mp hc)).symbolic
  have himport : name = Call.sub → Import.expand name arg = .ok (.call name arg) := by
    rintro rfl
    obtain ⟨hclosed, hbound⟩ := Node.not_loose_iff.mp hl
    refine Import.expand_eq_self (fun t bindings hp => ⟨hclosed t (Import.template?_of_parts? hp), ?_⟩) hbound
    exact fun r hmem => exported?_eq_none_iff.mpr fun h => hs (Node.Open.imports rfl hp hmem h).symbolic
  rw [chain, apply_cons_of_keeps fun _ => hapi, apply_cons_of_keeps fun _ => Matrices.expand_eq_self hlength hmatrix,
    apply_cons_of_keeps fun hn => himport (beq_iff_eq.mp hn)]
  rfl

theorem apply_eq_self {entries : List (String × Node)} (hs : ¬ (Node.map entries).Symbolic)
    (hl : ¬ (Node.map entries).Loose) : (chain apis ms).apply (.map entries) = .ok (.map entries) := by
  -- only a mapping of one entry is a call
  match entries with
  | [(name, arg)] => exact apply_call_eq_self hs hl
  | [] => rfl
  | _ :: _ :: _ => rfl

end Expansion

namespace Chain
variable {chain : Chain}

/-- The walk keeps a tree if the chain keeps every mapping in it. -/
theorem rewrite_eq_self (hc : chain.Shrinks) {node : Node}
    (h : ∀ entries, (Node.map entries).Occurs node → chain.apply (.map entries) = .ok (.map entries)) :
    chain.rewrite node = .ok node := by
  -- on the rank, which is what the walk descends on; an entry's value counts less than its mapping
  induction hk : node.rank using Nat.strongRecOn generalizing node with
  | ind k ih =>
      subst hk
      cases node with
      | list items =>
          have hall : items.mapM chain.rewrite = .ok items := by
            refine Outcome.mapM_eq_ok.mpr (List.forall₂_same.mpr fun item hi => ?_)
            exact ih _ (Node.rank_item_lt hi) (fun entries ho => h entries (.item hi ho)) rfl
          rw [rewrite_eq_level hc, rewriteLevel, hall]
          rfl
      | map entries =>
          have hall : entries.mapM chain.rewriteEntry = .ok entries := by
            refine Outcome.mapM_eq_ok.mpr (List.forall₂_same.mpr fun e he => ?_)
            have hlt : e.2.rank < (Node.map entries).rank := Nat.lt_of_succ_lt (Node.rank_value_lt he)
            rw [rewriteEntry, ih _ hlt (fun entries ho => h entries (.value he ho)) rfl]
            rfl
          rw [rewrite_eq_level hc, rewriteLevel, h entries .here]
          simp only [Outcome.ok_bind, hall]
          rfl
      | _ => exact rewrite_eq_level hc _

theorem rewriteSections_eq_self {names : List String} {template : Table Node}
    (h : ∀ name ∈ names, ∀ node, Table.get? template name = some node → chain.rewrite node = .ok node) :
    chain.rewriteSections names template = .ok template := by
  induction names with
  | nil => rfl
  | cons name names ih =>
      obtain ⟨hname, hnames⟩ := List.forall_mem_cons.mp h
      rw [rewriteSections]
      split
      · exact ih hnames
      · rename_i node hg
        rw [hname node hg, Outcome.ok_bind, Table.put_of_get? hg]
        exact ih hnames

end Chain

/-! ## Whole templates -/

namespace Expansion

/-- A template that declares nothing: neither of the two sections, and no shorthand pipeline. -/
structure Undeclared (options : Options) (template : Table Node) : Prop where
  api : options.apiSection ∉ Table.keys template
  matrix : options.matrixSection ∉ Table.keys template
  mapping : HasMapping template
  pipelines : ∀ e ∈ resourcesOf template, Pipeline.isShorthand options.pipelineTypes e.2 = false

namespace Undeclared
variable {options : Options} {template : Table Node}

theorem unsectioned (h : Undeclared options template) : unsectioned options template = template := by
  rw [Expansion.unsectioned, Table.erase_of_not_mem h.api, Table.erase_of_not_mem h.matrix]

theorem generatedBy (h : Undeclared options template) (params : Parameters) :
    generatedBy params options template = .ok ⟨{ digestLength := options.digestLength }, [], {}, []⟩ := by
  rw [Expansion.generatedBy, Table.erase_of_not_mem h.api, Table.get?_eq_none_iff.mpr h.api,
    Table.get?_eq_none_iff.mpr h.matrix]
  rfl

theorem expandResources (h : Undeclared options template) :
    expandResources options [] template = .ok (template, []) := by
  by_cases hr : resourcesKey ∈ Table.keys template
  · rw [expandResources_of_hasMapping h.mapping (.inr hr), merge, Outcome.ok_bind,
      Pipeline.expandAll_eq_self h.pipelines, Outcome.ok_bind, Table.put_of_get? (get?_of_hasMapping h.mapping hr)]
  · simp only [Expansion.expandResources, List.isEmpty_nil, ↓reduceIte, Table.get?_eq_none_iff.mpr hr]

/-- All that is left of an expansion is the walk, and there is nothing to tell about it. -/
theorem ofNode (h : Undeclared options template) (params : Parameters) {out : Table Node}
    (hout : (chain { digestLength := options.digestLength } {}).rewriteTemplate template = .ok out) :
    ofNode params options (.map template) = .ok ⟨out, {}⟩ := by
  simp only [ofNode_map, h.generatedBy, h.unsectioned, Outcome.ok_bind, Generated.definitions, List.append_nil,
    h.expandResources, hout]
  rfl

end Undeclared

/-- A template without shorthand: it declares nothing, and in the rewritten sections there is nothing symbolic
and no loose substitution. -/
structure Native (options : Options) (template : Table Node) : Prop extends Undeclared options template where
  calls : ∀ name ∈ Chain.sections, ∀ node, Table.get? template name = some node →
    node.Without Node.Symbolic ∧ node.Without Node.Loose

namespace Native
variable {options : Options} {template : Table Node}

theorem rewriteTemplate (h : Native options template) (apis : Apis) (ms : Matrices) :
    (chain apis ms).rewriteTemplate template = .ok template := by
  refine Chain.rewriteSections_eq_self fun name hname node hg => ?_
  obtain ⟨hsymbolic, hloose⟩ := h.calls name hname node hg
  exact Chain.rewrite_eq_self (shrinks apis ms) fun entries ho => apply_eq_self (hsymbolic _ ho) (hloose _ ho)

/-- A template without shorthand is its own expansion, and nothing is told about it. -/
theorem ofNode (h : Native options template) (params : Parameters) :
    ofNode params options (.map template) = .ok ⟨template, {}⟩ :=
  h.toUndeclared.ofNode params (h.rewriteTemplate _ _)

end Native
end Expansion
end Shorthand
