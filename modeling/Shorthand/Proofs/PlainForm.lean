import Shorthand.Proofs.Native

/-!
# Substitutions that bind nothing

A template without shorthand comes back as it is, but for one form: a substitution with a mapping of no
bindings is written with its template alone.
-/
namespace Shorthand

namespace Node

/-- A substitution whose template has an unclosed placeholder. -/
inductive Unclosed : Node → Prop
  | intro {arg : Node} {t : String} (h : Call.template? arg = some t) (hc : Template.isClosed t = false) :
      Unclosed (.call Call.sub arg)

theorem Unclosed.outlined : Outlined Unclosed where
  isCall h := by cases h; exact ⟨_, _, rfl⟩
  of_sameOutline {name a b} hu ho := by
    generalize hn : Node.call name b = node at hu
    obtain ⟨h, hc⟩ := hu
    cases hn
    exact .intro (ho.template? h) hc

/-- A substitution that binds nothing by a mapping. -/
inductive Unbound : Node → Prop
  | intro (t : String) : Unbound (.call Call.sub (.list [.text t, .map []]))

theorem Loose.unclosed_or_unbound {node : Node} (h : node.Loose) : node.Unclosed ∨ node.Unbound := by
  cases h with
  | unclosed h hc => exact .inl (.intro h hc)
  | unbound t => exact .inr (.intro t)

/-! ## The plain form -/

/-- The entries of a mapping, a substitution that binds nothing by a mapping written with its template. -/
def unbind : List (String × Node) → List (String × Node)
  | [(name, .list [.text t, .map []])] =>
    [(name, if name = Call.sub then .text t else .list [.text t, .map []])]
  | entries => entries

mutual
/-- A tree in which every substitution that binds nothing by a mapping is written with its template. -/
def plainForm : Node → Node
  | list items => list (plainFormOfItems items)
  | map entries => map (unbind (plainFormOfEntries entries))
  | leaf => leaf

def plainFormOfItems : List Node → List Node
  | [] => []
  | item :: items => plainForm item :: plainFormOfItems items

def plainFormOfEntries : List (String × Node) → List (String × Node)
  | [] => []
  | (key, value) :: entries => (key, plainForm value) :: plainFormOfEntries entries
end

theorem plainFormOfItems_eq_map (items : List Node) : plainFormOfItems items = items.map plainForm := by
  induction items with
  | nil => rfl
  | cons item items ih => rw [plainFormOfItems, ih, List.map_cons]

theorem plainFormOfEntries_eq_mapValues (entries : List (String × Node)) :
    plainFormOfEntries entries = Table.mapValues plainForm entries := by
  induction entries with
  | nil => rfl
  | cons entry entries ih => rw [plainFormOfEntries, ih, Table.mapValues, Table.mapValues, List.map_cons]

@[simp] theorem plainForm_list (items : List Node) : plainForm (.list items) = .list (items.map plainForm) := by
  rw [plainForm, plainFormOfItems_eq_map]

theorem plainForm_map (entries : List (String × Node)) :
    plainForm (.map entries) = .map (unbind (Table.mapValues plainForm entries)) := by
  rw [plainForm, plainFormOfEntries_eq_mapValues]

theorem unbind_eq_self {entries : List (String × Node)} (h : ¬ (Node.map entries).Unbound) :
    unbind entries = entries := by
  unfold unbind
  split
  · rename_i name t
    rw [if_neg]
    rintro rfl
    exact h (.intro t)
  · rfl

theorem unbind_eq_nil_iff {entries : List (String × Node)} : unbind entries = [] ↔ entries = [] := by
  unfold unbind
  split <;> simp

theorem eq_text_of_plainForm {node : Node} {t : String} (h : node.plainForm = .text t) : node = .text t := by
  cases node with
  | list items => simp at h
  | map entries => simp [plainForm_map] at h
  | _ => exact h

theorem eq_nil_of_plainForm {node : Node} (h : node.plainForm = .map []) : node = .map [] := by
  cases node with
  | list items => simp at h
  | map entries =>
      rw [plainForm_map, Node.map.injEq, unbind_eq_nil_iff, Table.mapValues, List.map_eq_nil_iff] at h
      rw [h]
  | _ => exact h

/-- No call becomes one that binds nothing. -/
theorem unbound_of_mapValues {entries : List (String × Node)}
    (h : (Node.map (Table.mapValues plainForm entries)).Unbound) : (Node.map entries).Unbound := by
  generalize hn : Node.map (Table.mapValues plainForm entries) = node at h
  cases h with
  | intro t =>
      obtain ⟨⟨name, arg⟩, rfl, he⟩ := List.map_eq_singleton_iff.mp (Node.map.inj hn)
      obtain ⟨rfl, ha⟩ := Prod.mk.inj he
      cases arg with
      | list items =>
          rw [plainForm_list, Node.list.injEq, List.map_eq_cons_iff] at ha
          obtain ⟨x, rest, rfl, hx, hrest⟩ := ha
          obtain ⟨y, rfl, hy⟩ := List.map_eq_singleton_iff.mp hrest
          rw [eq_text_of_plainForm hx, eq_nil_of_plainForm hy]
          exact .intro t
      | map entries => simp [plainForm_map] at ha
      | _ => cases ha

theorem plainForm_map_of_not_unbound {entries : List (String × Node)} (h : ¬ (Node.map entries).Unbound) :
    plainForm (.map entries) = .map (Table.mapValues plainForm entries) := by
  rw [plainForm_map, unbind_eq_self fun hu => h (unbound_of_mapValues hu)]

theorem plainForm_unbound (t : String) :
    plainForm (.call Call.sub (.list [.text t, .map []])) = .call Call.sub (.text t) := rfl

mutual
/-- A tree without such a substitution is in its plain form. -/
theorem plainForm_eq_self (node : Node) (h : node.Without Unbound) : node.plainForm = node := by
  match node with
  | .list items =>
      rw [plainForm, plainFormOfItems_eq_self items fun item hi n ho => h n (.item hi ho)]
  | .map entries =>
      rw [plainForm, plainFormOfEntries_eq_self entries fun e he n ho => h n (.value he ho),
        unbind_eq_self (h _ .here)]
  | .null | .bool _ | .number _ | .text _ => rfl

theorem plainFormOfItems_eq_self (items : List Node) (h : ∀ item ∈ items, item.Without Unbound) :
    plainFormOfItems items = items := by
  match items with
  | [] => rfl
  | item :: items =>
      obtain ⟨hitem, hitems⟩ := List.forall_mem_cons.mp h
      rw [plainFormOfItems, plainForm_eq_self item hitem, plainFormOfItems_eq_self items hitems]

theorem plainFormOfEntries_eq_self (entries : List (String × Node))
    (h : ∀ e ∈ entries, e.2.Without Unbound) : plainFormOfEntries entries = entries := by
  match entries with
  | [] => rfl
  | (key, value) :: entries =>
      obtain ⟨hvalue, hentries⟩ := List.forall_mem_cons.mp h
      rw [plainFormOfEntries, plainForm_eq_self value hvalue, plainFormOfEntries_eq_self entries hentries]
end

end Node

/-! ## The walk -/

theorem Chain.mapM_rewriteEntry {chain : Chain} {f : Node → Node} {entries : List (String × Node)}
    (h : ∀ e ∈ entries, chain.rewrite e.2 = .ok (f e.2)) :
    entries.mapM chain.rewriteEntry = .ok (Table.mapValues f entries) := by
  rw [Outcome.mapM_eq_ok, Table.mapValues, List.forall₂_map_right_iff, List.forall₂_same]
  intro e he
  rw [rewriteEntry, h e he]
  rfl

namespace Expansion
variable {apis : Apis} {ms : Matrices}

/-- The chain writes a substitution that binds nothing with its template, if this is closed and has nothing
symbolic. -/
theorem apply_unbound {t : String} (hs : ¬ (Node.call Call.sub (.list [.text t, .map []])).Symbolic)
    (hc : Template.isClosed t = true) :
    (chain apis ms).apply (.call Call.sub (.list [.text t, .map []])) = .ok (.call Call.sub (.text t)) := by
  have hr : ∀ r ∈ Template.placeholders t, ¬ IsReference r := fun r hr h => hs (.bound hr h)
  have hkeep (symbols : SymbolTable) (hno : ∀ r ∈ Template.placeholders t, symbols.owns r = false) :
      symbols.rewriteCall Call.sub (.list [.text t, .map []]) =
        .ok (.call Call.sub (.list [.text t, .map []])) :=
    SymbolTable.rewriteCall_eq_self hno fun _ _ ht => Option.some.inj ht ▸ hc
  have hapi := hkeep apis.symbols fun r hmem =>
    Bool.eq_false_iff.mpr fun hown => hr r hmem (.inl (claims_api_iff.mp hown))
  have hmatrix := hkeep ms.symbols fun r hmem =>
    Bool.eq_false_iff.mpr fun hown => hr r hmem (.inr (claims_matrix_iff.mp hown))
  have hvisit : ∀ r ∈ Template.placeholders t, Import.Imports.visit [] r {} = (.ok none, {}) := by
    intro r hmem
    rw [Import.Imports.visit, exported?_eq_none_iff.mpr fun h => hs (.boundImports hmem h)]
  have himport : Import.expand Call.sub (.list [.text t, .map []]) = .ok (.call Call.sub (.text t)) := by
    simp [Import.expand, Import.parts?, Table.keys, Template.rewriteWith_eq_self hc hvisit]
  rw [chain, apply_cons_of_keeps fun _ => hapi,
    apply_cons_of_keeps fun _ => Matrices.expand_eq_self (fun hn => absurd hn (by decide)) hmatrix, apply_cons]
  exact (congrArg (· >>= Chain.apply []) himport).trans rfl

/-- Where there is nothing symbolic and every template is closed, the walk only writes trees in their plain
form. -/
theorem rewrite_eq_plainForm {node : Node} (hs : node.Without Node.Symbolic)
    (hc : node.Without Node.Unclosed) : (chain apis ms).rewrite node = .ok node.plainForm := by
  -- on the rank, which is what the walk descends on
  induction hk : node.rank using Nat.strongRecOn generalizing node with
  | ind k ih =>
      subst hk
      cases node with
      | list items =>
          have hall : items.mapM (chain apis ms).rewrite = .ok (items.map Node.plainForm) := by
            rw [Outcome.mapM_eq_ok, List.forall₂_map_right_iff, List.forall₂_same]
            exact fun item hi =>
              ih _ (Node.rank_item_lt hi) (fun n ho => hs n (.item hi ho)) (fun n ho => hc n (.item hi ho)) rfl
          rw [Chain.rewrite_eq_level (shrinks apis ms), Chain.rewriteLevel, hall, Node.plainForm_list]
          rfl
      | map entries =>
          rw [Chain.rewrite_eq_level (shrinks apis ms), Chain.rewriteLevel]
          by_cases hu : (Node.map entries).Unbound
          · generalize hn : Node.map entries = node at hu hs hc
            obtain ⟨t⟩ := hu
            have hclosed : Template.isClosed t = true :=
              Bool.not_eq_false _ ▸ fun hopen => hc _ .here (.intro rfl hopen)
            -- a text is a leaf of the walk
            have htext : ∀ e ∈ [(Call.sub, Node.text t)], (chain apis ms).rewrite e.2 = .ok (id e.2) :=
              List.forall_mem_singleton.mpr (Chain.rewrite_eq_level (shrinks apis ms) _)
            rw [apply_unbound (hs _ .here) hclosed, Node.plainForm_unbound]
            simp only [Outcome.ok_bind, Node.call, Chain.mapM_rewriteEntry htext]
            rfl
          · have hall : ∀ e ∈ entries, (chain apis ms).rewrite e.2 = .ok e.2.plainForm := fun e he =>
              ih _ (Nat.lt_of_succ_lt (Node.rank_value_lt he)) (fun n ho => hs n (.value he ho))
                (fun n ho => hc n (.value he ho)) rfl
            have hloose : ¬ (Node.map entries).Loose := fun hl =>
              hl.unclosed_or_unbound.elim (hc _ .here) hu
            rw [apply_eq_self (hs _ .here) hloose, Node.plainForm_map_of_not_unbound hu]
            simp only [Outcome.ok_bind, Chain.mapM_rewriteEntry hall]
            rfl
      | _ => exact Chain.rewrite_eq_level (shrinks apis ms) _

/-! ## Whole templates -/

/-- A template without shorthand, in which substitutions may bind nothing by a mapping. -/
structure WithoutShorthand (options : Options) (template : Table Node) : Prop extends
    Undeclared options template where
  distinct : Table.Distinct template
  calls : ∀ name ∈ Chain.sections, ∀ node, Table.get? template name = some node →
    node.Without Node.Symbolic ∧ node.Without Node.Unclosed

/-- A template whose rewritten sections are in their plain form. -/
def inPlainForm (template : Table Node) : Table Node :=
  template.map fun e => (e.1, if e.1 ∈ Chain.sections then e.2.plainForm else e.2)

theorem inPlainForm_eq_self {template : Table Node} (hd : Table.Distinct template)
    (h : ∀ name ∈ Chain.sections, ∀ node, Table.get? template name = some node → node.Without Node.Unbound) :
    inPlainForm template = template := by
  conv_rhs => rw [← List.map_id template]
  refine List.map_congr_left fun e he => ?_
  split
  · rename_i hname
    rw [Node.plainForm_eq_self e.2 (h e.1 hname e.2 (hd.get?_eq_some_iff.mpr he))]
    rfl
  · rfl

end Expansion

theorem Chain.rewriteSections_eq_map {chain : Chain} {f : Node → Node} {names : List String} (hn : names.Nodup)
    {template : Table Node} (hd : Table.Distinct template)
    (h : ∀ name ∈ names, ∀ node, Table.get? template name = some node → chain.rewrite node = .ok (f node)) :
    chain.rewriteSections names template =
      .ok (template.map fun e => (e.1, if e.1 ∈ names then f e.2 else e.2)) := by
  induction names generalizing template with
  | nil => simp [rewriteSections]
  | cons name names ih =>
      obtain ⟨hnew, hn⟩ := List.nodup_cons.mp hn
      obtain ⟨hname, hnames⟩ := List.forall_mem_cons.mp h
      rw [rewriteSections]
      split
      · rename_i hg
        rw [ih hn hd hnames]
        refine congrArg _ (List.map_congr_left fun e he => ?_)
        have hne : e.1 ≠ name := fun heq =>
          Table.get?_eq_none_iff.mp hg (heq ▸ List.mem_map_of_mem (f := Prod.fst) he)
        simp [hne]
      · rename_i node hg
        have hk := Table.mem_keys_of_get? hg
        have hd' : Table.Distinct (Table.put template name (f node)) := by
          rw [Table.Distinct, Table.keys_put_of_mem _ hk]
          exact hd
        rw [hname node hg, Outcome.ok_bind, ih hn hd' fun other ho node hg' => hnames other ho node ?_,
          Table.put_eq_map hd _ hk, List.map_map]
        · refine congrArg _ (List.map_congr_left fun e he => ?_)
          by_cases heq : e.1 = name
          · have hnode : e.2 = node := by
              rw [← Table.Distinct.get?_eq_some_iff hd, heq, hg] at he
              exact (Option.some.inj he).symm
            simp [heq, hnew, hnode]
          · simp [heq]
        · rwa [Table.get?_put_of_ne _ _ fun heq : name = other => hnew (heq ▸ ho)] at hg'

namespace Expansion
variable {options : Options} {template : Table Node}

/-- A template without shorthand comes back with its rewritten sections in their plain form, and nothing is
told about it; that is the template itself, if every mapping of bindings binds something. -/
theorem ofNode_eq_inPlainForm (h : WithoutShorthand options template) (params : Parameters) :
    ofNode params options (.map template) = .ok ⟨inPlainForm template, {}⟩ ∧
      ((∀ name ∈ Chain.sections, ∀ node, Table.get? template name = some node →
        node.Without Node.Unbound) → inPlainForm template = template) := by
  refine ⟨h.toUndeclared.ofNode params ?_, inPlainForm_eq_self h.distinct⟩
  refine Chain.rewriteSections_eq_map (by decide) h.distinct fun name hname node hg => ?_
  obtain ⟨hsymbolic, hclosed⟩ := h.calls name hname node hg
  exact rewrite_eq_plainForm hsymbolic hclosed

/-- A bucket whose name is a substitution that binds nothing by a mapping. -/
def namedBucket (name : Node) : Node := .map [("Bucket", .map [("Type", .text "AWS::S3::Bucket"), ("Name", name)])]

def unboundName : Node := .call Call.sub (.list [.text "$\x7bAWS::Region\x7d-data", .map []])

def nativeTemplate (name : Node) : Table Node := [("Description", .null), ("Resources", namedBucket name)]

theorem without_namedBucket {Kind : Node → Prop} (hk : Node.Outlined Kind)
    (hdata : ∀ name arg, Kind (.call name arg) → Call.isName name = true) (hname : ¬ Kind unboundName) :
    (namedBucket unboundName).Without Kind := by
  have hnot {entries : List (String × Node)} (h : (Node.map entries).call? = none) : ¬ Kind (.map entries) := by
    intro hkind
    obtain ⟨name, arg, he⟩ := hk.isCall hkind
    rw [he] at h hkind
    simp [Node.call?, Node.call, Node.single?, hdata name arg hkind] at h
  refine .map (hnot rfl) (List.forall_mem_singleton.mpr (.map (hnot rfl) ?_))
  refine List.forall_mem_cons.mpr ⟨.leaf hk rfl, List.forall_mem_singleton.mpr (.map hname ?_)⟩
  refine List.forall_mem_singleton.mpr (.list hk (List.forall_mem_cons.mpr ⟨.leaf hk rfl, ?_⟩))
  exact List.forall_mem_singleton.mpr (.map (hnot rfl) fun _ he => by cases he)

theorem withoutShorthand_nativeTemplate : WithoutShorthand {} (nativeTemplate unboundName) := by
  have hsymbolic : (namedBucket unboundName).Without Node.Symbolic := by
    refine without_namedBucket Node.Symbolic.outlined (fun _ _ h => ?_) fun h => ?_
    · generalize ho : Node.call _ _ = node at h
      cases h <;> exact (Node.call_inj ho).1 ▸ rfl
    · have hbodies : Template.placeholders "$\x7bAWS::Region\x7d-data" = ["AWS::Region"] := by decide +kernel
      cases h.open with
      | @reference r hr h =>
          have hr : r ∈ Template.placeholders "$\x7bAWS::Region\x7d-data" := hr
          rw [hbodies, List.mem_singleton] at hr
          subst hr
          exact h.elim (by unfold StartsWith; decide) (by unfold StartsWith; decide)
      | length hn => exact absurd hn (by decide)
      | imports _ hp hr h =>
          obtain rfl := (Prod.mk.inj (Option.some.inj hp)).1
          obtain rfl := List.mem_singleton.mp (hbodies ▸ hr)
          revert h
          unfold StartsWith
          decide
  have hclosed : (namedBucket unboundName).Without Node.Unclosed := by
    refine without_namedBucket Node.Unclosed.outlined (fun _ _ h => ?_) fun h => ?_
    · generalize ho : Node.call _ _ = node at h
      cases h
      exact (Node.call_inj ho).1 ▸ rfl
    · generalize ho : unboundName = node at h
      obtain ⟨ht, hc⟩ := h
      obtain rfl := (Node.call_inj ho).2
      obtain rfl := Option.some.inj ht
      revert hc
      decide +kernel
  exact {
    api := by decide
    matrix := by decide
    mapping := by rintro _ ⟨⟩; rfl
    pipelines := by decide
    distinct := by simp [nativeTemplate, Table.Distinct, Table.keys]
    calls := by
      intro name hname node hg
      rcases List.mem_pair.mp hname with rfl | rfl
      · cases hg
        exact ⟨hsymbolic, hclosed⟩
      · cases hg }

theorem ofNode_nativeTemplate :
    WithoutShorthand {} (nativeTemplate unboundName) ∧
      ofNode [] {} (.map (nativeTemplate unboundName)) =
        .ok ⟨nativeTemplate (.call Call.sub (.text "$\x7bAWS::Region\x7d-data")), {}⟩ := 
  ⟨withoutShorthand_nativeTemplate, (ofNode_eq_inPlainForm withoutShorthand_nativeTemplate []).1⟩

end Expansion
end Shorthand
