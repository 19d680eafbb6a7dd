import Shorthand.Proofs.Resolvers
import Shorthand.Proofs.Text

/-!
# Symbolic references

Which calls still refer to something by the grammar of APIs, matrices or imports, and why the walk leaves
none of them: a call is settled by its own three steps, and what the walk does further down does not touch
its outline.
-/
namespace Shorthand

/-! ## Leads of texts -/

/-- Whether a text begins with a lead. -/
def StartsWith (lead text : String) : Prop := lead.toList <+: text.toList

theorem claims_api_iff {s : String} :
    ApiReference.claims s = true ↔ StartsWith ApiReference.lead s := Text.isSome_after?_iff

theorem claims_matrix_iff {s : String} :
    MatrixReference.claims s = true ↔ StartsWith MatrixReference.lead s := Text.isSome_after?_iff

theorem exported?_eq_none_iff {s : String} :
    Import.exported? s = none ↔ ¬ StartsWith Import.lead s := by
  rw [StartsWith, ← Text.isSome_after?_iff, Import.exported?]
  cases Text.after? Import.lead.toList s.toList <;> simp

/-- A text by which an API or a matrix is meant. -/
def IsReference (s : String) : Prop := StartsWith ApiReference.lead s ∨ StartsWith MatrixReference.lead s

theorem not_startsWith {lead s : String} (hl : ':' ∈ lead.toList) (hs : ':' ∉ s.toList) :
    ¬ StartsWith lead s :=
  fun h => hs (h.subset hl)

theorem not_isReference {s : String} (hs : ':' ∉ s.toList) : ¬ IsReference s := by
  rintro (h | h)
  · exact not_startsWith (by decide) hs h
  · exact not_startsWith (by decide) hs h

/-! ## Symbolic calls -/

/-- A call that has not got its final form: it names a part of an API or a matrix, or has the name of one
or of an import among the placeholders of its template. -/
inductive Node.Symbolic : Node → Prop
  | ref {s : String} (h : IsReference s) : Symbolic (.call Call.ref (.text s))
  | named {s : String} (h : IsReference s) : Symbolic (.call Call.getAtt (.text s))
  | pair {s attr : String} (h : IsReference s) :
      Symbolic (.call Call.getAtt (.list [.text s, .text attr]))
  | length {s : String} (h : StartsWith MatrixReference.lead s) :
      Symbolic (.call Call.length (.text s))
  | template {t r : String} (hr : r ∈ Template.placeholders t) (h : IsReference r) :
      Symbolic (.call Call.sub (.text t))
  | bound {t r : String} {rest : List Node} (hr : r ∈ Template.placeholders t) (h : IsReference r) :
      Symbolic (.call Call.sub (.list (.text t :: rest)))
  | imports {t r : String} (hr : r ∈ Template.placeholders t) (h : StartsWith Import.lead r) :
      Symbolic (.call Call.sub (.text t))
  | boundImports {t r : String} {bindings : Table Node} (hr : r ∈ Template.placeholders t)
      (h : StartsWith Import.lead r) :
      Symbolic (.call Call.sub (.list [.text t, .map bindings]))

namespace Node

/-- A node and all that stands in it, at any depth. -/
inductive Occurs (n : Node) : Node → Prop
  | here : Occurs n n
  | item {items : List Node} {item : Node} (h : item ∈ items) (ho : Occurs n item) :
      Occurs n (.list items)
  | value {entries : List (String × Node)} {e : String × Node} (h : e ∈ entries) (ho : Occurs n e.2) :
      Occurs n (.map entries)

/-- A reference that is left, a matrix whose length is asked for, or an import. -/
inductive Open (name : String) (arg : Node) : Prop
  | reference {r : String} (hr : r ∈ Call.references name arg) (h : IsReference r)
  | length {s : String} (hn : name = Call.length) (ha : arg = .text s)
      (h : StartsWith MatrixReference.lead s)
  | imports {t r : String} {bindings : Table Node} (hn : name = Call.sub)
      (hp : Import.parts? arg = some (t, bindings)) (hr : r ∈ Template.placeholders t)
      (h : StartsWith Import.lead r)

theorem Symbolic.open {name : String} {arg : Node} (h : (Node.call name arg).Symbolic) :
    Open name arg := by
  generalize ho : Node.call name arg = node at h
  cases h with
  | ref h => cases ho; exact .reference (List.mem_singleton_self _) h
  | named h => cases ho; exact .reference (List.mem_singleton_self _) h
  | pair h => cases ho; exact .reference (List.mem_singleton_self _) h
  | length h => cases ho; exact .length rfl rfl h
  | template hr h => cases ho; exact .reference hr h
  | bound hr h => cases ho; exact .reference hr h
  | imports hr h => cases ho; exact .imports rfl rfl hr h
  | boundImports hr h => cases ho; exact .imports rfl rfl hr h

theorem Open.symbolic {name : String} {arg : Node} (h : Open name arg) : (Node.call name arg).Symbolic := by
  cases h with
  | reference hr h =>
      unfold Call.references at hr
      split at hr
      · rename_i hn
        subst hn
        split at hr
        · exact .ref (List.mem_singleton.mp hr ▸ h)
        · cases hr
      · split at hr
        · rename_i hn
          subst hn
          split at hr
          · exact .named (List.mem_singleton.mp hr ▸ h)
          · exact .pair (List.mem_singleton.mp hr ▸ h)
          · cases hr
        · split at hr
          · rename_i hn
            subst hn
            split at hr
            · exact .template hr h
            · exact .bound hr h
            · cases hr
          · cases hr
  | length hn ha h =>
      subst hn ha
      exact .length h
  | imports hn hp hr h =>
      subst hn
      rcases Import.parts?_eq_some hp with ⟨rfl, _⟩ | rfl
      · exact .imports hr h
      · exact .boundImports hr h

theorem Symbolic.single {entries : List (String × Node)} (h : (Node.map entries).Symbolic) :
    ∃ name arg, entries = [(name, arg)] := by
  cases h <;> exact ⟨_, _, rfl⟩

end Node

/-! ## One call is settled -/

namespace Expansion
variable {apis : Apis} {ms : Matrices}

/-- The symbol tables give ids and attributes only. -/
structure PlainTargets (apis : Apis) (ms : Matrices) : Prop where
  apis : ∀ {s t}, apis.lookup s = .ok t → t.Plain
  matrices : ∀ {s t}, ms.lookup s = .ok t → t.Plain

theorem colon_not_mem {t : Target} (h : t.Plain) {r : String} (hr : r = t.id ∨ r = t.body) :
    ':' ∉ r.toList := by
  rcases hr with rfl | rfl
  · intro hc
    exact absurd (h.id.2 _ hc) (by decide)
  · exact h.not_mem_body rfl (by decide)

theorem colon_not_mem_nameOf (n : Nat) : ':' ∉ (Import.nameOf n).toList :=
  fun hc => absurd (Import.isAlphanum_of_mem_nameOf hc) (by decide)

/-- Where a reference comes from that is there after the first two steps: it was there before and is
none of these families', or it is what one of them answered to a reference of theirs. -/
inductive Source (apis : Apis) (ms : Matrices) (olds : List String) (r : String) : Prop
  | kept (h : r ∈ olds) (hn : ¬ IsReference r)
  | found {s : String} {t : Target} (h : s ∈ olds) (hs : IsReference s)
      (hl : apis.lookup s = .ok t ∨ ms.lookup s = .ok t) (hr : r = t.id ∨ r = t.body)

/-- What the first step leaves is no API's, and the second brings none of these back. -/
theorem source_of_rewrites (plain : PlainTargets apis ms) {name n₁ n₂ : String} {arg a₁ a₂ : Node}
    (h₁ : apis.symbols.Rewrites name arg (.call n₁ a₁)) (h₂ : ms.Rewrites n₁ a₁ (.call n₂ a₂)) {r : String}
    (hr : r ∈ Call.references n₂ a₂) : Source apis ms (Call.references name arg) r := by
  cases h₂.answer plain.matrices hr with
  | found hs ho hl ht =>
      cases h₁.answer plain.apis hs with
      | found _ _ hl' ht' =>
          have hn := not_isReference (colon_not_mem (plain.apis hl') ht')
          exact absurd (.inr (claims_matrix_iff.mp ho)) hn
      | kept hs' _ => exact .found hs' (.inr (claims_matrix_iff.mp ho)) (.inr hl) ht
  | kept hr₁ ho₂ =>
      cases h₁.answer plain.apis hr₁ with
      | found hs ho hl ht => exact .found hs (.inl (claims_api_iff.mp ho)) (.inl hl) ht
      | kept hr' ho₁ =>
          refine .kept hr' ?_
          rintro (h | h)
          · exact absurd (claims_api_iff.mpr h) (Bool.eq_false_iff.mp ho₁)
          · exact absurd (claims_matrix_iff.mpr h) (Bool.eq_false_iff.mp ho₂)

theorem Source.not_isReference (plain : PlainTargets apis ms) {olds : List String} {r : String}
    (h : Source apis ms olds r) : ¬ IsReference r := by
  cases h with
  | kept _ hn => exact hn
  | found _ _ hl ht =>
      have hp := hl.elim (plain.apis ·) (plain.matrices ·)
      exact Shorthand.not_isReference (colon_not_mem hp ht)

theorem eq_of_rewrites_length {symbols : SymbolTable} {name : String} {arg a : Node}
    (h : symbols.Rewrites name arg (.call Call.length a)) : name = Call.length ∧ arg = a := by
  generalize ho : Node.call Call.length a = out at h
  cases h with
  | kept _ _ => exact ⟨(Node.call_inj ho).1.symm, (Node.call_inj ho).2.symm⟩
  | @ref _ t _ _ =>
      obtain ⟨n, b, hb, hn⟩ := t.toNode_eq_call
      rcases hn with rfl | rfl <;> exact absurd (Node.call_inj (ho.trans hb)).1 (by decide)
  | named _ _ _ => exact absurd (Node.call_inj ho).1 (by decide)
  | pair _ _ => exact absurd (Node.call_inj ho).1 (by decide)
  | template _ => exact absurd (Node.call_inj ho).1 (by decide)
  | bound _ => exact absurd (Node.call_inj ho).1 (by decide)

theorem not_length_of_rewrites {name : String} {arg : Node} {s : String}
    (h : ms.Rewrites name arg (.call Call.length (.text s))) : ¬ StartsWith MatrixReference.lead s := by
  generalize ho : Node.call Call.length (.text s) = out at h
  cases h with
  | length _ => cases (Node.call_inj ho).2
  | symbols hl h =>
      obtain ⟨hn, ha⟩ := eq_of_rewrites_length (ho ▸ h)
      exact fun hs => absurd (claims_matrix_iff.mpr hs) (Bool.eq_false_iff.mp (hl s hn ha))

/-- The third step leaves no import in a template that it can bind. -/
theorem not_import_of_expands {arg a : Node} (h : Import.Expands Call.sub arg (.call Call.sub a))
    {t r : String} {bindings : Table Node} (hp : Import.parts? a = some (t, bindings))
    (hr : r ∈ Template.placeholders t) : ¬ StartsWith Import.lead r := by
  generalize ho : Node.call Call.sub a = out at h
  cases h with
  | other hn =>
      cases ho
      simp [hn] at hp
  | @free t' bindings' _ hn =>
      cases ho
      have ht : t = t' := by
        split at hp
        · exact (Prod.mk.inj (Option.some.inj hp)).1.symm
        · exact (Prod.mk.inj (Option.some.inj hp)).1.symm
      exact exported?_eq_none_iff.mp (hn r (ht ▸ hr))
  | bound _ _ _ hb =>
      cases ho
      obtain ⟨rfl, _⟩ := Prod.mk.inj (Option.some.inj hp)
      rcases hb r hr with ⟨_, he⟩ | ⟨n, rfl⟩
      · exact exported?_eq_none_iff.mp he
      · exact not_startsWith (by decide) (colon_not_mem_nameOf n)

theorem Steps.not_open (plain : PlainTargets apis ms) {name name' : String} {arg arg' : Node}
    (h : Steps apis ms name arg (.call name' arg')) : ¬ Node.Open name' arg' := by
  cases h with
  | other h₁ h₂ hn ho =>
      cases ho
      intro hopen
      cases hopen with
      | reference hr h => exact (source_of_rewrites plain h₁ h₂ hr).not_isReference plain h
      | length hl ha h =>
          subst hl ha
          exact not_length_of_rewrites h₂ h
      | imports hs _ _ _ => exact hn hs
  | sub h₁ h₂ h₃ =>
      obtain ⟨a, ha⟩ := h₃.isCall
      cases ha
      intro hopen
      cases hopen with
      | length hl _ _ => exact absurd hl (by decide)
      | imports _ hp hr h => exact not_import_of_expands h₃ hp hr h
      | reference hr h =>
          -- a binding brings made-up names into the template, but these have no colon
          rcases h₃.references hr with ho | ⟨n, rfl⟩
          · exact (source_of_rewrites plain h₁ h₂ ho).not_isReference plain h
          · exact not_isReference (colon_not_mem_nameOf n) h

/-- The references in what the chain puts in place of a mapping. -/
theorem references_of_apply (plain : PlainTargets apis ms) {entries : List (String × Node)} {out : Node}
    (h : (chain apis ms).apply (.map entries) = .ok out) {r : String} (hr : r ∈ out.references) :
    Source apis ms (Node.map entries).references r ∨ ∃ n, r = Import.nameOf n := by
  cases applies_of_apply h with
  | call he hs =>
      subst he
      cases hs with
      | other h₁ h₂ _ ho =>
          subst ho
          exact .inl (source_of_rewrites plain h₁ h₂ hr)
      | sub h₁ h₂ h₃ => exact (h₃.references hr).imp_left (source_of_rewrites plain h₁ h₂)
  | other hn ho =>
      subst ho
      rw [Node.references_map_of_ne hn] at hr
      cases hr

/-- What the chain puts in place of a mapping is not symbolic. -/
theorem not_symbolic_of_apply (plain : PlainTargets apis ms) {entries : List (String × Node)} {out : Node}
    (h : (chain apis ms).apply (.map entries) = .ok out) : ¬ out.Symbolic := by
  cases applies_of_apply h with
  | call _ hs =>
      obtain ⟨name', arg', rfl⟩ := hs.isCall
      exact fun hsym => hs.not_open plain hsym.open
  | other hn ho =>
      subst ho
      intro hsym
      obtain ⟨name, arg, he⟩ := hsym.single
      exact hn name arg he

end Expansion

/-! ## Outlines -/

namespace Node

/-- Both the same leaf, both lists, or both mappings, and these both empty or neither. -/
inductive SameKind : Node → Node → Prop
  | leaf {n : Node} (h : n.isLeaf = true) : SameKind n n
  | list (as bs : List Node) : SameKind (.list as) (.list bs)
  | map {as bs : List (String × Node)} (h : as = [] ↔ bs = []) : SameKind (.map as) (.map bs)

/-- The same kind, and in a list the items too. -/
inductive SameOutline : Node → Node → Prop
  | leaf {n : Node} (h : n.isLeaf = true) : SameOutline n n
  | list {as bs : List Node} (h : List.Forall₂ SameKind as bs) : SameOutline (.list as) (.list bs)
  | map {as bs : List (String × Node)} (h : as = [] ↔ bs = []) : SameOutline (.map as) (.map bs)

theorem SameOutline.sameKind {a b : Node} (h : SameOutline a b) : SameKind a b := by
  cases h with
  | leaf h => exact .leaf h
  | list _ => exact .list _ _
  | map h => exact .map h

theorem SameKind.eq_text {a : Node} {s : String} (h : SameKind a (.text s)) : a = .text s := by
  cases h; rfl

theorem SameKind.eq_map {a : Node} {bs : List (String × Node)} (h : SameKind a (.map bs)) :
    ∃ as, a = .map as := by
  cases h with
  | leaf h => simp [isLeaf] at h
  | @map as _ _ => exact ⟨as, rfl⟩

theorem SameOutline.text?_eq {a b : Node} (h : SameOutline a b) : b.text? = a.text? := by
  cases h <;> rfl

theorem SameOutline.isMap_eq {a b : Node} (h : SameOutline a b) : b.isMap = a.isMap := by
  cases h <;> rfl

theorem SameOutline.list_inv {a : Node} {bs : List Node} (h : SameOutline a (.list bs)) :
    ∃ as, a = .list as ∧ List.Forall₂ SameKind as bs := by
  cases h with
  | leaf h => simp [isLeaf] at h
  | list h => exact ⟨_, rfl, h⟩

/-- Whether a call is symbolic is seen from the outline of its argument. -/
theorem Symbolic.of_sameOutline {name : String} {a b : Node} (hs : (Node.call name b).Symbolic)
    (ho : SameOutline a b) : (Node.call name a).Symbolic := by
  generalize hn : Node.call name b = node at hs
  cases hs with
  | ref h => cases hn; exact ho.sameKind.eq_text ▸ .ref h
  | named h => cases hn; exact ho.sameKind.eq_text ▸ .named h
  | length h => cases hn; exact ho.sameKind.eq_text ▸ .length h
  | template hr h => cases hn; exact ho.sameKind.eq_text ▸ .template hr h
  | imports hr h => cases hn; exact ho.sameKind.eq_text ▸ .imports hr h
  | pair h =>
      cases hn
      obtain ⟨as, rfl, hf⟩ := ho.list_inv
      obtain ⟨x, _, hx, hf₁, rfl⟩ := List.forall₂_cons_right_iff.mp hf
      obtain ⟨y, _, hy, hnil, rfl⟩ := List.forall₂_cons_right_iff.mp hf₁
      cases hnil
      rw [hx.eq_text, hy.eq_text]
      exact .pair h
  | bound hr h =>
      cases hn
      obtain ⟨as, rfl, hf⟩ := ho.list_inv
      obtain ⟨x, _, hx, _, rfl⟩ := List.forall₂_cons_right_iff.mp hf
      rw [hx.eq_text]
      exact .bound hr h
  | boundImports hr h =>
      cases hn
      obtain ⟨as, rfl, hf⟩ := ho.list_inv
      obtain ⟨x, _, hx, hf₁, rfl⟩ := List.forall₂_cons_right_iff.mp hf
      obtain ⟨y, _, hy, hnil, rfl⟩ := List.forall₂_cons_right_iff.mp hf₁
      cases hnil
      obtain ⟨_, rfl⟩ := hy.eq_map
      rw [hx.eq_text]
      exact .boundImports hr h

/-- A kind of calls that is seen from the outline of their arguments. -/
structure Outlined (Kind : Node → Prop) : Prop where
  isCall : ∀ {n}, Kind n → ∃ name arg, n = .call name arg
  of_sameOutline : ∀ {name a b}, Kind (.call name b) → SameOutline a b → Kind (.call name a)

theorem Symbolic.outlined : Outlined Symbolic where
  isCall h := by cases h <;> exact ⟨_, _, rfl⟩
  of_sameOutline := Symbolic.of_sameOutline

/-- Nothing of a kind at any depth. -/
def Without (Kind : Node → Prop) (node : Node) : Prop := ∀ n : Node, n.Occurs node → ¬ Kind n

namespace Without
variable {Kind : Node → Prop}

theorem list (hk : Outlined Kind) {items : List Node} (h : ∀ item ∈ items, Without Kind item) :
    Without Kind (.list items) := by
  intro n ho
  cases ho with
  | here =>
      intro hs
      obtain ⟨_, _, he⟩ := hk.isCall hs
      cases he
  | item hi ho => exact h _ hi n ho

theorem map {entries : List (String × Node)} (hn : ¬ Kind (.map entries))
    (h : ∀ e ∈ entries, Without Kind e.2) : Without Kind (.map entries) := by
  intro n ho
  cases ho with
  | here => exact hn
  | value he ho => exact h _ he n ho

theorem leaf (hk : Outlined Kind) {node : Node} (hl : node.isLeaf = true) : Without Kind node := by
  intro n ho
  cases ho with
  | here =>
      intro hs
      obtain ⟨_, _, rfl⟩ := hk.isCall hs
      cases hl
  | item _ _ => cases hl
  | value _ _ => cases hl

end Without
end Node

/-! ## The whole tree is settled -/

namespace Expansion
variable {apis : Apis} {ms : Matrices}

theorem apply_eq_nil_iff {entries news : List (String × Node)}
    (h : (chain apis ms).apply (.map entries) = .ok (.map news)) : entries = [] ↔ news = [] := by
  rcases eq_or_rewritten_of_apply h with he | ⟨_, _, _, _, rfl, he, _⟩
  · rw [Node.map.inj he]
  · rw [Node.map.inj he]
    simp

/-- The walk keeps the outline of a tree. What it does not put in place of a mapping is nowhere in the end,
if it is of a kind that is seen from outlines. -/
theorem sameOutline_and_without_of_rewrite {Kind : Node → Prop} (hk : Node.Outlined Kind)
    (hout : ∀ {entries out}, (chain apis ms).apply (.map entries) = .ok out → ¬ Kind out) {node out : Node}
    (h : (chain apis ms).rewrite node = .ok out) : node.SameOutline out ∧ Node.Without Kind out := by
  refine Chain.rewrite_induction (shrinks apis ms) (motive := fun a b => a.SameOutline b ∧ Node.Without Kind b)
    (fun hl => ⟨.leaf hl, .leaf hk hl⟩) ?_ ?_ h
  · intro items outs hf
    refine ⟨.list (hf.imp fun _ _ hab => hab.1.sameKind), .list hk ?_⟩
    intro out ho
    obtain ⟨_, _, _, hs⟩ := Outcome.exists_of_mem_right hf ho
    exact hs
  · intro entries news outs ha hf
    have hnil : news = [] ↔ outs = [] := by
      rw [← List.length_eq_zero_iff, hf.length_eq, List.length_eq_zero_iff]
    refine ⟨.map ((apply_eq_nil_iff ha).trans hnil), .map ?_ ?_⟩
    · intro hs
      obtain ⟨name, arg, he⟩ := hk.isCall hs
      obtain rfl := Node.map.inj he
      obtain ⟨⟨_, a⟩, rest, ⟨rfl, ho, _⟩, hrest, rfl⟩ := List.forall₂_cons_right_iff.mp hf
      cases hrest
      exact hout ha (hk.of_sameOutline hs ho)
    · intro e he
      obtain ⟨_, _, _, _, hs⟩ := Outcome.exists_of_mem_right hf he
      exact hs

theorem sameOutline_of_rewrite {node out : Node} (h : (chain apis ms).rewrite node = .ok out) :
    node.SameOutline out := by
  have hk : Node.Outlined fun _ => False := ⟨False.elim, False.elim⟩
  exact (sameOutline_and_without_of_rewrite hk (fun _ => id) h).1

/-- The walk settles a tree and keeps its outline. -/
theorem sameOutline_and_settled_of_rewrite (plain : PlainTargets apis ms) {node out : Node}
    (h : (chain apis ms).rewrite node = .ok out) : node.SameOutline out ∧ Node.Without Node.Symbolic out :=
  sameOutline_and_without_of_rewrite Node.Symbolic.outlined (not_symbolic_of_apply plain) h

end Expansion
end Shorthand
