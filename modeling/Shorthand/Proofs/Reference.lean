import Shorthand.Proofs.Outcome
import Shorthand.Proofs.Placeholder
import Shorthand.Reference.Matrix
import Shorthand.Rewriting

/-!
# References in calls

What a call refers to, and what a symbol table leaves of it: its own references become resource ids or
attributes, and all others stay.
-/
namespace Shorthand

/-! ## Ids and targets -/

/-- The characters of generated ids. -/
def isIdChar (c : Char) : Bool := c.isAlphanum || c = '_'

/-- A text that can be the id of a generated resource. -/
def IsId (id : String) : Prop := id ≠ "" ∧ ∀ c ∈ id.toList, isIdChar c = true

/-- An attribute as the grammar of references writes it. -/
def IsAttribute (a : String) : Prop := ∀ c ∈ a.toList, ApiReference.isAttributeChar c = true

namespace Target

/-- A target that a symbol table may give: an id, and an attribute without signs of other grammars. -/
structure Plain (t : Target) : Prop where
  id : IsId t.id
  attr : ∀ a, t.attr = some a → IsAttribute a

theorem body_toList (t : Target) :
    t.body.toList = t.id.toList ++ t.attr.elim [] fun a => '.' :: a.toList := by
  cases h : t.attr with
  | none => simp [body, h]
  | some a => simp [body, h, toString]

namespace Plain
variable {t : Target}

theorem mem_body (h : t.Plain) {c : Char} (hc : c ∈ t.body.toList) : isIdChar c = true ∨ c = '.' := by
  rw [body_toList, List.mem_append] at hc
  rcases hc with hc | hc
  · exact Or.inl (h.id.2 c hc)
  · cases ha : t.attr with
    | none => simp [ha] at hc
    | some a =>
        simp only [ha, Option.elim_some, List.mem_cons] at hc
        rcases hc with rfl | hc
        · exact Or.inr rfl
        · have := h.attr a ha c hc
          simp only [ApiReference.isAttributeChar, Bool.or_eq_true, decide_eq_true_eq] at this
          exact this.imp_left fun hd => by simp [isIdChar, hd]

theorem not_mem_body (h : t.Plain) {c : Char} (hc : isIdChar c = false) (hd : c ≠ '.') :
    c ∉ t.body.toList := by
  intro hm
  rcases h.mem_body hm with hi | rfl
  · simp [hc] at hi
  · exact hd rfl

theorem plainBody (h : t.Plain) : Template.PlainBody t.body.toList := by
  refine ⟨h.not_mem_body rfl (by decide), ?_⟩
  cases hb : t.body.toList with
  | nil => rfl
  | cons c cs =>
      have hc : c ≠ '!' := by
        rintro rfl
        exact h.not_mem_body (c := '!') rfl (by decide) (by simp [hb])
      simpa [Piece.isLiteral] using hc

end Plain

end Target

/-! ## What a call refers to -/

namespace Call

/-- What a call names, or what the placeholders of its template name. -/
def references (name : String) (arg : Node) : List String :=
  if name = ref then
    match arg with
    | .text s => [s]
    | _ => []
  else if name = getAtt then
    match arg with
    | .text s => [s]
    | .list [.text s, .text _] => [s]
    | _ => []
  else if name = sub then
    match arg with
    | .text template => Template.placeholders template
    | .list (.text template :: _) => Template.placeholders template
    | _ => []
  else []

/-- The template of a substitution. -/
def template? : Node → Option String
  | .text template => some template
  | .list (.text template :: _) => some template
  | _ => none

theorem references_of_ne {name : String} (hr : name ≠ ref) (hg : name ≠ getAtt) (hs : name ≠ sub)
    (arg : Node) : references name arg = [] := by
  simp [references, hr, hg, hs]

end Call

/-- The references of a mapping with a single key, if that key is a call. -/
def Node.references : Node → List String
  | .map [(name, arg)] => Call.references name arg
  | _ => []

theorem Node.references_map_of_ne {entries : List (String × Node)} (h : ∀ name arg, entries ≠ [(name, arg)]) :
    (Node.map entries).references = [] := by
  unfold Node.references
  split
  · rename_i he
    exact absurd (Node.map.inj he) (h _ _)
  · rfl

@[simp] theorem Node.references_call (name : String) (arg : Node) :
    (Node.call name arg).references = Call.references name arg := rfl

namespace Call

@[simp] theorem references_ref (s : String) : references ref (.text s) = [s] := rfl

@[simp] theorem references_getAtt (s : String) : references getAtt (.text s) = [s] := rfl

@[simp] theorem references_getAtt_pair (s attr : String) :
    references getAtt (.list [.text s, .text attr]) = [s] := rfl

@[simp] theorem references_sub (template : String) :
    references sub (.text template) = Template.placeholders template := rfl

@[simp] theorem references_sub_list (template : String) (rest : List Node) :
    references sub (.list (.text template :: rest)) = Template.placeholders template := rfl

theorem references_of_template? {arg : Node} {template : String} (h : template? arg = some template) :
    references sub arg = Template.placeholders template := by
  unfold template? at h
  split at h
  · rw [← Option.some.inj h, references_sub]
  · rw [← Option.some.inj h, references_sub_list]
  · cases h

end Call

theorem Node.call_inj {name name' : String} {arg arg' : Node} (h : Node.call name arg = .call name' arg') :
    name = name' ∧ arg = arg' := by
  simpa [Node.call] using h

theorem Target.toNode_eq_call (t : Target) :
    ∃ name arg, t.toNode = .call name arg ∧ (name = Call.ref ∨ name = Call.getAtt) := by
  cases h : t.attr with
  | none => exact ⟨Call.ref, _, by rw [toNode, h]; rfl, Or.inl rfl⟩
  | some a => exact ⟨Call.getAtt, _, by rw [toNode, h]; rfl, Or.inr rfl⟩

theorem Target.references_toNode (t : Target) : t.toNode.references = [t.id] := by
  cases h : t.attr with
  | none => simp [Target.toNode, h, Node.refTo]
  | some a => simp [Target.toNode, h, Node.attributeOf]

/-! ## One rewriting step -/

namespace SymbolTable
variable {symbols : SymbolTable}

/-- All that a symbol table can make of a call. -/
inductive Rewrites (symbols : SymbolTable) : String → Node → Node → Prop
  | kept {name : String} {arg : Node} (hn : name = Call.sub → Call.template? arg = none)
      (h : ∀ r ∈ Call.references name arg, symbols.owns r = false) :
      Rewrites symbols name arg (.call name arg)
  | ref {s : String} {t : Target} (ho : symbols.owns s = true) (hl : symbols.lookup s = .ok t) :
      Rewrites symbols Call.ref (.text s) t.toNode
  | named {s attr : String} {t : Target} (ho : symbols.owns s = true)
      (hl : symbols.lookup s = .ok t) (ha : t.attr = some attr) :
      Rewrites symbols Call.getAtt (.text s) (.attributeOf t.id attr)
  | pair {s attr : String} {t : Target} (ho : symbols.owns s = true)
      (hl : symbols.lookup s = .ok t) :
      Rewrites symbols Call.getAtt (.list [.text s, .text attr]) (.attributeOf t.id attr)
  | template {t t' : String} (h : symbols.rewriteTemplate t = .ok t') :
      Rewrites symbols Call.sub (.text t) (.call Call.sub (.text t'))
  | bound {t t' : String} {rest : List Node} (h : symbols.rewriteTemplate t = .ok t') :
      Rewrites symbols Call.sub (.list (.text t :: rest)) (.call Call.sub (.list (.text t' :: rest)))

theorem rewrites_ref {arg out : Node} (h : symbols.rewriteCall Call.ref arg = .ok out) :
    symbols.Rewrites Call.ref arg out := by
  simp only [rewriteCall, ↓reduceIte] at h
  split at h
  · rename_i s
    cases ho : symbols.owns s with
    | true =>
        simp only [ho, ↓reduceIte, Outcome.map_eq_ok] at h
        obtain ⟨t, hl, rfl⟩ := h
        exact .ref ho hl
    | false =>
        simp only [ho, Bool.false_eq_true, ↓reduceIte, Except.ok.injEq] at h
        exact h ▸ .kept (fun hn => absurd hn (by decide)) (by simpa using ho)
  · rename_i hs
    simp only [Except.ok.injEq] at h
    have hr : Call.references Call.ref arg = [] := by
      cases arg <;> first | rfl | exact absurd rfl (hs _)
    exact h ▸ .kept (fun hn => absurd hn (by decide)) (by simp [hr])

theorem rewrites_getAtt {arg out : Node} (h : symbols.rewriteCall Call.getAtt arg = .ok out) :
    symbols.Rewrites Call.getAtt arg out := by
  have hne : Call.getAtt ≠ Call.ref := by decide
  simp only [rewriteCall, hne, ↓reduceIte] at h
  split at h
  · rename_i s
    cases ho : symbols.owns s with
    | true =>
        simp only [ho, ↓reduceIte, Outcome.bind_eq_ok] at h
        obtain ⟨t, hl, h⟩ := h
        split at h
        · rename_i attr ha
          simp only [Except.ok.injEq] at h
          exact h ▸ .named ho hl ha
        · simp at h
    | false =>
        simp only [ho, Bool.false_eq_true, ↓reduceIte, Except.ok.injEq] at h
        exact h ▸ .kept (fun hn => absurd hn (by decide)) (by simpa using ho)
  · rename_i s attr
    cases ho : symbols.owns s with
    | true =>
        simp only [ho, ↓reduceIte, Outcome.map_eq_ok] at h
        obtain ⟨t, hl, rfl⟩ := h
        exact .pair ho hl
    | false =>
        simp only [ho, Bool.false_eq_true, ↓reduceIte, Except.ok.injEq] at h
        exact h ▸ .kept (fun hn => absurd hn (by decide)) (by simpa using ho)
  · rename_i hs hp
    simp only [Except.ok.injEq] at h
    have hr : Call.references Call.getAtt arg = [] := by
      simp only [Call.references, hne, ↓reduceIte]
    exact h ▸ .kept (fun hn => absurd hn (by decide)) (by simp [hr])

theorem rewrites_sub {arg out : Node} (h : symbols.rewriteCall Call.sub arg = .ok out) :
    symbols.Rewrites Call.sub arg out := by
  have hr : Call.sub ≠ Call.ref := by decide
  have hg : Call.sub ≠ Call.getAtt := by decide
  simp only [rewriteCall, hr, hg, ↓reduceIte] at h
  split at h
  · simp only [Outcome.map_eq_ok] at h
    obtain ⟨t', ht, rfl⟩ := h
    exact .template ht
  · simp only [Outcome.map_eq_ok] at h
    obtain ⟨t', ht, rfl⟩ := h
    exact .bound ht
  · rename_i hs hl
    simp only [Except.ok.injEq] at h
    have ht : Call.template? arg = none := by
      simp only [Call.template?]
    have hn : Call.references Call.sub arg = [] := by
      simp only [Call.references, hr, hg, ↓reduceIte]
    exact h ▸ .kept (fun _ => ht) (by simp [hn])

theorem rewrites_of_rewriteCall {name : String} {arg out : Node}
    (h : symbols.rewriteCall name arg = .ok out) : symbols.Rewrites name arg out := by
  by_cases hr : name = Call.ref
  · subst hr
    exact rewrites_ref h
  by_cases hg : name = Call.getAtt
  · subst hg
    exact rewrites_getAtt h
  by_cases hs : name = Call.sub
  · subst hs
    exact rewrites_sub h
  simp only [rewriteCall, hr, hg, hs, ↓reduceIte, Except.ok.injEq] at h
  exact h ▸ .kept (fun hn => absurd hn hs) (by simp [Call.references_of_ne hr hg hs])

/-- A reference after a step: one of the old ones that the table does not own, or the table's answer to
one that it owns. -/
inductive Answer (symbols : SymbolTable) (olds : List String) (r : String) : Prop
  | kept (h : r ∈ olds) (ho : symbols.owns r = false)
  | found {s : String} {t : Target} (h : s ∈ olds) (ho : symbols.owns s = true)
      (hl : symbols.lookup s = .ok t) (hr : r = t.id ∨ r = t.body)

theorem plainBody_of_new? (plain : ∀ {s t}, symbols.lookup s = .ok t → t.Plain) {body new : String}
    (h : (if symbols.owns body then (symbols.lookup body).map fun t => some t.body else .ok none) =
      .ok (some new)) : Template.PlainBody new.toList := by
  split at h
  · simp only [Outcome.map_eq_ok, Option.some.injEq] at h
    obtain ⟨t, hl, rfl⟩ := h
    exact (plain hl).plainBody
  · simp at h

theorem answer_of_rewriteTemplate (plain : ∀ {s t}, symbols.lookup s = .ok t → t.Plain) {t t' : String}
    (h : symbols.rewriteTemplate t = .ok t') {r : String} (hr : r ∈ Template.placeholders t') :
    symbols.Answer (Template.placeholders t) r := by
  have hf := Template.placeholders_of_rewrite (plainBody_of_new? plain) h
  obtain ⟨s, hs, answer, ha, rfl⟩ := Outcome.exists_of_mem_right hf hr
  cases ho : symbols.owns s with
  | true =>
      simp only [ho, ↓reduceIte, Outcome.map_eq_ok] at ha
      obtain ⟨t, hl, rfl⟩ := ha
      exact .found hs ho hl (Or.inr rfl)
  | false =>
      simp only [ho, Bool.false_eq_true, ↓reduceIte, Except.ok.injEq] at ha
      subst ha
      exact .kept hs ho

/-- No reference is made up by a step. -/
theorem Rewrites.answer (plain : ∀ {s t}, symbols.lookup s = .ok t → t.Plain) {name : String}
    {arg out : Node} (h : symbols.Rewrites name arg out) {r : String} (hr : r ∈ out.references) :
    symbols.Answer (Call.references name arg) r := by
  cases h with
  | kept _ hk => exact .kept hr (hk r hr)
  | ref ho hl =>
      rw [Target.references_toNode, List.mem_singleton] at hr
      exact .found (List.mem_singleton_self _) ho hl (Or.inl hr)
  | named ho hl _ =>
      exact .found (List.mem_singleton_self _) ho hl (Or.inl (List.mem_singleton.mp hr))
  | pair ho hl =>
      exact .found (List.mem_singleton_self _) ho hl (Or.inl (List.mem_singleton.mp hr))
  | template ht => exact answer_of_rewriteTemplate plain ht hr
  | bound ht => exact answer_of_rewriteTemplate plain ht hr

theorem Rewrites.isCall {name : String} {arg out : Node} (h : symbols.Rewrites name arg out) :
    ∃ name' arg', out = .call name' arg' := by
  cases h with
  | @ref s t _ _ =>
      obtain ⟨name, arg, h, _⟩ := t.toNode_eq_call
      exact ⟨name, arg, h⟩
  | _ => exact ⟨_, _, rfl⟩

/-- A substitution has a closed template after a step, if it has one. -/
theorem Rewrites.isClosed (plain : ∀ {s t}, symbols.lookup s = .ok t → t.Plain) {arg arg' : Node}
    (h : symbols.Rewrites Call.sub arg (.call Call.sub arg')) {t : String}
    (ht : Call.template? arg' = some t) : Template.isClosed t = true := by
  generalize hname : Call.sub = name at h
  generalize ho : Node.call name arg' = out at h
  cases h with
  | kept hn _ =>
      cases ho
      cases (hn hname.symm).symm.trans ht
  | ref _ _ => exact absurd hname (by decide)
  | named _ _ _ => exact absurd hname (by decide)
  | pair _ _ => exact absurd hname (by decide)
  | template h =>
      cases ho
      cases ht
      exact Template.isClosed_of_rewrite (plainBody_of_new? plain) h
  | bound h =>
      cases ho
      cases ht
      exact Template.isClosed_of_rewrite (plainBody_of_new? plain) h

theorem rewriteTemplate_eq_self {t : String} (hc : Template.isClosed t = true)
    (ho : ∀ r ∈ Template.placeholders t, symbols.owns r = false) : symbols.rewriteTemplate t = .ok t :=
  Template.rewrite_eq_self hc fun r hr => by rw [ho r hr]; rfl

/-- A call without references of the family stays as it is, if its template is closed. -/
theorem rewriteCall_eq_self {name : String} {arg : Node}
    (ho : ∀ r ∈ Call.references name arg, symbols.owns r = false)
    (hc : name = Call.sub → ∀ t, Call.template? arg = some t → Template.isClosed t = true) :
    symbols.rewriteCall name arg = .ok (.call name arg) := by
  unfold rewriteCall
  split
  · rename_i hr
    subst hr
    split
    · rw [if_neg (by simpa using ho _ List.mem_cons_self)]
    · rfl
  · split
    · rename_i hg
      subst hg
      split
      · rw [if_neg (by simpa using ho _ List.mem_cons_self)]
      · rw [if_neg (by simpa using ho _ List.mem_cons_self)]
      · rfl
    · split
      · rename_i hs
        subst hs
        split
        · rw [rewriteTemplate_eq_self (hc rfl _ rfl) ho]
          rfl
        · rw [rewriteTemplate_eq_self (hc rfl _ rfl) ho]
          rfl
        · rfl
      · rfl

end SymbolTable
end Shorthand
