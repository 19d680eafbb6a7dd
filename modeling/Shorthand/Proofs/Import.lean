import Shorthand.Import
import Shorthand.Proofs.Naming
import Shorthand.Proofs.Reference

/-!
# Imports in a substitution

What the binding of imports makes of a substitution: its template keeps the placeholders that import
nothing, and has made-up names for the others.
-/
namespace Shorthand.Import

theorem nameOf_toList (n : Nat) : (nameOf n).toList = "Import".toList ++ Nat.toDigits 10 n :=
  Naming.toList_numbered "Import" n

theorem isAlphanum_of_mem_nameOf {n : Nat} {c : Char} (h : c ∈ (nameOf n).toList) :
    c.isAlphanum = true := by
  rw [nameOf_toList, List.mem_append] at h
  rcases h with h | h
  · have hall : ∀ c ∈ "Import".toList, c.isAlphanum = true := List.all_eq_true.mp rfl
    exact hall c h
  · have := Nat.isDigit_of_mem_toDigits (by decide) (by decide) h
    simp [Char.isAlphanum, this]

theorem isId_nameOf (n : Nat) : IsId (nameOf n) := by
  refine ⟨?_, fun c hc => by simp [isIdChar, isAlphanum_of_mem_nameOf hc]⟩
  intro h
  have := congrArg String.toList h
  simp [nameOf_toList] at this

theorem plainBody_nameOf (n : Nat) : Template.PlainBody (nameOf n).toList := by
  have : (⟨nameOf n, none⟩ : Target).Plain := ⟨isId_nameOf n, fun a h => by simp at h⟩
  exact this.plainBody

/-! ## The names given out -/

/-- All names given out are made up. -/
def Imports.MadeUp (imports : Imports) : Prop := ∀ e ∈ imports.names, ∃ n, e.1 = nameOf n

theorem Imports.MadeUp.find? {imports : Imports} (h : imports.MadeUp) {e name : String}
    (hf : imports.find? e = some name) : ∃ n, name = nameOf n := by
  obtain ⟨p, hp, rfl⟩ := Option.map_eq_some_iff.mp hf
  exact h p (List.mem_of_find?_eq_some hp)

/-- All that a visit can do. -/
theorem visit_cases {bound : List String} {body : String} {s s' : Imports} {answer : Option String}
    (hs : s.MadeUp) (h : Imports.visit bound body s = (.ok answer, s')) :
    (exported? body = none ∧ answer = none ∧ s' = s) ∨
      (∃ n, answer = some (nameOf n)) ∧ s'.MadeUp ∧ s'.names ≠ [] := by
  rw [Imports.visit] at h
  split at h
  · rename_i he
    simp only [Prod.mk.injEq, Except.ok.injEq] at h
    obtain ⟨rfl, rfl⟩ := h
    exact Or.inl ⟨he, rfl, rfl⟩
  · rename_i e he
    refine Or.inr ?_
    split at h
    · rename_i name hf
      simp only [Prod.mk.injEq, Except.ok.injEq] at h
      obtain ⟨rfl, rfl⟩ := h
      obtain ⟨n, rfl⟩ := hs.find? hf
      refine ⟨⟨n, rfl⟩, hs, ?_⟩
      intro hn
      simp [Imports.find?, hn] at hf
    · simp only [Prod.mk.injEq, Except.ok.injEq] at h
      obtain ⟨rfl, rfl⟩ := h
      refine ⟨⟨_, rfl⟩, ?_, by simp⟩
      intro p hp
      rcases List.mem_append.mp hp with hp | hp
      · exact hs p hp
      · rw [List.mem_singleton.mp hp]
        exact ⟨_, rfl⟩

theorem careful_visit (bound : List String) :
    Template.Careful (Imports.visit bound) Imports.MadeUp where
  keeps hs h := by
    rcases visit_cases hs h with ⟨_, _, rfl⟩ | ⟨_, hs', _⟩
    · exact hs
    · exact hs'
  plain hs h := by
    rcases visit_cases hs h with ⟨_, hn, _⟩ | ⟨⟨n, hn⟩, _, _⟩
    · simp at hn
    · obtain rfl := Option.some.inj hn
      exact plainBody_nameOf n

/-- A placeholder after a run over `olds`: an old one that imports nothing, or a made-up name. -/
def Bound (olds : List String) (r : String) : Prop :=
  (r ∈ olds ∧ exported? r = none) ∨ ∃ n, r = nameOf n

theorem madeUp_of_visits {bound olds news : List String} {s s' : Imports}
    (h : Template.Visits (Imports.visit bound) olds s news s') (hs : s.MadeUp) : s'.MadeUp := by
  induction h with
  | nil => exact hs
  | cons ha _ ih => exact ih ((careful_visit bound).keeps hs ha)

theorem visits_spec {bound olds news : List String} {s s' : Imports}
    (h : Template.Visits (Imports.visit bound) olds s news s') (hs : s.MadeUp) :
    (∀ r ∈ news, Bound olds r) ∧ (s'.names = [] → s.names = [] ∧ ∀ r ∈ olds, exported? r = none) := by
  induction h with
  | nil => exact ⟨fun _ h => absurd h List.not_mem_nil, fun h => ⟨h, fun _ h => absurd h List.not_mem_nil⟩⟩
  | @cons body answer olds news s s₁ s₂ ha _ ih =>
      obtain ⟨ihn, ihe⟩ := ih ((careful_visit bound).keeps hs ha)
      have old : ∀ r ∈ news, Bound (body :: olds) r := fun r hr =>
        (ihn r hr).imp_left fun ho => ⟨List.mem_cons_of_mem _ ho.1, ho.2⟩
      rcases visit_cases hs ha with ⟨he, rfl, rfl⟩ | ⟨⟨n, rfl⟩, _, hne⟩
      · refine ⟨?_, fun hnil => ⟨(ihe hnil).1, ?_⟩⟩
        · intro r hr
          rcases List.mem_cons.mp hr with rfl | hr
          · exact Or.inl ⟨List.mem_cons_self, he⟩
          · exact old r hr
        · intro r hr
          rcases List.mem_cons.mp hr with rfl | hr
          · exact he
          · exact (ihe hnil).2 r hr
      · refine ⟨?_, fun hnil => absurd (ihe hnil).1 hne⟩
        intro r hr
        rcases List.mem_cons.mp hr with rfl | hr
        · exact Or.inr ⟨n, rfl⟩
        · exact old r hr

/-! ## The substitution afterwards -/

/-- All that the binding of imports can make of a substitution. -/
inductive Expands (name : String) : Node → Node → Prop
  | other {arg : Node} (h : parts? arg = none) : Expands name arg (.call name arg)
  | free {arg : Node} {template : String} {bindings : Table Node}
      (h : parts? arg = some (template, bindings))
      (hn : ∀ r ∈ Template.placeholders template, exported? r = none) :
      Expands name arg (.call name
        (if bindings.isEmpty then .text template else .list [.text template, .map bindings]))
  | bound {arg : Node} {template rewritten : String} {bindings : Table Node}
      {imports : Imports} (h : parts? arg = some (template, bindings)) (hm : imports.MadeUp)
      (hne : imports.names ≠ [])
      (hn : ∀ r ∈ Template.placeholders rewritten, Bound (Template.placeholders template) r)
      (hc : Template.isClosed rewritten = true) :
      Expands name arg (.call name (.list [.text rewritten, .map (Table.putAll bindings
        (imports.names.map fun (n, e) => (n, Node.call Call.importValue (.text e))))]))

theorem expands_of_expand {name : String} {arg out : Node} (h : expand name arg = .ok out) :
    Expands name arg out := by
  rw [expand] at h
  split at h
  · rename_i hp
    simp only [Except.ok.injEq] at h
    exact h ▸ .other hp
  · rename_i template bindings hp
    split at h
    · simp at h
    · rename_i rewritten imports hr
      have hs : ({} : Imports).MadeUp := fun e he => absurd he List.not_mem_nil
      have hv := Template.visits_of_rewriteWith (careful_visit _) hs hr
      obtain ⟨hnews, hnone⟩ := visits_spec hv hs
      split at h
      · rename_i hi
        simp only [Except.ok.injEq] at h
        exact h ▸ .free hp (hnone (List.isEmpty_iff.mp hi)).2
      · rename_i hi
        simp only [Except.ok.injEq] at h
        exact h ▸ .bound hp (madeUp_of_visits hv hs) (by simpa using hi) hnews
          (Template.isClosed_of_rewriteWith (careful_visit _) hs hr)

theorem parts?_eq_some {arg : Node} {template : String} {bindings : Table Node}
    (h : parts? arg = some (template, bindings)) :
    (arg = .text template ∧ bindings = []) ∨ arg = .list [.text template, .map bindings] := by
  unfold parts? at h
  split at h
  · simp only [Option.some.injEq, Prod.mk.injEq] at h
    obtain ⟨rfl, rfl⟩ := h
    exact Or.inl ⟨rfl, rfl⟩
  · simp only [Option.some.injEq, Prod.mk.injEq] at h
    obtain ⟨rfl, rfl⟩ := h
    exact Or.inr rfl
  · simp at h

theorem Expands.isCall {name : String} {arg out : Node} (h : Expands name arg out) :
    ∃ arg', out = .call name arg' := by
  cases h <;> exact ⟨_, rfl⟩

theorem template?_of_parts? {arg : Node} {template : String} {bindings : Table Node}
    (h : parts? arg = some (template, bindings)) : Call.template? arg = some template := by
  rcases parts?_eq_some h with ⟨rfl, _⟩ | rfl <;> rfl

theorem references_of_parts? {arg : Node} {template : String} {bindings : Table Node}
    (h : parts? arg = some (template, bindings)) :
    Call.references Call.sub arg = Template.placeholders template :=
  Call.references_of_template? (template?_of_parts? h)

/-- The binding of imports brings no reference but made-up names. -/
theorem Expands.references {arg out : Node} (h : Expands Call.sub arg out) {r : String}
    (hr : r ∈ out.references) : r ∈ Call.references Call.sub arg ∨ ∃ n, r = nameOf n := by
  cases h with
  | other _ => exact Or.inl hr
  | @free template bindings hp _ =>
      rw [references_of_parts? hp]
      rw [Node.references_call] at hr
      split at hr
      · exact Or.inl hr
      · exact Or.inl hr
  | bound hp _ _ hn =>
      rw [references_of_parts? hp]
      exact (hn r hr).imp_left And.left

/-- A substitution that imports nothing stays as it is, if its template is closed and it has no empty
bindings. -/
theorem expand_eq_self {name : String} {arg : Node} (hc : ∀ t bindings, parts? arg = some (t, bindings) →
      Template.isClosed t = true ∧ ∀ r ∈ Template.placeholders t, exported? r = none)
    (hb : ∀ t, arg ≠ .list [.text t, .map []]) : expand name arg = .ok (.call name arg) := by
  rw [expand]
  split
  · rfl
  · rename_i template bindings hp
    obtain ⟨hclosed, hnone⟩ := hc template bindings hp
    rw [Template.rewriteWith_eq_self hclosed fun r hr => by rw [Imports.visit, hnone r hr]]
    rcases parts?_eq_some hp with ⟨rfl, rfl⟩ | rfl
    · rfl
    · have hne : bindings ≠ [] := fun he => hb template (he ▸ rfl)
      simp only [List.isEmpty_nil, ↓reduceIte, List.isEmpty_eq_false_iff.mpr hne, Bool.false_eq_true]

end Shorthand.Import
