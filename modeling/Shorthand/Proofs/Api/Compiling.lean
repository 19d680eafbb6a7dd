import Shorthand.Proofs.Api.Builder
import Shorthand.Proofs.Fragment.Splice

/-!
# Structures compiled one after another

All structures of a declaration are compiled by one compiler, and what passes from one to the next is only the
number of names made up so far. It never gets smaller.
-/
namespace Shorthand

/-! ## One fragment -/

namespace Fragment.Compiler
variable {c : Compiler}

theorem issued_le_bindWhole (c : Compiler) (whole : Node) : c.issued ≤ (c.bindWhole whole).2.issued := by
  obtain ⟨n, hf, hlt, -, -⟩ := c.freshName_spec []
  rw [bindWhole, hf]
  exact Nat.le_of_lt hlt

theorem issued_le_merge (c : Compiler) (template : String) (own : Table Node) (whole : Node) :
    c.issued ≤ (c.merge template own whole).2.issued := by
  obtain ⟨-, -, hn, -⟩ := c.renamings_spec (Table.keys own) own
  rw [merge_eq]
  split
  · exact Nat.le_trans hn.le (issued_le_bindWhole _ whole)
  · exact hn.le

theorem issued_le_splice (c : Compiler) (name : String) (arg whole : Node) :
    c.issued ≤ (c.splice name arg whole).2.issued := by
  have hb := c.issued_le_bindWhole whole
  unfold splice
  split
  · split <;> simp [hb]
  · split
    · split <;> simp [hb]
    · split
      · split <;> simp [hb, issued_le_merge]
      · split
        · split <;> simp [hb]
        · split <;> simp [hb]

mutual
theorem issued_le_walk (c : Compiler) (node : Node) : c.issued ≤ (c.walk node).2.issued := by
  match node with
  | .map [(name, arg)] =>
      rw [walk]
      split
      · exact c.issued_le_splice name arg _
      · exact issued_le_walk c arg
  | .map [] => exact Nat.le_refl _
  | .map (e :: e' :: entries) =>
      rw [walk]
      · exact issued_le_walkEntries c _
      · simp
  | .list items =>
      rw [walk]
      exact issued_le_walkItems c items
  | .text _ | .null | .bool _ | .number _ => exact Nat.le_refl _

theorem issued_le_walkItems (c : Compiler) (items : List Node) : c.issued ≤ (c.walkItems items).2.issued := by
  match items with
  | [] => exact Nat.le_refl _
  | item :: items =>
      rw [walkItems]
      exact Nat.le_trans (issued_le_walk c item) (issued_le_walkItems _ items)

theorem issued_le_walkEntries (c : Compiler) (entries : List (String × Node)) :
    c.issued ≤ (c.walkEntries entries).2.issued := by
  match entries with
  | [] => exact Nat.le_refl _
  | (_, value) :: entries =>
      rw [walkEntries]
      exact Nat.le_trans (issued_le_walk c value) (issued_le_walkEntries _ entries)
end

theorem issued_le_compile (c : Compiler) (node : Node) : c.issued ≤ (c.compile node).2.issued := by
  unfold compile
  simp only
  split
  · exact issued_le_walk { c with bindings := [] } node
  · exact Nat.le_refl _

/-- A fragment begins with no bindings. -/
theorem compile_congr {c c' : Compiler} (h : c.issued = c'.issued) (node : Node) :
    c.compile node = c'.compile node := by
  simp only [compile, h]

end Fragment.Compiler

/-! ## The fragments of a declaration -/

namespace Api.Builder

/-- How many names were made up so far. -/
def issued (b : Builder) : Nat := b.compiler.issued

/-- A compilation of whatever kind: what comes of it, and how many names it makes up, depends on the number of
names made up before and on nothing else of the work. -/
structure Resumes {α : Type} (f : Builder → α → α × Builder) : Prop where
  same : ∀ {b c : Builder} (a : α), b.issued = c.issued →
    (f b a).1 = (f c a).1 ∧ (f b a).2.issued = (f c a).2.issued
  le : ∀ (b : Builder) (a : α), b.issued ≤ (f b a).2.issued

theorem resumes_compile : Resumes compile where
  same node h := by
    unfold compile
    split
    · exact ⟨rfl, h⟩
    · have hc := Fragment.Compiler.compile_congr h node
      exact ⟨by rw [hc], congrArg (fun out => out.2.issued) hc⟩
  le b node := by
    unfold compile
    split
    · exact Nat.le_refl _
    · exact b.compiler.issued_le_compile node

theorem resumes_compileAt {f : Builder → Node → Node × Builder} (hf : Resumes f) (key : String) :
    Resumes fun b props => compileAt f b props key where
  same {b c} props h := by
    unfold compileAt
    split
    · exact ⟨rfl, h⟩
    · rename_i node _
      obtain ⟨hnode, hissued⟩ := hf.same node h
      exact ⟨congrArg (Table.put props key) hnode, hissued⟩
  le b props := by
    simp only [compileAt]
    split
    · exact Nat.le_refl _
    · exact hf.le b _

theorem resumes_compileTemplates : Resumes compileTemplates where
  same {b c} templates h := by
    induction templates generalizing b c with
    | nil => exact ⟨rfl, h⟩
    | cons t templates ih =>
        obtain ⟨hnode, hissued⟩ := resumes_compile.same t.2 h
        obtain ⟨hrest, hend⟩ := ih hissued
        exact ⟨congrArg₂ (fun node rest => (t.1, node) :: rest) hnode hrest, hend⟩
  le b templates := by
    induction templates generalizing b with
    | nil => exact Nat.le_refl _
    | cons t templates ih => exact Nat.le_trans (resumes_compile.le b t.2) (ih _)

theorem resumes_compileTemplateMap : Resumes compileTemplateMap where
  same node h := by
    unfold compileTemplateMap
    split
    · rename_i templates
      obtain ⟨htemplates, hissued⟩ := resumes_compileTemplates.same templates h
      exact ⟨congrArg Node.map htemplates, hissued⟩
    · exact ⟨rfl, h⟩
  le b node := by
    unfold compileTemplateMap
    split
    · exact resumes_compileTemplates.le b _
    · exact Nat.le_refl _

theorem resumes_compileResponses : Resumes compileResponses where
  same {b c} responses h := by
    induction responses generalizing b c with
    | nil => exact ⟨rfl, h⟩
    | cons response responses ih =>
        cases response with
        | map response =>
            obtain ⟨hnode, hissued⟩ :=
              (resumes_compileAt resumes_compileTemplateMap "ResponseTemplates").same response h
            obtain ⟨hrest, hend⟩ := ih hissued
            exact ⟨congrArg₂ (fun response rest => Node.map response :: rest) hnode hrest, hend⟩
        | _ =>
            obtain ⟨hrest, hend⟩ := ih h
            exact ⟨congrArg (_ :: ·) hrest, hend⟩
  le b responses := by
    induction responses generalizing b with
    | nil => exact Nat.le_refl _
    | cons response responses ih =>
        cases response with
        | map response =>
            exact Nat.le_trans ((resumes_compileAt resumes_compileTemplateMap "ResponseTemplates").le b response)
              (ih _)
        | _ => exact ih b

theorem resumes_compileResponseList : Resumes compileResponseList where
  same node h := by
    unfold compileResponseList
    split
    · rename_i responses
      obtain ⟨hresponses, hissued⟩ := resumes_compileResponses.same responses h
      exact ⟨congrArg Node.list hresponses, hissued⟩
    · exact ⟨rfl, h⟩
  le b node := by
    unfold compileResponseList
    split
    · exact resumes_compileResponses.le b _
    · exact Nat.le_refl _

theorem resumes_compileIntegration : Resumes compileIntegration where
  same node h := by
    unfold compileIntegration
    split
    · rename_i integration
      obtain ⟨hrequests, hissued⟩ :=
        (resumes_compileAt resumes_compileTemplateMap "RequestTemplates").same integration h
      obtain ⟨hresponses, hend⟩ := (resumes_compileAt resumes_compileResponseList "IntegrationResponses").same
        (compileAt compileTemplateMap _ integration "RequestTemplates").1 hissued
      simp only [← hrequests]
      exact ⟨by rw [hresponses], hend⟩
    · exact ⟨rfl, h⟩
  le b node := by
    unfold compileIntegration
    split
    · exact Nat.le_trans ((resumes_compileAt resumes_compileTemplateMap "RequestTemplates").le b _)
        ((resumes_compileAt resumes_compileResponseList "IntegrationResponses").le _ _)
    · exact Nat.le_refl _

end Api.Builder
end Shorthand
