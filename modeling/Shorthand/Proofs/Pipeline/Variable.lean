import Shorthand.Pipeline.Action
import Shorthand.Pipeline.Variable
import Shorthand.Proofs.Outcome

/-!
# Stage variables of a tree

Rewriting a tree visits the stage variables of its texts, one after another: it succeeds if and only if all
visits do, and the state after it is that after the last visit.
-/
namespace Shorthand

/-! ## Texts and their variables -/

namespace Node

mutual
/-- The texts of a tree, but not its keys. -/
def texts : Node → List String
  | text s => [s]
  | list items => textsOfItems items
  | map entries => textsOfEntries entries
  | _ => []

def textsOfItems : List Node → List String
  | [] => []
  | item :: items => texts item ++ textsOfItems items

def textsOfEntries : List (String × Node) → List String
  | [] => []
  | (_, value) :: entries => texts value ++ textsOfEntries entries
end

end Node

namespace Pipeline
open StageVariable

/-- The stage variables in some texts, in order. -/
def variablesIn (texts : List String) : List StageVariable := texts.flatMap occurrences

@[simp] theorem variablesIn_append (as bs : List String) :
    variablesIn (as ++ bs) = variablesIn as ++ variablesIn bs := List.flatMap_append

/-- The stage variables that an action reads. -/
def Action.variables (a : Action) : List StageVariable :=
  variablesIn (Node.textsOfEntries a.configuration) ++
    a.overrides.elim [] fun node => variablesIn node.texts

/-! ## Visits -/

namespace StageVariable
variable {σ : Type} {visit : StageVariable → σ → Except Error String × σ}

/-- All visits succeed, each in the state that the one before it left. -/
inductive Runs (visit : StageVariable → σ → Except Error String × σ) : List StageVariable → σ → σ → Prop
  | nil (s : σ) : Runs visit [] s s
  | cons {v : StageVariable} {vs : List StageVariable} {s s₁ s₂ : σ} {name : String}
      (h : visit v s = (.ok name, s₁)) (hr : Runs visit vs s₁ s₂) : Runs visit (v :: vs) s s₂

theorem runs_nil {s s' : σ} : Runs visit [] s s' ↔ s = s' := by
  constructor
  · intro h
    cases h
    rfl
  · rintro rfl
    exact .nil _

theorem runs_append {vs ws : List StageVariable} {s s' : σ} :
    Runs visit (vs ++ ws) s s' ↔ ∃ s₁, Runs visit vs s s₁ ∧ Runs visit ws s₁ s' := by
  induction vs generalizing s with
  | nil => simp [runs_nil]
  | cons v vs ih =>
      constructor
      · intro h
        cases h with
        | cons hv hr =>
            obtain ⟨s₁, h₁, h₂⟩ := ih.mp hr
            exact ⟨s₁, .cons hv h₁, h₂⟩
      · rintro ⟨s₁, h₁, h₂⟩
        cases h₁ with
        | cons hv hr => exact .cons hv (ih.mpr ⟨s₁, hr, h₂⟩)

theorem exists_runs {vs : List StageVariable}
    (h : ∀ v ∈ vs, ∀ s, ∃ name s', visit v s = (.ok name, s')) (s : σ) : ∃ s', Runs visit vs s s' := by
  induction vs generalizing s with
  | nil => exact ⟨s, .nil s⟩
  | cons v vs ih =>
      obtain ⟨name, s₁, hv⟩ := h v List.mem_cons_self s
      obtain ⟨s', hr⟩ := ih (fun w hw => h w (List.mem_cons_of_mem _ hw)) s₁
      exact ⟨s', .cons hv hr⟩

/-- The variable of a piece. -/
def Piece.variable? : Piece → Option StageVariable
  | .variable v => some v
  | .plain _ => none

theorem occurrences_eq (text : String) :
    occurrences text = (pieces text.toList).filterMap Piece.variable? := by
  unfold occurrences
  congr 1

theorem rewritePieces_eq_ok {ps : List Piece} {s s' : σ} :
    (∃ out, rewritePieces visit ps s = (.ok out, s')) ↔ Runs visit (ps.filterMap Piece.variable?) s s' := by
  induction ps generalizing s with
  | nil => simp [rewritePieces, runs_nil]
  | cons p ps ih =>
      match p with
      | .plain cs =>
          rw [List.filterMap_cons_none rfl, ← ih, rewritePieces]
          cases rewritePieces visit ps s with
          | mk r s₁ => cases r <;> simp
      | .variable v =>
          have hp : Piece.variable? (.variable v) = some v := rfl
          rw [List.filterMap_cons_some hp, rewritePieces]
          constructor
          · rintro ⟨out, h⟩
            split at h
            · cases h
            · rename_i name s₁ hv
              split at h
              · rename_i rest s₂ hr
                obtain ⟨_, rfl⟩ := Prod.mk.inj h
                exact .cons hv (ih.mp ⟨rest, hr⟩)
              · rename_i hf
                exact absurd h (hf _ _)
          · intro h
            cases h with
            | cons hv hr =>
                obtain ⟨rest, hrest⟩ := ih.mpr hr
                simp [hv, hrest]

theorem rewriteText_eq_ok {text : String} {s s' : σ} :
    (∃ out, rewriteText visit text s = (.ok out, s')) ↔ Runs visit (occurrences text) s s' := by
  rw [occurrences_eq, ← rewritePieces_eq_ok, rewriteText]
  cases rewritePieces visit (pieces text.toList) s with
  | mk r s₁ => cases r <;> simp

mutual
/-- A tree is rewritten if and only if the visits of its variables succeed. -/
theorem rewriteNode_eq_ok (n : Node) {s s' : σ} :
    (∃ out, rewriteNode visit n s = (.ok out, s')) ↔ Runs visit (variablesIn n.texts) s s' := by
  match n with
  | .text text =>
      rw [Node.texts, variablesIn, List.flatMap_singleton, ← rewriteText_eq_ok, rewriteNode]
      cases rewriteText visit text s with
      | mk r s₁ => cases r <;> simp
  | .list items =>
      rw [Node.texts, ← rewriteItems_eq_ok items, rewriteNode]
      cases rewriteItems visit items s with
      | mk r s₁ => cases r <;> simp
  | .map entries =>
      rw [Node.texts, ← rewriteEntries_eq_ok entries, rewriteNode]
      cases rewriteEntries visit entries s with
      | mk r s₁ => cases r <;> simp
  | .null | .bool _ | .number _ =>
      simp [Node.texts, variablesIn, runs_nil, rewriteNode]

theorem rewriteItems_eq_ok (items : List Node) {s s' : σ} :
    (∃ out, rewriteItems visit items s = (.ok out, s')) ↔
      Runs visit (variablesIn (Node.textsOfItems items)) s s' := by
  match items with
  | [] => simp [Node.textsOfItems, variablesIn, runs_nil, rewriteItems]
  | item :: items =>
      rw [Node.textsOfItems, variablesIn_append, runs_append, rewriteItems]
      constructor
      · rintro ⟨out, h⟩
        split at h
        · cases h
        · rename_i item' s₁ hi
          refine ⟨s₁, (rewriteNode_eq_ok item).mp ⟨_, hi⟩, (rewriteItems_eq_ok items).mp ?_⟩
          split at h
          · rename_i rest s₂ hr
            obtain ⟨_, rfl⟩ := Prod.mk.inj h
            exact ⟨rest, hr⟩
          · rename_i hf
            exact absurd h (hf _ _)
      · rintro ⟨s₁, h₁, h₂⟩
        obtain ⟨item', hi⟩ := (rewriteNode_eq_ok item).mpr h₁
        obtain ⟨rest, hr⟩ := (rewriteItems_eq_ok items).mpr h₂
        simp [hi, hr]

theorem rewriteEntries_eq_ok (entries : List (String × Node)) {s s' : σ} :
    (∃ out, rewriteEntries visit entries s = (.ok out, s')) ↔
      Runs visit (variablesIn (Node.textsOfEntries entries)) s s' := by
  match entries with
  | [] => simp [Node.textsOfEntries, variablesIn, runs_nil, rewriteEntries]
  | (key, value) :: entries =>
      rw [Node.textsOfEntries, variablesIn_append, runs_append, rewriteEntries]
      constructor
      · rintro ⟨out, h⟩
        split at h
        · cases h
        · rename_i value' s₁ hv
          refine ⟨s₁, (rewriteNode_eq_ok value).mp ⟨_, hv⟩, (rewriteEntries_eq_ok entries).mp ?_⟩
          split at h
          · rename_i rest s₂ hr
            obtain ⟨_, rfl⟩ := Prod.mk.inj h
            exact ⟨rest, hr⟩
          · rename_i hf
            exact absurd h (hf _ _)
      · rintro ⟨s₁, h₁, h₂⟩
        obtain ⟨value', hv⟩ := (rewriteNode_eq_ok value).mpr h₁
        obtain ⟨rest, hr⟩ := (rewriteEntries_eq_ok entries).mpr h₂
        simp [hv, hr]
end

end StageVariable
end Pipeline
end Shorthand
