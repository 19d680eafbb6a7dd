import Mathlib.Order.Bounds.Basic
import Shorthand.Api.Registry
import Shorthand.Fragment
import Shorthand.Import
import Shorthand.Pipeline.Namespaces
import Shorthand.Proofs.Naming

/-!
# Searches that end

Ids, namespaces, parameters and imports get their names by loops that try one candidate after another and have no
bound. The candidates of a loop differ, so each round but the last uses up one of the names taken: every loop ends,
with the first of its candidates that is free.
-/
namespace Shorthand

namespace Naming

section
variable {σ : Type} {taken : List String} {name : σ → String} {next : σ → σ}

/-- A loop that goes on from one candidate to the next while they are taken, and the number of its rounds. -/
inductive Search (taken : List String) (name : σ → String) (next : σ → σ) : σ → Nat → σ → Prop
  | found {s : σ} (h : name s ∉ taken) : Search taken name next s 1 s
  | passed {s s' : σ} {rounds : Nat} (h : name s ∈ taken) (hs : Search taken name next (next s) rounds s') :
      Search taken name next s (rounds + 1) s'

theorem Search.unique {s s₁ s₂ : σ} {m n : Nat} (h : Search taken name next s m s₁)
    (h' : Search taken name next s n s₂) : m = n ∧ s₁ = s₂ := by
  induction h generalizing n with
  | found hfree =>
      cases h' with
      | found _ => exact ⟨rfl, rfl⟩
      | passed htaken _ => exact absurd htaken hfree
  | passed htaken _ ih =>
      cases h' with
      | found hfree => exact absurd htaken hfree
      | passed _ hs =>
          obtain ⟨rfl, rfl⟩ := ih hs
          exact ⟨rfl, rfl⟩

/-- The loop ends, and when it does it has this name, which is free, and has made at most one more round than there
are names taken. -/
structure Finds (taken : List String) (name : σ → String) (next : σ → σ) (s : σ) (found : String) : Prop where
  free : found ∉ taken
  ends : ∃ rounds s', Search taken name next s rounds s'
  only : ∀ rounds s', Search taken name next s rounds s' → name s' = found ∧ rounds ≤ taken.toFinset.card + 1

theorem search_of_passed {state : Nat → σ} {n k : Nat} (hnext : ∀ m, n ≤ m → next (state m) = state (m + 1))
    (htaken : ∀ i < k, name (state (n + i)) ∈ taken) (hfree : name (state (n + k)) ∉ taken) :
    Search taken name next (state n) (k + 1) (state (n + k)) := by
  -- by the number of candidates passed over, from wherever the loop stands
  induction k generalizing n with
  | zero => exact .found hfree
  | succ k ih =>
      have hshift : ∀ i, n + 1 + i = n + (i + 1) := fun i => by omega
      have hrest : Search taken name next (state (n + 1)) (k + 1) (state (n + 1 + k)) := by
        refine ih (fun m hm => hnext m (Nat.le_of_succ_le hm)) (fun i hi => ?_) (by rwa [hshift])
        rw [hshift]
        exact htaken (i + 1) (Nat.succ_lt_succ hi)
      rw [hshift, ← hnext n (Nat.le_refl n)] at hrest
      exact .passed (htaken 0 (Nat.zero_lt_succ k)) hrest

/-- A series of candidates, from a number on: a loop goes from each to the next, and their names differ. -/
structure Series (name : σ → String) (next : σ → σ) (state : Nat → σ) (start : Nat) : Prop where
  next : ∀ n, start ≤ n → next (state n) = state (n + 1)
  injOn : ∀ m n, start ≤ m → start ≤ n → name (state m) = name (state n) → m = n

namespace Series
variable {state : Nat → σ} {start : Nat}

/-- The bounded search finds the least number whose name is free. -/
theorem isLeast_free (h : Series name next state start) (taken : List String) :
    IsLeast {n | start ≤ n ∧ name (state n) ∉ taken} (free taken (fun n => name (state n)) start) := by
  obtain ⟨k, he, hall, hfree⟩ := exists_free h.injOn taken
  rw [he]
  refine ⟨⟨Nat.le_add_right start k, hfree⟩, fun n ⟨hn, hnfree⟩ => ?_⟩
  by_contra hlt
  have hpassed := hall (n - start) (by omega)
  rw [Nat.add_sub_of_le hn] at hpassed
  exact hnfree hpassed

/-- The loop finds the same name as the bounded search. -/
theorem finds_free (h : Series name next state start) (taken : List String) :
    Finds taken name next (state start) (name (state (free taken (fun n => name (state n)) start))) := by
  obtain ⟨k, he, hall, hfree⟩ := exists_free h.injOn taken
  have hrun : Search taken name next (state start) (k + 1) (state (start + k)) :=
    search_of_passed h.next hall hfree
  rw [he]
  refine ⟨hfree, ⟨_, _, hrun⟩, fun rounds s' hs => ?_⟩
  obtain ⟨rfl, rfl⟩ := hrun.unique hs
  exact ⟨rfl, Nat.succ_le_succ (le_card_of_passed h.injOn hall)⟩

end Series
end

/-! ## The candidates -/

theorem underscored_succ (base : String) (n : Nat) : underscored base (n + 1) = (underscored base n).push '_' := by
  apply String.toList_injective
  simp [underscored, List.replicate_succ']

/-- The base with the fewest underscores that make it free. -/
def LeastUnderscored (taken : List String) (base found : String) : Prop :=
  ∃ n, IsLeast {n | underscored base n ∉ taken} n ∧ found = underscored base n

theorem series_underscored (base : String) : Series (fun id => id) (·.push '_') (underscored base) 0 where
  next n _ := (underscored_succ base n).symm
  injOn _ _ _ _ he := underscored_injective base he

/-- The next candidate, and the number of the one after it. -/
def hyphenate (base : String) (s : String × Nat) : String × Nat := (s!"{base}-{s.2}", s.2 + 1)

/-- The base if it is free, and otherwise the base with the least number from two on that makes it so. -/
def LeastHyphenated (taken : List String) (base found : String) : Prop :=
  base ∉ taken ∧ found = base ∨
    base ∈ taken ∧ ∃ n, IsLeast {n : Nat | 2 ≤ n ∧ s!"{base}-{n}" ∉ taken} n ∧ found = s!"{base}-{n}"

theorem hyphenated_of_lt (base : String) {n : Nat} (h : 1 < n) : hyphenated base n = s!"{base}-{n}" :=
  if_neg (Nat.not_le.mpr h)

theorem series_hyphenated (base : String) :
    Series Prod.fst (hyphenate base) (fun n => (hyphenated base n, n + 1)) 1 where
  next n hn := by rw [hyphenate, hyphenated_of_lt base (Nat.lt_succ_of_le hn)]
  injOn := hyphenated_injOn base

theorem series_numbered (lead : String) (start : Nat) : Series (numbered lead) (· + 1) (fun n => n) start where
  next _ _ := rfl
  injOn _ _ _ _ he := numbered_injective lead he

end Naming

/-! ## The loops -/

open Naming

namespace Api.Registry

theorem finds_claim (r : Registry) (base : String) :
    Finds r.usedIds (fun id => id) (·.push '_') base (r.claim base).1 := by
  have h := (series_underscored base).finds_free r.usedIds
  rwa [underscored_zero] at h

theorem least_claim (r : Registry) (base : String) : LeastUnderscored r.usedIds base (r.claim base).1 := by
  have h := (series_underscored base).isLeast_free r.usedIds
  simp only [Nat.zero_le, true_and] at h
  exact ⟨_, h, rfl⟩

end Api.Registry

namespace Pipeline.Namespaces
variable {ns : Namespaces} {id : ActionId}

theorem ensure_of_get?_eq_none (h : ns.get? id = none) (stage action : String) :
    (ns.ensure id stage action).1 =
      hyphenated (derive stage action) (free ns.issued (hyphenated (derive stage action)) 1) := by
  rw [ensure, h]

theorem finds_ensure (h : ns.get? id = none) (stage action : String) :
    Finds ns.issued Prod.fst (hyphenate (derive stage action)) (derive stage action, 2)
      (ns.ensure id stage action).1 := by
  rw [ensure_of_get?_eq_none h]
  exact (series_hyphenated (derive stage action)).finds_free ns.issued

theorem least_ensure (h : ns.get? id = none) (stage action : String) :
    LeastHyphenated ns.issued (derive stage action) (ns.ensure id stage action).1 := by
  rw [ensure_of_get?_eq_none h]
  generalize derive stage action = base
  have hone : hyphenated base 1 = base := if_pos (Nat.le_refl 1)
  by_cases hbase : base ∈ ns.issued
  · -- the first number of the series stands for the base alone, so the loop goes on to the next
    have hleast : IsLeast {n | 1 ≤ n ∧ hyphenated base n ∉ ns.issued} (free ns.issued (hyphenated base) 1) :=
      (series_hyphenated base).isLeast_free ns.issued
    generalize free ns.issued (hyphenated base) 1 = n at hleast
    obtain ⟨⟨hle, hfree⟩, hbelow⟩ := hleast
    have hlt : 1 < n := by
      refine Nat.lt_of_le_of_ne hle ?_
      rintro rfl
      exact hfree (hone ▸ hbase)
    rw [hyphenated_of_lt base hlt] at hfree ⊢
    refine .inr ⟨hbase, n, ⟨⟨hlt, hfree⟩, fun m ⟨hm, hmfree⟩ => hbelow ⟨Nat.le_of_succ_le hm, ?_⟩⟩, rfl⟩
    rwa [hyphenated_of_lt base hm]
  · refine .inl ⟨hbase, ?_⟩
    rw [free_eq_start (by rwa [hone]), hone]

end Pipeline.Namespaces

theorem Fragment.Compiler.freshName_search (c : Compiler) (avoid : List String) :
    ∃ n, c.freshName avoid = (nameOf n, { c with issued := n }) ∧
      IsLeast {n | c.issued < n ∧ nameOf n ∉ Table.keys c.bindings ++ avoid} n ∧
      Finds (Table.keys c.bindings ++ avoid) nameOf (· + 1) (c.issued + 1) (nameOf n) := by
  have h := series_numbered "param" (c.issued + 1)
  exact ⟨_, rfl, h.isLeast_free _, h.finds_free _⟩

theorem Import.Imports.visit_search (bound : List String) {body exported : String} {imports : Imports}
    (he : exported? body = some exported) (hf : imports.find? exported = none) :
    ∃ n, visit bound body imports = (.ok (some (nameOf n)), ⟨n, imports.names ++ [(nameOf n, exported)]⟩) ∧
      IsLeast {n | imports.issued < n ∧ nameOf n ∉ bound} n ∧
      Finds bound nameOf (· + 1) (imports.issued + 1) (nameOf n) := by
  have h := series_numbered "Import" (imports.issued + 1)
  refine ⟨_, ?_, h.isLeast_free _, h.finds_free _⟩
  rw [visit, he]
  simp only [hf]
  rfl

namespace Naming

/-- Whatever names are taken, each of the four loops ends with one that is free, and that is the first of its
candidates: an id has the fewest underscores, and a namespace, a parameter and an import have the least number. -/
theorem searches_end :
    (∀ (r : Api.Registry) (base : String),
      Finds r.usedIds (fun id => id) (·.push '_') base (r.claim base).1 ∧
        LeastUnderscored r.usedIds base (r.claim base).1) ∧
    (∀ (ns : Pipeline.Namespaces) (id : Pipeline.ActionId) (stage action : String), ns.get? id = none →
      Finds ns.issued Prod.fst (hyphenate (Pipeline.Namespaces.derive stage action))
          (Pipeline.Namespaces.derive stage action, 2) (ns.ensure id stage action).1 ∧
        LeastHyphenated ns.issued (Pipeline.Namespaces.derive stage action) (ns.ensure id stage action).1) ∧
    (∀ (c : Fragment.Compiler) (avoid : List String),
      ∃ n, c.freshName avoid = (Fragment.Compiler.nameOf n, { c with issued := n }) ∧
        IsLeast {n | c.issued < n ∧ Fragment.Compiler.nameOf n ∉ Table.keys c.bindings ++ avoid} n ∧
        Finds (Table.keys c.bindings ++ avoid) Fragment.Compiler.nameOf (· + 1) (c.issued + 1)
          (Fragment.Compiler.nameOf n)) ∧
    ∀ (bound : List String) (body exported : String) (imports : Import.Imports),
      Import.exported? body = some exported → imports.find? exported = none →
      ∃ n, imports.visit bound body =
          (.ok (some (Import.nameOf n)), ⟨n, imports.names ++ [(Import.nameOf n, exported)]⟩) ∧
        IsLeast {n | imports.issued < n ∧ Import.nameOf n ∉ bound} n ∧
        Finds bound Import.nameOf (· + 1) (imports.issued + 1) (Import.nameOf n) :=
  ⟨fun r base => ⟨r.finds_claim base, r.least_claim base⟩,
    fun ns _ stage action h => ⟨ns.finds_ensure h stage action, ns.least_ensure h stage action⟩,
    fun c avoid => c.freshName_search avoid,
    fun bound _ _ _ he hf => Import.Imports.visit_search bound he hf⟩

/-- The first candidates are taken, and one after the first that is free. -/
def crowdedIds : Api.Registry := { api := "Api", usedIds := ["Api", "Api_", "ApiModel", "Api___"] }

def crowdedNamespaces : Pipeline.Namespaces :=
  { issued := ["build-test-2", "build-test", "build-test-4"], assigned := [(⟨0, 1⟩, "build-test")] }

def crowdedCompiler : Fragment.Compiler := { issued := 1, bindings := [("param2", .null), ("param5", .null)] }

theorem searches_end_crowded :
    (Finds crowdedIds.usedIds (fun id => id) (·.push '_') "Api" "Api__" ∧
      LeastUnderscored crowdedIds.usedIds "Api" "Api__") ∧
    crowdedNamespaces.get? ⟨0, 0⟩ = none ∧
    (Finds crowdedNamespaces.issued Prod.fst (hyphenate "build-test") ("build-test", 2) "build-test-3" ∧
      LeastHyphenated crowdedNamespaces.issued "build-test" "build-test-3") ∧
    Finds ["param2", "param5", "param3"] Fragment.Compiler.nameOf (· + 1) 2 "param4" ∧
    Import.exported? "Import:x" = some "x" ∧ ({} : Import.Imports).find? "x" = none ∧
    Finds ["Import1", "Import3"] Import.nameOf (· + 1) 1 "Import2" := by
  obtain ⟨hclaim, hensure, hfresh, hvisit⟩ := searches_end
  have hid : (crowdedIds.claim "Api").1 = "Api__" := by decide
  have hnone : crowdedNamespaces.get? ⟨0, 0⟩ = none := rfl
  have hbase : Pipeline.Namespaces.derive "Build" "Test" = "build-test" := by decide
  have hname : (crowdedNamespaces.ensure ⟨0, 0⟩ "Build" "Test").1 = "build-test-3" := by decide
  have hexported : Import.exported? "Import:x" = some "x" := by decide
  obtain ⟨m, hfreshName, -, hparameter⟩ := hfresh crowdedCompiler ["param3"]
  obtain ⟨n, hvisited, -, himport⟩ := hvisit ["Import1", "Import3"] "Import:x" "x" {} hexported rfl
  have hm : Fragment.Compiler.nameOf m = "param4" := (congrArg Prod.fst hfreshName).symm.trans (by decide)
  have hn : Import.nameOf n = "Import2" :=
    Option.some.inj (Except.ok.inj ((congrArg Prod.fst hvisited).symm.trans (by rfl)))
  refine ⟨hid ▸ hclaim crowdedIds "Api", hnone, ?_, hm ▸ hparameter, hexported, rfl, hn ▸ himport⟩
  exact hbase ▸ hname ▸ hensure crowdedNamespaces ⟨0, 0⟩ "Build" "Test" hnone

end Naming

end Shorthand
