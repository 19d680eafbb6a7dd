import Mathlib.Order.Bounds.Basic
import Shorthand.Proofs.Pipeline.Order

/-!
# Run orders and chains

Run orders have 64 bits. In a filled table they increase along every dependency, each is what the longest chain
from its position asks for, and so no chain asks for more than the largest one.
-/
namespace Shorthand.Pipeline

/-- One comes to another in so many steps. -/
inductive Steps {α : Type} (R : α → α → Prop) : α → Nat → α → Prop
  | nil (a : α) : Steps R a 0 a
  | cons {a b c : α} {n : Nat} (h : R a b) (hs : Steps R b n c) : Steps R a (n + 1) c

namespace LinkedStage
variable {stage : LinkedStage}

theorem lt_of_steps (hc : stage.Closed) {i n k : Nat} (h : Steps stage.After i n k)
    (hi : i < stage.actions.length) : k < stage.actions.length := by
  induction h with
  | nil => exact hi
  | cons hj _ ih => exact ih (hc hj)

/-- The least run order of a position when nothing runs before it. -/
def leastAt (stage : LinkedStage) (i : Nat) : Nat := max 1 (stage.floorAt i).toNat

/-- No chain of dependencies asks for more than the largest run order: its last action asks for one, and each
action before it for one more. Where no position runs after itself, every chain is shorter than the stage. -/
def Fits (stage : LinkedStage) : Prop :=
  ∀ i n k, Steps stage.After i n k → n < stage.actions.length → stage.leastAt k + n < UInt64.size

/-- Every position has a larger run order than those that it runs after. -/
def Increasing (stage : LinkedStage) (orders : RunOrders) : Prop :=
  ∀ i j, stage.After i j →
    ∃ o o', Table.get? orders i = some o ∧ Table.get? orders j = some o' ∧ o' < o

/-- Every run order is the largest that a chain from its position asks for. -/
def Longest (stage : LinkedStage) (orders : RunOrders) : Prop :=
  ∀ i o, Table.get? orders i = some o →
    IsGreatest {m | ∃ n k, Steps stage.After i n k ∧ m = stage.leastAt k + n} o.toNat

theorem leastAt_of_le {k : Nat} (hk : stage.actions.length ≤ k) : stage.leastAt k = 1 := by
  rw [leastAt, floorAt, List.getElem?_eq_none hk]
  rfl

/-! ## Filled tables -/

namespace Filled
variable {orders : RunOrders}

/-- A run order is what some chain asks for. -/
theorem exists_steps (h : stage.Filled orders) {i : Nat} {o : UInt64} (hg : Table.get? orders i = some o) :
    ∃ n k, Steps stage.After i n k ∧ o.toNat = stage.leastAt k + n := by
  -- whatever the position runs after stands before it in the table
  induction hm : (Table.keys orders).idxOf i using Nat.strong_induction_on generalizing i o with
  | _ m ih =>
      have ho := h.order_eq hg
      rcases deepest_eq orders 0 (stage.afterAt i) with hd | ⟨j, hj, hd⟩
      · refine ⟨0, i, .nil i, ?_⟩
        rw [ho, hd]
        rfl
      · obtain ⟨o', hg'⟩ := h.exists_order_of_after hg hj
        have hlt := (h.idxOf_lt (Table.mem_keys_of_get? hg) hj).2
        obtain ⟨n, k, hsteps, ho'⟩ := ih _ (hm ▸ hlt) hg' rfl
        rw [hd, hg', Option.getD_some, ho'] at ho
        rcases Nat.le_total (stage.floorAt i).toNat (stage.leastAt k + n + 1) with hle | hle
        · exact ⟨n + 1, k, .cons hj hsteps, by omega⟩
        · exact ⟨0, i, .nil i, by rw [leastAt]; omega⟩

/-- A run order is at least what every chain asks for. -/
theorem le_of_steps (h : stage.Filled orders) {i n k : Nat} (hsteps : Steps stage.After i n k) {o : UInt64}
    (hg : Table.get? orders i = some o) : stage.leastAt k + n ≤ o.toNat := by
  induction hsteps generalizing o with
  | nil i =>
      have ho := h.order_eq hg
      rw [leastAt]
      omega
  | cons hj _ ih =>
      obtain ⟨o', hg', hlt⟩ := h.lt_of_after hg hj
      have hle := ih hg'
      rw [UInt64.lt_iff_toNat_lt] at hlt
      omega

/-- A chain goes back in the table with every step. -/
theorem steps_le_idxOf (h : stage.Filled orders) {i n k : Nat} (hsteps : Steps stage.After i n k)
    (hi : i ∈ Table.keys orders) : n ≤ (Table.keys orders).idxOf i := by
  induction hsteps with
  | nil => exact Nat.zero_le _
  | cons hj _ ih =>
      obtain ⟨hm, hlt⟩ := h.idxOf_lt hi hj
      have hle := ih hm
      omega

theorem increasing (h : stage.Filled orders) (hall : ∀ i < stage.actions.length, i ∈ Table.keys orders) :
    stage.Increasing orders := by
  intro i j hj
  obtain ⟨o, hg⟩ := Table.exists_get?_of_mem_keys (hall i (LinkedStage.lt_of_after hj))
  obtain ⟨o', hg', hlt⟩ := h.lt_of_after hg hj
  exact ⟨o, o', hg, hg', hlt⟩

theorem longest (h : stage.Filled orders) : stage.Longest orders := by
  intro i o hg
  refine ⟨h.exists_steps hg, ?_⟩
  rintro m ⟨n, k, hsteps, rfl⟩
  exact h.le_of_steps hsteps hg

theorem lt_size_of_steps (h : stage.Filled orders) (hall : ∀ i < stage.actions.length, i ∈ Table.keys orders)
    {i n k : Nat} (hsteps : Steps stage.After i n k) : stage.leastAt k + n < UInt64.size := by
  rcases Nat.lt_or_ge i stage.actions.length with hi | hi
  · obtain ⟨o, hg⟩ := Table.exists_get?_of_mem_keys (hall i hi)
    exact Nat.lt_of_le_of_lt (h.le_of_steps hsteps hg) o.toNat_lt_size
  · -- no action stands here, and no chain leads on
    cases hsteps with
    | nil => rw [leastAt_of_le hi]; decide
    | cons hj _ => exact absurd (LinkedStage.lt_of_after hj) (Nat.not_lt.mpr hi)

theorem fits (h : stage.Filled orders) (hall : ∀ i < stage.actions.length, i ∈ Table.keys orders) :
    stage.Fits :=
  fun _ _ _ hsteps _ => h.lt_size_of_steps hall hsteps

/-- Where there is no run order over those that a position runs after, some chain from it does not fit. -/
theorem not_fits (h : stage.Filled orders) {i : Nat} (hi : i < stage.actions.length) (hn : i ∉ Table.keys orders)
    (hj : ∀ j ∈ stage.afterAt i, j ∈ Table.keys orders)
    (hover : UInt64.size ≤ (deepest orders 0 (stage.afterAt i)).toNat + 1) : ¬ stage.Fits := by
  intro hfits
  rcases deepest_eq orders 0 (stage.afterAt i) with hd | ⟨j, hafter, hd⟩
  · rw [hd] at hover
    exact absurd hover (by decide)
  · obtain ⟨o, hg⟩ := Table.exists_get?_of_mem_keys (hj j hafter)
    obtain ⟨n, k, hsteps, ho⟩ := h.exists_steps hg
    have hidx := h.steps_le_idxOf hsteps (hj j hafter)
    have hlt := List.idxOf_lt_length_of_mem (hj j hafter)
    have hkeys : (Table.keys orders).length = orders.length := List.length_map Prod.fst
    have hlen := h.length_lt hi hn
    have hbound := hfits i (n + 1) k (.cons hafter hsteps) (by omega)
    rw [hd, hg, Option.getD_some, ho] at hover
    omega

end Filled
end LinkedStage
end Shorthand.Pipeline
