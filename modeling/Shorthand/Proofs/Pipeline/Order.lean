import Mathlib.Data.List.Perm.Subperm
import Mathlib.Logic.Relation
import Shorthand.Pipeline.Graph
import Shorthand.Proofs.Outcome
import Shorthand.Proofs.Table

/-!
# Run orders of a stage

The search fills a table of run orders in which every position comes after those that it runs after, and has
a larger run order than each of them.
-/
namespace Shorthand.Pipeline

theorem toNat_max (a b : UInt64) : (max a b).toNat = max a.toNat b.toNat := by
  show (if a ≤ b then b else a).toNat = _
  split
  · rename_i h
    rw [UInt64.le_iff_toNat_le] at h
    omega
  · rename_i h
    rw [UInt64.le_iff_toNat_le] at h
    omega

theorem not_transGen_self {α : Type} {R : α → α → Prop} {f : α → Nat} (h : ∀ a b, R a b → f b < f a)
    (a : α) : ¬ Relation.TransGen R a a := by
  intro ht
  have hlt : Relation.TransGen (· > ·) (f a) (f a) := Relation.TransGen.lift f h a a ht
  rw [Relation.transGen_eq_self] at hlt
  exact Nat.lt_irrefl _ hlt

/-- The next run order is a number only where the sum does not overflow. -/
theorem nextOrder_eq_ok {order next : UInt64} : nextOrder order = .ok next ↔ next.toNat = order.toNat + 1 := by
  rw [nextOrder]
  split
  · rename_i h
    have hsum : (order + 1).toNat = order.toNat + 1 := by
      rw [UInt64.toNat_add, UInt64.toNat_one]
      exact Nat.mod_eq_of_lt h
    rw [Except.ok.injEq, ← UInt64.toNat_inj, hsum, eq_comm]
  · rename_i h
    have hlt := next.toNat_lt_size
    exact ⟨(nomatch ·), fun he => by omega⟩

theorem nextOrder_eq_error {order : UInt64} {e : Error} :
    nextOrder order = .error e ↔ e = .overflow ∧ UInt64.size ≤ order.toNat + 1 := by
  rw [nextOrder]
  split
  · rename_i h
    exact ⟨(nomatch ·), fun he => absurd h (Nat.not_lt.mpr he.2)⟩
  · rename_i h
    rw [Except.error.injEq, eq_comm]
    exact (and_iff_left (Nat.not_lt.mp h)).symm

/-- The largest run order found for some positions, but at least the one given. -/
def deepest (orders : RunOrders) (least : UInt64) (js : List Nat) : UInt64 :=
  js.foldl (fun d j => max d ((Table.get? orders j).getD 0)) least

theorem le_deepest (orders : RunOrders) (least : UInt64) (js : List Nat) :
    least.toNat ≤ (deepest orders least js).toNat := by
  induction js generalizing least with
  | nil => exact Nat.le_refl _
  | cons j js ih =>
      refine Nat.le_trans ?_ (ih _)
      rw [toNat_max]
      exact Nat.le_max_left _ _

theorem le_deepest_of_mem {orders : RunOrders} {least order : UInt64} {js : List Nat} {j : Nat} (hj : j ∈ js)
    (h : Table.get? orders j = some order) : order.toNat ≤ (deepest orders least js).toNat := by
  induction js generalizing least with
  | nil => cases hj
  | cons i js ih =>
      rcases List.mem_cons.mp hj with rfl | hj
      · refine Nat.le_trans ?_ (le_deepest orders (max least ((Table.get? orders j).getD 0)) js)
        rw [toNat_max, h]
        exact Nat.le_max_right _ _
      · exact ih hj

theorem deepest_eq (orders : RunOrders) (least : UInt64) (js : List Nat) :
    deepest orders least js = least ∨
      ∃ j ∈ js, deepest orders least js = (Table.get? orders j).getD 0 := by
  induction js generalizing least with
  | nil => exact .inl rfl
  | cons j js ih =>
      have hmax : max least ((Table.get? orders j).getD 0) = least ∨
          max least ((Table.get? orders j).getD 0) = (Table.get? orders j).getD 0 := by
        show (if _ then _ else _) = _ ∨ (if _ then _ else _) = _
        split
        · exact .inr rfl
        · exact .inl rfl
      rcases ih (max least ((Table.get? orders j).getD 0)) with h | ⟨i, hi, h⟩
      · rw [deepest, List.foldl_cons, ← deepest, h]
        exact hmax.imp_right fun he => ⟨j, List.mem_cons_self, he⟩
      · exact .inr ⟨i, List.mem_cons_of_mem _ hi, h⟩

namespace LinkedStage
variable {stage : LinkedStage}

/-- One position runs after another. -/
def After (stage : LinkedStage) (i j : Nat) : Prop := j ∈ stage.afterAt i

/-- Positions run only after positions of the stage. -/
def Closed (stage : LinkedStage) : Prop := ∀ {i j}, stage.After i j → j < stage.actions.length

theorem lt_of_after {i j : Nat} (hj : stage.After i j) : i < stage.actions.length := by
  by_contra hn
  rw [After, afterAt, List.getElem?_eq_none (Nat.not_lt.mp hn)] at hj
  cases hj

/-- Tables of run orders as the search makes them: a position goes last, after those that it runs after. -/
inductive Filled (stage : LinkedStage) : RunOrders → Prop
  | nil : Filled stage []
  | snoc {orders : RunOrders} {i : Nat} {next : UInt64} (hf : Filled stage orders)
      (hi : i < stage.actions.length) (hn : i ∉ Table.keys orders)
      (hj : ∀ j ∈ stage.afterAt i, j ∈ Table.keys orders)
      (hnext : nextOrder (deepest orders 0 (stage.afterAt i)) = .ok next) :
      Filled stage (orders ++ [(i, max next (stage.floorAt i))])

/-! ## Tables that only grow -/

theorem mem_keys_of_grown {orders orders' : RunOrders} (h : orders <+: orders') {i : Nat}
    (hi : i ∈ Table.keys orders) : i ∈ Table.keys orders' :=
  (h.map Prod.fst).subset hi

theorem get?_of_grown {orders orders' : RunOrders} (h : orders <+: orders') {i : Nat}
    (hi : i ∈ Table.keys orders) : Table.get? orders' i = Table.get? orders i := by
  obtain ⟨more, rfl⟩ := h
  exact Table.get?_append more hi

/-! ## What the search leaves -/

/-- A step of the search is sound: the table is still filled, nothing in it has changed, and no position
that waits has got its order. -/
structure Extends (stage : LinkedStage) (path : List Nat) (orders orders' : RunOrders) : Prop where
  filled : stage.Filled orders'
  grown : orders <+: orders'
  waiting : ∀ p ∈ path, p ∉ Table.keys orders'

/-- A search that is sound from these positions, and leaves the order of each in the table. -/
def Sound (stage : LinkedStage) (path js : List Nat)
    (step : Nat → RunOrders → Except Error (UInt64 × RunOrders)) : Prop :=
  ∀ j ∈ js, ∀ {orders order orders'}, stage.Filled orders → (∀ p ∈ path, p ∉ Table.keys orders) →
    step j orders = .ok (order, orders') →
    stage.Extends path orders orders' ∧ Table.get? orders' j = some order

theorem Sound.tail {path js : List Nat} {j : Nat} {step : Nat → RunOrders → Except Error (UInt64 × RunOrders)}
    (h : stage.Sound path (j :: js) step) : stage.Sound path js step :=
  fun i hi => h i (List.mem_cons_of_mem _ hi)

theorem extends_of_foldlM {path : List Nat} {step : Nat → RunOrders → Except Error (UInt64 × RunOrders)}
    {js : List Nat} (hstep : stage.Sound path js step) {least d : UInt64} {orders orders' : RunOrders}
    (hf : stage.Filled orders) (hp : ∀ p ∈ path, p ∉ Table.keys orders)
    (h : js.foldlM (fun (deepest, orders) j => do
      let (order, orders) ← step j orders
      .ok (max deepest order, orders)) (least, orders) = .ok (d, orders')) :
    stage.Extends path orders orders' ∧ (∀ j ∈ js, j ∈ Table.keys orders') ∧
      d = deepest orders' least js := by
  induction js generalizing least orders with
  | nil =>
      obtain ⟨rfl, rfl⟩ := Prod.mk.inj (Except.ok.inj h)
      exact ⟨⟨hf, List.prefix_rfl, hp⟩, by simp, rfl⟩
  | cons j js ih =>
      obtain ⟨⟨d₁, orders₁⟩, h₁, h⟩ := Outcome.bind_eq_ok.mp h
      obtain ⟨⟨order, orders₂⟩, hj, he⟩ := Outcome.bind_eq_ok.mp h₁
      obtain ⟨rfl, rfl⟩ := Prod.mk.inj (Except.ok.inj he)
      obtain ⟨hx₁, hget⟩ := hstep j List.mem_cons_self hf hp hj
      obtain ⟨hx, hin, rfl⟩ := ih hstep.tail hx₁.filled hx₁.waiting h
      have hmem : j ∈ Table.keys orders₂ := Table.mem_keys_of_get? hget
      refine ⟨⟨hx.filled, hx₁.grown.trans hx.grown, hx.waiting⟩, ?_, ?_⟩
      · exact List.forall_mem_cons.mpr ⟨mem_keys_of_grown hx.grown hmem, hin⟩
      · rw [deepest, deepest, List.foldl_cons, get?_of_grown hx.grown hmem, hget]
        rfl

theorem extends_of_visit (hc : stage.Closed) {steps : Nat} {path : List Nat} {i : Nat}
    {orders orders' : RunOrders} {order : UInt64} (hi : i < stage.actions.length)
    (hf : stage.Filled orders) (hp : ∀ p ∈ path, p ∉ Table.keys orders)
    (h : stage.visit steps path i orders = .ok (order, orders')) :
    stage.Extends path orders orders' ∧ Table.get? orders' i = some order := by
  -- no position on the path has an order yet, so what is found in the table waits for nothing
  induction steps generalizing path i orders orders' order with
  | zero => cases h
  | succ steps ih =>
      rw [visit] at h
      split at h
      · rename_i found hg
        obtain ⟨rfl, rfl⟩ := Prod.mk.inj (Except.ok.inj h)
        exact ⟨⟨hf, List.prefix_rfl, hp⟩, hg⟩
      · rename_i hg
        split at h
        · cases h
        · rename_i hnp
          obtain ⟨⟨d, orders₁⟩, hfold, h⟩ := Outcome.bind_eq_ok.mp h
          obtain ⟨next, hnext, h⟩ := Outcome.bind_eq_ok.mp h
          obtain ⟨rfl, rfl⟩ := Prod.mk.inj (Except.ok.inj h)
          have hnone : i ∉ Table.keys orders := Table.get?_eq_none_iff.mp hg
          have hstep : stage.Sound (i :: path) (stage.afterAt i) (stage.visit steps (i :: path)) :=
            fun j hj _ _ _ => ih (hc hj)
          obtain ⟨hx, hin, rfl⟩ := extends_of_foldlM hstep hf (List.forall_mem_cons.mpr ⟨hnone, hp⟩) hfold
          obtain ⟨hni, hnp₁⟩ := List.forall_mem_cons.mp hx.waiting
          refine ⟨⟨.snoc hx.filled hi hni hin hnext, hx.grown.trans (List.prefix_append _ _),
            fun p hpath hk => ?_⟩, Table.get?_append_self _ hni⟩
          rw [Table.keys, List.map_append, List.mem_append] at hk
          rcases hk with hk | hk
          · exact hnp₁ p hpath hk
          · obtain rfl : p = i := List.mem_singleton.mp hk
            exact hnp hpath

/-- Visits positions in turn. -/
def visitAll (stage : LinkedStage) (is : List Nat) (orders : RunOrders) : Except Error RunOrders :=
  is.foldlM (fun orders i => do
    let (_, orders) ← stage.visit (stage.actions.length + 1) [] i orders
    .ok orders) orders

theorem filled_of_visitAll (hc : stage.Closed) {is : List Nat} {orders orders' : RunOrders}
    (hlt : ∀ i ∈ is, i < stage.actions.length) (hf : stage.Filled orders)
    (h : stage.visitAll is orders = .ok orders') :
    stage.Filled orders' ∧ orders <+: orders' ∧ ∀ i ∈ is, i ∈ Table.keys orders' := by
  induction is generalizing orders with
  | nil =>
      obtain rfl := Except.ok.inj h
      exact ⟨hf, List.prefix_rfl, by simp⟩
  | cons i is ih =>
      obtain ⟨hi, hlt⟩ := List.forall_mem_cons.mp hlt
      obtain ⟨orders₁, h₁, h⟩ := Outcome.bind_eq_ok.mp h
      obtain ⟨⟨order, orders₂⟩, hv, he⟩ := Outcome.bind_eq_ok.mp h₁
      obtain rfl := Except.ok.inj he
      obtain ⟨hx, hget⟩ := extends_of_visit hc hi hf (by simp) hv
      obtain ⟨hf', hgrown, hin⟩ := ih hlt hx.filled h
      refine ⟨hf', hx.grown.trans hgrown, List.forall_mem_cons.mpr ⟨?_, hin⟩⟩
      exact mem_keys_of_grown hgrown (Table.mem_keys_of_get? hget)

theorem filled_of_runOrders (hc : stage.Closed) {orders : RunOrders} (h : stage.runOrders = .ok orders) :
    stage.Filled orders ∧ ∀ i < stage.actions.length, i ∈ Table.keys orders := by
  obtain ⟨hf, _, hin⟩ := filled_of_visitAll hc (fun i hi => List.mem_range.mp hi) .nil h
  exact ⟨hf, fun i hi => hin i (List.mem_range.mpr hi)⟩

/-! ## No cycle in a filled table -/

namespace Filled
variable {orders : RunOrders}

theorem keys_snoc (orders : RunOrders) (i : Nat) (order : UInt64) :
    Table.keys (orders ++ [(i, order)]) = Table.keys orders ++ [i] := by
  simp [Table.keys]

/-- Whatever a position runs after stands before it. -/
theorem idxOf_lt (h : stage.Filled orders) {i j : Nat} (hi : i ∈ Table.keys orders) (hj : stage.After i j) :
    j ∈ Table.keys orders ∧ (Table.keys orders).idxOf j < (Table.keys orders).idxOf i := by
  induction h with
  | nil => cases hi
  | @snoc orders k _ hf hk hn hall _ ih =>
      rw [keys_snoc] at hi ⊢
      rcases List.mem_append.mp hi with hi | hi
      · obtain ⟨hm, hlt⟩ := ih hi
        rw [List.idxOf_append_of_mem hm, List.idxOf_append_of_mem hi]
        exact ⟨List.mem_append_left _ hm, hlt⟩
      · obtain rfl := List.mem_singleton.mp hi
        have hm := hall j hj
        rw [List.idxOf_append_of_mem hm, List.idxOf_append_of_notMem hn]
        exact ⟨List.mem_append_left _ hm, Nat.lt_add_right _ (List.idxOf_lt_length_of_mem hm)⟩

theorem idxOf_lt_of_transGen (h : stage.Filled orders) {i j : Nat} (hi : i ∈ Table.keys orders)
    (hj : Relation.TransGen stage.After i j) :
    j ∈ Table.keys orders ∧ (Table.keys orders).idxOf j < (Table.keys orders).idxOf i := by
  induction hj with
  | single hj => exact h.idxOf_lt hi hj
  | tail _ hj ih =>
      obtain ⟨hm, hlt⟩ := h.idxOf_lt ih.1 hj
      exact ⟨hm, Nat.lt_trans hlt ih.2⟩

theorem nodup (h : stage.Filled orders) : (Table.keys orders).Nodup := by
  induction h with
  | nil => exact List.nodup_nil
  | snoc _ _ hn _ _ ih =>
      rw [keys_snoc]
      exact nodup_snoc ih hn

theorem lt_length (h : stage.Filled orders) {i : Nat} (hi : i ∈ Table.keys orders) :
    i < stage.actions.length := by
  induction h with
  | nil => cases hi
  | snoc _ hlt _ _ _ ih =>
      rw [keys_snoc] at hi
      rcases List.mem_append.mp hi with hi | hi
      · exact ih hi
      · exact List.mem_singleton.mp hi ▸ hlt

theorem acyclic (h : stage.Filled orders) {i : Nat} (hi : i ∈ Table.keys orders) :
    ¬ Relation.TransGen stage.After i i := fun hcycle =>
  Nat.lt_irrefl _ (h.idxOf_lt_of_transGen hi hcycle).2

end Filled

theorem length_le_of_nodup {is : List Nat} {n : Nat} (hn : is.Nodup) (h : ∀ i ∈ is, i < n) :
    is.length ≤ n := by
  have hs := (hn.subperm fun i hi => List.mem_range.mpr (h i hi)).length_le
  rwa [List.length_range] at hs

/-! ## Run orders in a filled table -/

theorem get?_snoc {orders : RunOrders} {k : Nat} {order : UInt64} (hn : k ∉ Table.keys orders) {i : Nat}
    {o : UInt64} (h : Table.get? (orders ++ [(k, order)]) i = some o) :
    Table.get? orders i = some o ∨ i = k ∧ o = order := by
  by_cases hi : i ∈ Table.keys orders
  · rw [Table.get?_append _ hi] at h
    exact .inl h
  · have hk := Table.mem_keys_of_get? h
    rw [Filled.keys_snoc, List.mem_append] at hk
    obtain rfl := List.mem_singleton.mp (hk.resolve_left hi)
    rw [Table.get?_append_self _ hn] at h
    exact .inr ⟨rfl, (Option.some.inj h).symm⟩

namespace Filled
variable {orders : RunOrders}

/-- A table that lacks a position is shorter than the stage. -/
theorem length_lt (h : stage.Filled orders) {i : Nat} (hi : i < stage.actions.length)
    (hn : i ∉ Table.keys orders) : orders.length < stage.actions.length := by
  have hle := length_le_of_nodup (List.nodup_cons.mpr ⟨hn, h.nodup⟩)
    (List.forall_mem_cons.mpr ⟨hi, fun _ => h.lt_length⟩)
  rwa [List.length_cons, Table.keys, List.length_map] at hle

/-- A run order is computed from those of the positions that this one runs after. -/
theorem order_eq (h : stage.Filled orders) {i : Nat} {o : UInt64} (hg : Table.get? orders i = some o) :
    o.toNat = max ((deepest orders 0 (stage.afterAt i)).toNat + 1) (stage.floorAt i).toNat := by
  induction h with
  | nil => cases hg
  | @snoc orders k next hf hk hn hall hnext ih =>
      have hkept : ∀ {p}, (∀ j ∈ stage.afterAt p, j ∈ Table.keys orders) → ∀ order,
          deepest (orders ++ [(k, order)]) 0 (stage.afterAt p) = deepest orders 0 (stage.afterAt p) := by
        intro p hp order
        refine List.foldl_ext _ _ _ fun d j hj => ?_
        rw [Table.get?_append _ (hp j hj)]
      rcases get?_snoc hn hg with hg | ⟨rfl, rfl⟩
      · rw [hkept (fun j hj => (hf.idxOf_lt (Table.mem_keys_of_get? hg) hj).1)]
        exact ih hg
      · rw [hkept hall, toNat_max, nextOrder_eq_ok.mp hnext]

theorem exists_order_of_after (h : stage.Filled orders) {i j : Nat} {o : UInt64}
    (hg : Table.get? orders i = some o) (hj : stage.After i j) : ∃ o', Table.get? orders j = some o' :=
  Table.exists_get?_of_mem_keys (h.idxOf_lt (Table.mem_keys_of_get? hg) hj).1

theorem lt_of_after (h : stage.Filled orders) {i j : Nat} {o : UInt64} (hg : Table.get? orders i = some o)
    (hj : stage.After i j) : ∃ o', Table.get? orders j = some o' ∧ o' < o := by
  obtain ⟨o', hg'⟩ := h.exists_order_of_after hg hj
  have hle : o'.toNat ≤ (deepest orders 0 (stage.afterAt i)).toNat := le_deepest_of_mem hj hg'
  refine ⟨o', hg', ?_⟩
  rw [UInt64.lt_iff_toNat_lt, h.order_eq hg]
  omega

end Filled
end LinkedStage
end Shorthand.Pipeline
