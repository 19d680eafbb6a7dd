import Mathlib.Data.List.Chain
import Shorthand.Proofs.Pipeline.Chain

/-!
# How the search for run orders ends

The search fails in two ways: it comes to a cycle, or some chain asks for more than the largest run order. So a
stage gets its run orders if and only if no position runs after itself and all chains fit.
-/
namespace Shorthand.Pipeline
namespace LinkedStage
variable {stage : LinkedStage}

/-! ## Cycles -/

/-- Positions that close a cycle: each runs after the next, the first is the last, and no other comes twice. -/
structure IsCycle (stage : LinkedStage) (is : List Nat) : Prop where
  length : 2 ≤ is.length
  closed : is.head? = is.getLast?
  distinct : is.dropLast.Nodup
  bound : ∀ i ∈ is, i < stage.actions.length
  after : is.IsChain stage.After

theorem IsCycle.exists_transGen {is : List Nat} (h : stage.IsCycle is) :
    ∃ i, Relation.TransGen stage.After i i := by
  obtain ⟨hlength, hclosed, -, -, hafter⟩ := h
  match is with
  | [] | [_] => simp at hlength
  | i :: j :: is =>
      have hpair := (hafter.imp fun _ _ => Relation.TransGen.single).pairwise
      have hlast : i ∈ j :: is := List.mem_of_getLast? (hclosed.trans List.getLast?_cons_cons).symm
      exact ⟨i, (List.pairwise_cons.mp hpair).1 i hlast⟩

theorem isCycle_of_mem {path : List Nat} {i : Nat} (hn : path.Nodup) (hb : ∀ p ∈ path, p < stage.actions.length)
    (hchain : (i :: path).IsChain fun j i => stage.After i j) (hi : i ∈ path) :
    ∃ is, stage.IsCycle is ∧ stage.cycle path i = .circularDependency stage.name (is.map stage.nameAt) := by
  obtain ⟨waiting, rest, rfl, hnot⟩ := List.eq_append_cons_of_mem hi
  have hstop : (waiting ++ i :: rest).takeWhile (· != i) = waiting := by
    rw [List.takeWhile_append_of_pos fun p hp => bne_iff_ne.mpr (ne_of_mem_of_not_mem hp hnot),
      List.takeWhile_cons_of_neg (by simp), List.append_nil]
  have hround : ((i :: waiting) ++ [i]).reverse = i :: waiting.reverse ++ [i] := by simp
  refine ⟨i :: waiting.reverse ++ [i], ⟨?_, ?_, ?_, ?_, ?_⟩, ?_⟩
  · simp
  · rw [List.getLast?_concat]
    rfl
  · rw [List.dropLast_concat, List.nodup_cons, List.mem_reverse, List.nodup_reverse]
    exact ⟨hnot, hn.of_append_left⟩
  · intro p hp
    apply hb p
    simp at hp ⊢
    tauto
  · rw [← hround, List.isChain_reverse]
    refine hchain.prefix ⟨rest, ?_⟩
    simp
  · rw [cycle, hstop, hround]

/-! ## Failures -/

/-- The errors that a search ends with. -/
inductive Fails (stage : LinkedStage) : Error → Prop
  | cycle {is : List Nat} (h : stage.IsCycle is) :
      Fails stage (.circularDependency stage.name (is.map stage.nameAt))
  | overflow (h : ¬ stage.Fits) : Fails stage .overflow

/-- The search below a position fails at one of those that it runs after, in a table that is still filled. -/
theorem exists_of_foldlM_eq_error {path : List Nat}
    {step : Nat → RunOrders → Except Error (UInt64 × RunOrders)} {js : List Nat} (hstep : stage.Sound path js step)
    {least : UInt64} {orders : RunOrders} {e : Error} (hf : stage.Filled orders)
    (hp : ∀ p ∈ path, p ∉ Table.keys orders)
    (h : js.foldlM (fun (deepest, orders) j => do
      let (order, orders) ← step j orders
      .ok (max deepest order, orders)) (least, orders) = .error e) :
    ∃ j ∈ js, ∃ orders', stage.Filled orders' ∧ (∀ p ∈ path, p ∉ Table.keys orders') ∧
      step j orders' = .error e := by
  have hkept : ∀ j ∈ js, ∀ s s' : UInt64 × RunOrders,
      (stage.Filled s.2 ∧ ∀ p ∈ path, p ∉ Table.keys s.2) →
      (step j s.2 >>= fun out => .ok (max s.1 out.1, out.2)) = .ok s' →
      stage.Filled s'.2 ∧ ∀ p ∈ path, p ∉ Table.keys s'.2 := by
    intro j hj s s' hs he
    obtain ⟨_, hjs, he⟩ := Outcome.bind_eq_ok.mp he
    obtain rfl := Except.ok.inj he
    obtain ⟨hx, _⟩ := hstep j hj hs.1 hs.2 hjs
    exact ⟨hx.filled, hx.waiting⟩
  obtain ⟨j, hj, s, hs, h⟩ := Outcome.exists_of_foldlM_eq_error ⟨hf, hp⟩ hkept h
  rcases Outcome.bind_eq_error.mp h with h | ⟨_, _, h⟩
  · exact ⟨j, hj, s.2, hs.1, hs.2, h⟩
  · cases h

theorem fails_of_visit (hc : stage.Closed) {steps : Nat} {path : List Nat} {i : Nat} {orders : RunOrders}
    {e : Error} (hi : i < stage.actions.length) (hn : path.Nodup) (hb : ∀ p ∈ path, p < stage.actions.length)
    (hchain : (i :: path).IsChain fun j i => stage.After i j) (hs : stage.actions.length < path.length + steps)
    (hf : stage.Filled orders) (hp : ∀ p ∈ path, p ∉ Table.keys orders)
    (h : stage.visit steps path i orders = .error e) : stage.Fails e := by
  -- the path goes back along dependencies and holds no position twice, so it is never longer than the stage
  induction steps generalizing path i orders with
  | zero =>
      have hlen := length_le_of_nodup hn hb
      omega
  | succ steps ih =>
      rw [visit] at h
      split at h
      · cases h
      · rename_i hg
        split at h
        · rename_i hmem
          obtain ⟨is, hcycle, he⟩ := isCycle_of_mem hn hb hchain hmem
          exact (Except.error.inj h).symm.trans he ▸ .cycle hcycle
        · rename_i hnot
          have hwaiting : ∀ p ∈ i :: path, p ∉ Table.keys orders :=
            List.forall_mem_cons.mpr ⟨Table.get?_eq_none_iff.mp hg, hp⟩
          have hstep : stage.Sound (i :: path) (stage.afterAt i) (stage.visit steps (i :: path)) :=
            fun j hj _ _ _ => extends_of_visit hc (hc hj)
          rcases Outcome.bind_eq_error.mp h with h | ⟨⟨d, orders'⟩, hfold, h⟩
          · obtain ⟨j, hj, orders', hf', hp', h⟩ := exists_of_foldlM_eq_error hstep hf hwaiting h
            refine ih (hc hj) (List.nodup_cons.mpr ⟨hnot, hn⟩) (List.forall_mem_cons.mpr ⟨hi, hb⟩)
              (.cons_cons hj hchain) ?_ hf' hp' h
            rw [List.length_cons]
            omega
          · -- the positions below have their run orders, and there is none above them
            obtain ⟨hx, hin, rfl⟩ := extends_of_foldlM hstep hf hwaiting hfold
            rcases Outcome.bind_eq_error.mp h with h | ⟨_, _, h⟩
            · obtain ⟨rfl, hover⟩ := nextOrder_eq_error.mp h
              exact .overflow (hx.filled.not_fits hi (hx.waiting i List.mem_cons_self) hin hover)
            · cases h

theorem fails_of_runOrders (hc : stage.Closed) {e : Error} (h : stage.runOrders = .error e) : stage.Fails e := by
  have hkept : ∀ i ∈ List.range stage.actions.length, ∀ orders orders', stage.Filled orders →
      (stage.visit (stage.actions.length + 1) [] i orders >>= fun out => .ok out.2) = .ok orders' →
      stage.Filled orders' := by
    intro i hi orders orders' hf hstep
    obtain ⟨_, hv, he⟩ := Outcome.bind_eq_ok.mp hstep
    obtain rfl := Except.ok.inj he
    exact (extends_of_visit hc (List.mem_range.mp hi) hf (by simp) hv).1.filled
  obtain ⟨i, hi, orders, hf, h⟩ := Outcome.exists_of_foldlM_eq_error .nil hkept h
  rcases Outcome.bind_eq_error.mp h with h | ⟨_, _, h⟩
  · exact fails_of_visit hc (List.mem_range.mp hi) List.nodup_nil (by simp) (.singleton i) (by simp) hf (by simp) h
  · cases h

/-- Where no position runs after itself, a search can only fail because some chain does not fit. -/
theorem Fails.of_acyclic {e : Error} (h : stage.Fails e) (ha : ∀ i, ¬ Relation.TransGen stage.After i i) :
    e = .overflow ∧ ¬ stage.Fits := by
  cases h with
  | cycle h =>
      obtain ⟨i, hi⟩ := h.exists_transGen
      exact absurd hi (ha i)
  | overflow h => exact ⟨rfl, h⟩

/-- A stage gets its run orders if and only if no position runs after itself and all chains fit. -/
theorem runOrders_eq_ok_iff (hc : stage.Closed) :
    (∃ orders, stage.runOrders = .ok orders) ↔ (∀ i, ¬ Relation.TransGen stage.After i i) ∧ stage.Fits := by
  constructor
  · rintro ⟨orders, h⟩
    obtain ⟨hf, hall⟩ := filled_of_runOrders hc h
    refine ⟨fun i hcycle => ?_, hf.fits hall⟩
    obtain ⟨_, _, hlast⟩ := Relation.TransGen.tail'_iff.mp hcycle
    exact hf.acyclic (hall i (hc hlast)) hcycle
  · rintro ⟨ha, hfits⟩
    cases h : stage.runOrders with
    | ok orders => exact ⟨orders, rfl⟩
    | error e => exact absurd hfits ((fails_of_runOrders hc h).of_acyclic ha).2

end LinkedStage
end Shorthand.Pipeline
