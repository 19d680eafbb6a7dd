import Shorthand.Proofs.Pipeline.Emission

/-!
# Run orders of linked stages

Where linked stages are put in order, run orders increase along every dependency, and they are the least that do.
Where they are not, the error tells a cycle, which goes along dependencies and comes to no action twice before it
closes, or some chain of dependencies asks for more than the largest run order.
-/
namespace Shorthand.Pipeline

/-! ## Least run orders -/

/-- The largest of the orders of these positions, zero if there are none. -/
def largest (order : Nat → Nat) (js : List Nat) : Nat := (js.map order).max?.getD 0

theorem largest_congr {order order' : Nat → Nat} {js : List Nat} (h : ∀ j ∈ js, order j = order' j) :
    largest order js = largest order' js := by
  rw [largest, largest, List.map_congr_left h]

theorem le_largest {order : Nat → Nat} {js : List Nat} {j : Nat} (hj : j ∈ js) : order j ≤ largest order js :=
  List.le_max?_getD_of_mem (List.mem_map_of_mem hj)

theorem toNat_deepest (orders : RunOrders) (least : UInt64) (js : List Nat) :
    (deepest orders least js).toNat =
      (js.map fun j => ((Table.get? orders j).getD 0).toNat).foldl max least.toNat := by
  induction js generalizing least with
  | nil => rfl
  | cons j js ih =>
      rw [deepest, List.foldl_cons, ← deepest, ih, toNat_max]
      rfl

theorem toNat_deepest_zero (orders : RunOrders) (js : List Nat) :
    (deepest orders 0 js).toNat = largest (fun j => ((Table.get? orders j).getD 0).toNat) js := by
  rw [toNat_deepest, List.foldl_max, UInt64.toNat_zero, Nat.zero_max, largest]

namespace LinkedStage
variable {stage : LinkedStage}

/-- The least order that a position may get: what its action asks for, and one over all that it runs after. -/
def leastAfter (stage : LinkedStage) (order : Nat → Nat) (i : Nat) : Nat :=
  max (stage.floorAt i).toNat (1 + largest order (stage.afterAt i))

/-- These orders are the least that every position may get, and no others that satisfy all are below them. -/
structure IsLeast (stage : LinkedStage) (order : Nat → Nat) : Prop where
  eq : ∀ i < stage.actions.length, order i = stage.leastAfter order i
  le : ∀ other : Nat → Nat, (∀ i < stage.actions.length, stage.leastAfter other i ≤ other i) →
    ∀ i < stage.actions.length, order i ≤ other i

/-- Orders that satisfy all are at least what every chain asks for. -/
theorem le_of_leastAfter_le (hc : stage.Closed) {other : Nat → Nat}
    (h : ∀ i < stage.actions.length, stage.leastAfter other i ≤ other i) {i n k : Nat}
    (hsteps : Steps stage.After i n k) (hi : i < stage.actions.length) : stage.leastAt k + n ≤ other i := by
  induction hsteps with
  | nil i =>
      have hle := h i hi
      rw [leastAfter] at hle
      rw [leastAt]
      omega
  | cons hj _ ih =>
      have hle := h _ hi
      have hlargest : other _ ≤ largest other _ := le_largest hj
      have hrest := ih (hc hj)
      rw [leastAfter] at hle
      omega

theorem Filled.isLeast (hc : stage.Closed) {orders : RunOrders} (hf : stage.Filled orders)
    (hall : ∀ i < stage.actions.length, i ∈ Table.keys orders) {order : Nat → Nat}
    (ho : ∀ i < stage.actions.length, order i = ((Table.get? orders i).getD 0).toNat) : stage.IsLeast order := by
  constructor
  · intro i hi
    obtain ⟨o, hg⟩ := Table.exists_get?_of_mem_keys (hall i hi)
    have hafter : largest order (stage.afterAt i) = (deepest orders 0 (stage.afterAt i)).toNat := by
      rw [toNat_deepest_zero]
      exact largest_congr fun j hj => ho j (hc hj)
    rw [ho i hi, hg, Option.getD_some, leastAfter, hafter, hf.order_eq hg]
    omega
  · intro other hother i hi
    obtain ⟨o, hg⟩ := Table.exists_get?_of_mem_keys (hall i hi)
    obtain ⟨n, k, hsteps, hval⟩ := hf.exists_steps hg
    rw [ho i hi, hg, Option.getD_some, hval]
    exact le_of_leastAfter_le hc hother hsteps hi

/-! ## Cycles that are told -/

/-- Names that tell a cycle: the first is the last, no other comes twice, and they are those of actions each of
which runs after the next. -/
structure TellsCycle (stage : LinkedStage) (chain : List String) : Prop where
  length : 2 ≤ chain.length
  closed : chain.head? = chain.getLast?
  distinct : chain.dropLast.Nodup
  after : ∃ is : List Nat, is.map stage.nameAt = chain ∧ (∀ i ∈ is, i < stage.actions.length) ∧
    is.IsChain stage.After

theorem nameAt_inj (hn : (stage.actions.map fun linked => linked.action.name).Nodup) {i j : Nat}
    (hi : i < stage.actions.length) (hj : j < stage.actions.length) (h : stage.nameAt i = stage.nameAt j) :
    i = j := by
  rw [nameAt, nameAt, List.getElem?_eq_getElem hi, List.getElem?_eq_getElem hj] at h
  exact eq_of_nodup_map hn (List.getElem?_eq_getElem hi) (List.getElem?_eq_getElem hj) h

theorem IsCycle.tells {is : List Nat} (h : stage.IsCycle is)
    (hn : (stage.actions.map fun linked => linked.action.name).Nodup) :
    stage.TellsCycle (is.map stage.nameAt) := by
  constructor
  · rw [List.length_map]
    exact h.length
  · rw [List.head?_map, List.getLast?_map, h.closed]
  · rw [← List.map_dropLast]
    refine h.distinct.map_on fun i hi j hj he => ?_
    exact nameAt_inj hn (h.bound i ((List.dropLast_sublist is).subset hi))
      (h.bound j ((List.dropLast_sublist is).subset hj)) he
  · exact ⟨is, rfl, h.bound, h.after⟩

end LinkedStage

/-! ## Linked stages -/

theorem Registered.Links.names {r : Registered} {stage : Stage} {s : Nat} {linked : LinkedStage}
    (h : r.Links (stage, s) linked) :
    (linked.actions.map fun l => l.action.name) = stage.actions.map Action.name := by
  refine (Outcome.map_eq_map (h.actions.imp fun action l hlink => ?_)).symm
  rw [hlink.same]

namespace Linked

/-- The run orders of actions, by position. -/
def ordersOf (made : List OrderedAction) (i : Nat) : Nat := (made[i]?).elim 0 fun a => a.runOrder.toNat

theorem isLeast_of_order {l : Linked} (hc : ∀ stage ∈ l.stages, stage.Closed) {ordered : List OrderedStage}
    (h : l.order = .ok ordered) {s : Nat} {stage : LinkedStage} (hs : l.stages[s]? = some stage) :
    ∃ made o, ordered[s]? = some o ∧ made.Perm o.actions ∧
      made.map OrderedAction.action = stage.actions.map LinkedAction.action ∧
      stage.IsLeast (ordersOf made) := by
  obtain ⟨o, ho, horder⟩ := Outcome.exists_right (Outcome.mapM_eq_ok.mp h) (Outcome.getElem?_zipIdx_of hs)
  obtain ⟨-, -, _, ⟨orders, hrun, rfl⟩, hperm⟩ := assigns_of_orderStage horder
  have hclosed : stage.Closed := hc stage (List.mem_of_getElem? hs)
  obtain ⟨hf, hall⟩ := LinkedStage.filled_of_runOrders hclosed hrun
  refine ⟨l.assign s stage orders, o, ho, hperm, ?_, ?_⟩
  · conv_rhs => rw [← List.zipIdx_map_fst 0 stage.actions]
    rw [assign, List.map_map, List.map_map]
    rfl
  · refine hf.isLeast hclosed hall fun i hi => ?_
    obtain ⟨o, hg⟩ := Table.exists_get?_of_mem_keys (hall i hi)
    rw [ordersOf, getElem?_assign (List.getElem?_eq_getElem hi), hg]
    rfl

theorem tellsCycle_of_order {l : Linked} (hc : ∀ stage ∈ l.stages, stage.Closed)
    (hn : ∀ stage ∈ l.stages, (stage.actions.map fun linked => linked.action.name).Nodup) {e : Error}
    (h : l.order = .error e) :
    (∃ stage ∈ l.stages, ∃ chain, e = .circularDependency stage.name chain ∧ stage.TellsCycle chain) ∨
      e = .overflow ∧ ∃ stage ∈ l.stages, ¬ stage.Fits := by
  obtain ⟨stage, hs, hfails⟩ := fails_of_order hc h
  cases hfails with
  | cycle hcycle => exact .inl ⟨stage, hs, _, rfl, hcycle.tells (hn stage hs)⟩
  | overflow hfits => exact .inr ⟨rfl, stage, hs, hfits⟩

end Linked

/-- Where linked stages are put in order, the actions of each stage get the least run orders. Where they are not, the
error tells a cycle of one stage, unless some chain asks for more than the largest run order. -/
theorem Registered.isLeast_and_tellsCycle_of_link {stages : List Stage}
    (hn : ∀ stage ∈ stages, (stage.actions.map Action.name).Nodup) {r : Registered}
    (hr : register stages = .ok r) {compiler compiler' : Fragment.Compiler} {l : Linked}
    (hl : r.link compiler = .ok (l, compiler')) :
    (∀ ordered, l.order = .ok ordered → ∀ (s : Nat) (stage : LinkedStage), l.stages[s]? = some stage →
      ∃ (made : List OrderedAction) (o : OrderedStage), ordered[s]? = some o ∧ made.Perm o.actions ∧
        made.map OrderedAction.action = stage.actions.map LinkedAction.action ∧
        stage.IsLeast (Linked.ordersOf made)) ∧
    ∀ e, l.order = .error e →
      (∃ stage ∈ l.stages, ∃ chain, e = .circularDependency stage.name chain ∧ stage.TellsCycle chain) ∨
        e = .overflow ∧ ∃ stage ∈ l.stages, ¬ stage.Fits := by
  obtain ⟨-, ns, -, hlinked⟩ := linked_of_link hr hl
  have hto : LinksTo stages l := Registered.links_of_linkStages hlinked
  have hlinks : ∀ stage ∈ l.stages, stage.Closed ∧ (stage.actions.map fun l => l.action.name).Nodup := by
    intro stage hm
    obtain ⟨s, hs⟩ := List.getElem?_of_mem hm
    obtain ⟨declared, hdeclared, hlinks⟩ := hto.exists_stage hs
    refine ⟨hlinks.closed hdeclared, ?_⟩
    rw [hlinks.names]
    exact hn declared (List.mem_of_getElem? hdeclared)
  refine ⟨fun ordered ho s stage hs => ?_, fun e ho => ?_⟩
  · exact Linked.isLeast_of_order (fun stage hm => (hlinks stage hm).1) ho hs
  · exact Linked.tellsCycle_of_order (fun stage hm => (hlinks stage hm).1) (fun stage hm => (hlinks stage hm).2) ho

/-- Two actions, of which the first depends on the second, and the second on these. -/
def firstAfterSecond (dependsOn : List DependencyName) : List Stage :=
  [⟨"S", none, [{ sourceAction with name := "A", dependsOn := [⟨none, "B"⟩], outputs := [] },
    { sourceAction with name := "B", dependsOn := dependsOn, outputs := [], runOrder := some 3 }], []⟩]

theorem nodup_firstAfterSecond (dependsOn : List DependencyName) :
    ∀ stage ∈ firstAfterSecond dependsOn, (stage.actions.map Action.name).Nodup := by
  intro stage hs
  obtain rfl := List.mem_singleton.mp hs
  simp [sourceAction]

theorem isLeast_firstAfterSecond :
    (∃ r l c ordered, register (firstAfterSecond []) = .ok r ∧ r.link {} = .ok (l, c) ∧ l.order = .ok ordered ∧
      ∃ stage made, l.stages[0]? = some stage ∧ stage.IsLeast (Linked.ordersOf made) ∧
        Linked.ordersOf made 1 = 3 ∧ Linked.ordersOf made 0 = 4) ∧
    ∃ r l c, register (firstAfterSecond [⟨none, "A"⟩]) = .ok r ∧ r.link {} = .ok (l, c) ∧
      l.order = .error (.circularDependency "S" ["A", "B", "A"]) ∧
      ∃ stage ∈ l.stages, stage.TellsCycle ["A", "B", "A"] := by
  constructor
  · obtain ⟨hleast, -⟩ := Registered.isLeast_and_tellsCycle_of_link (nodup_firstAfterSecond []) rfl
      (rfl : Registered.link _ {} = _)
    obtain ⟨made, _, _, _, _, hleast⟩ := hleast _ rfl 0 _ rfl
    refine ⟨_, _, _, _, rfl, rfl, rfl, _, made, rfl, ?_⟩
    have hsecond : Linked.ordersOf made 1 = 3 := hleast.eq 1 (by decide)
    have hfirst : Linked.ordersOf made 0 = max 1 (1 + Linked.ordersOf made 1) := hleast.eq 0 (by decide)
    rw [hsecond] at hfirst
    exact ⟨hleast, hsecond, hfirst⟩
  · obtain ⟨-, hcycle⟩ := Registered.isLeast_and_tellsCycle_of_link (nodup_firstAfterSecond [⟨none, "A"⟩]) rfl
      (rfl : Registered.link _ {} = _)
    refine ⟨_, _, _, rfl, rfl, rfl, ?_⟩
    obtain ⟨stage, hs, chain, he, htells⟩ := (hcycle _ rfl).resolve_right (nomatch ·.1)
    obtain ⟨-, rfl⟩ := Error.circularDependency.inj he
    exact ⟨stage, hs, htells⟩

/-! ## Run orders that overflow -/

/-- Stages without cycles are put in order if and only if all their chains fit. In each of them the actions' run orders
then increase along every dependency, and each is the largest that a chain asks for. Where some chain does not fit,
there is no run order for one of its actions, and the sum overflows. -/
theorem Linked.increasing_or_overflow_of_acyclic {l : Linked} (hc : ∀ stage ∈ l.stages, stage.Closed)
    (ha : ∀ stage ∈ l.stages, ∀ i, ¬ Relation.TransGen stage.After i i) :
    (∀ ordered, l.order = .ok ordered → ∀ s stage, l.stages[s]? = some stage →
      ∃ orders o, stage.runOrders = .ok orders ∧ (∀ i < stage.actions.length, i ∈ Table.keys orders) ∧
        ordered[s]? = some o ∧ (l.assign s stage orders).Perm o.actions ∧
        stage.Increasing orders ∧ stage.Longest orders) ∧
    ((∃ ordered, l.order = .ok ordered) ↔ ∀ stage ∈ l.stages, stage.Fits) ∧
    (l.order = .error .overflow ↔ ∃ stage ∈ l.stages, ¬ stage.Fits) := by
  have hok : (∃ ordered, l.order = .ok ordered) ↔ ∀ stage ∈ l.stages, stage.Fits := by
    refine order_eq_ok_iff.trans (forall₂_congr fun stage hm => ?_)
    exact (LinkedStage.runOrders_eq_ok_iff (hc stage hm)).trans (and_iff_right (ha stage hm))
  refine ⟨fun ordered h s stage hs => ?_, hok, fun h => ?_, ?_⟩
  · obtain ⟨o, ho, horder⟩ := Outcome.exists_right (Outcome.mapM_eq_ok.mp h) (Outcome.getElem?_zipIdx_of hs)
    obtain ⟨_, _, _, ⟨orders, hrun, rfl⟩, hperm⟩ := assigns_of_orderStage horder
    obtain ⟨hf, hall⟩ := LinkedStage.filled_of_runOrders (hc stage (List.mem_of_getElem? hs)) hrun
    exact ⟨orders, o, hrun, hall, ho, hperm, hf.increasing hall, hf.longest⟩
  · obtain ⟨stage, hm, hfails⟩ := fails_of_order hc h
    exact ⟨stage, hm, (hfails.of_acyclic (ha stage hm)).2⟩
  · rintro ⟨stage, hm, hfits⟩
    cases h : l.order with
    | ok ordered => exact absurd (hok.mp ⟨ordered, h⟩ stage hm) hfits
    | error e =>
        obtain ⟨stage', hm', hfails⟩ := fails_of_order hc h
        rw [(hfails.of_acyclic (ha stage' hm')).1]

/-- A linked stage with two actions, of which the first runs after the second. -/
def twoActionsLinked : LinkedStage := ⟨"S", none, [], [⟨buildAction, [1]⟩, ⟨sourceAction, []⟩]⟩

theorem after_twoActionsLinked {i j : Nat} (h : twoActionsLinked.After i j) : i = 0 ∧ j = 1 := by
  match i with
  | 0 => exact ⟨rfl, List.mem_singleton.mp h⟩
  | 1 | _ + 2 => cases h

theorem increasing_twoActionsLinked :
    twoActionsLinked.Closed ∧ (∀ i, ¬ Relation.TransGen twoActionsLinked.After i i) ∧ twoActionsLinked.Fits ∧
      ∃ orders, twoActionsLinked.runOrders = .ok orders ∧ twoActionsLinked.Increasing orders := by
  have hc : twoActionsLinked.Closed := by
    intro i j h
    rw [(after_twoActionsLinked h).2]
    decide
  have ha : ∀ i, ¬ Relation.TransGen twoActionsLinked.After i i := by
    refine not_transGen_self (f := fun i => 1 - i) fun i j h => ?_
    obtain ⟨rfl, rfl⟩ := after_twoActionsLinked h
    exact Nat.zero_lt_one
  obtain ⟨hincreasing, hok, -⟩ := Linked.increasing_or_overflow_of_acyclic (l := ⟨[twoActionsLinked], {}⟩)
    (fun stage hm => List.mem_singleton.mp hm ▸ hc) (fun stage hm => List.mem_singleton.mp hm ▸ ha)
  obtain ⟨orders, _, hrun, _, _, _, hinc, _⟩ := hincreasing _ rfl 0 twoActionsLinked rfl
  exact ⟨hc, ha, hok.mp ⟨_, rfl⟩ _ List.mem_cons_self, orders, hrun, hinc⟩

/-- Its second action runs after the first, which asks for the largest run order, and gets none. -/
theorem overflow_largestFirstLinked :
    Stage.readAll "pipeline 'P'" {} largestFirst = .ok (largestFirstRead, {}) ∧
      ∃ r l c stage, register largestFirstRead = .ok r ∧ r.link {} = .ok (l, c) ∧ l.stages = [stage] ∧
        (∀ i, ¬ Relation.TransGen stage.After i i) ∧ stage.After 1 0 ∧ l.order = .error .overflow := by
  refine ⟨by rfl, _, _, _, _, rfl, rfl, rfl, ?_, List.mem_singleton.mpr rfl, rfl⟩
  refine not_transGen_self (f := id) fun i j h => ?_
  match i with
  | 0 | _ + 2 => cases h
  | 1 => exact List.mem_singleton.mp h ▸ Nat.zero_lt_one

end Shorthand.Pipeline
