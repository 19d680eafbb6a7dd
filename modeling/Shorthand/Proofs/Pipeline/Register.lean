import Shorthand.Pipeline.Graph
import Shorthand.Proofs.Outcome
import Shorthand.Proofs.Table

/-!
# What actions lay claim to

Artifacts and namespaces are claimed by actions in the order of their positions. Every claim is granted if
and only if no two of them are for the same name.
-/
namespace Shorthand.Pipeline

/-! ## Positions -/

/-- Which stage and which action a position belongs to. -/
structure At (stages : List Stage) (id : ActionId) (stage : Stage) (action : Action) : Prop where
  hs : stages[id.stage]? = some stage
  ha : stage.actions[id.index]? = some action

theorem At.unique {stages : List Stage} {id : ActionId} {stage stage' : Stage} {action action' : Action}
    (h : At stages id stage action) (h' : At stages id stage' action') : stage = stage' ∧ action = action' := by
  obtain rfl := Option.some.inj (h.hs.symm.trans h'.hs)
  exact ⟨rfl, Option.some.inj (h.ha.symm.trans h'.ha)⟩

/-- The names that the actions of a stage lay claim to, with their positions. -/
def claimsOf (names : Action → List String) (s : Nat) (stage : Stage) : List (String × ActionId) :=
  stage.actions.zipIdx.flatMap fun (action, i) => (names action).map (·, ⟨s, i⟩)

/-- The same for stages, of which the first is in this position. -/
def claims (names : Action → List String) (first : Nat) (stages : List Stage) : List (String × ActionId) :=
  (stages.zipIdx first).flatMap fun (stage, s) => claimsOf names s stage

variable {names : Action → List String}

theorem claims_cons (first : Nat) (stage : Stage) (stages : List Stage) :
    claims names first (stage :: stages) = claimsOf names first stage ++ claims names (first + 1) stages :=
  rfl

theorem mem_claimsOf {s : Nat} {stage : Stage} {x : String} {id : ActionId} :
    (x, id) ∈ claimsOf names s stage ↔
      id.stage = s ∧ ∃ action, stage.actions[id.index]? = some action ∧ x ∈ names action := by
  simp only [claimsOf, List.mem_flatMap, List.mem_map, Prod.exists, List.mk_mem_zipIdx_iff_getElem?,
    Prod.mk.injEq]
  constructor
  · rintro ⟨action, i, ha, y, hy, rfl, rfl⟩
    exact ⟨rfl, action, ha, hy⟩
  · rintro ⟨rfl, action, ha, hx⟩
    exact ⟨action, id.index, ha, x, hx, rfl, rfl⟩

theorem mem_claims {first : Nat} {stages : List Stage} {x : String} {id : ActionId} :
    (x, id) ∈ claims names first stages ↔ first ≤ id.stage ∧
      ∃ stage action, stages[id.stage - first]? = some stage ∧ stage.actions[id.index]? = some action ∧
        x ∈ names action := by
  simp only [claims, List.mem_flatMap, Prod.exists, List.mk_mem_zipIdx_iff_le_and_getElem?_sub, mem_claimsOf]
  constructor
  · rintro ⟨stage, s, ⟨hle, hs⟩, rfl, action, ha, hx⟩
    exact ⟨hle, stage, action, hs, ha, hx⟩
  · rintro ⟨hle, stage, action, hs, ha, hx⟩
    exact ⟨stage, id.stage, ⟨hle, hs⟩, rfl, action, ha, hx⟩

/-- An action at this position lays claim to a name. -/
def Claims (names : Action → List String) (stages : List Stage) (id : ActionId) (x : String) : Prop :=
  ∃ stage action, At stages id stage action ∧ x ∈ names action

theorem mem_claims_zero {stages : List Stage} {x : String} {id : ActionId} :
    (x, id) ∈ claims names 0 stages ↔ Claims names stages id x := by
  rw [mem_claims]
  constructor
  · rintro ⟨_, stage, action, hs, ha, hx⟩
    exact ⟨stage, action, ⟨hs, ha⟩, hx⟩
  · rintro ⟨stage, action, ⟨hs, ha⟩, hx⟩
    exact ⟨Nat.zero_le _, stage, action, hs, ha, hx⟩

theorem mem_keys_claims_take {stages : List Stage} {n : Nat} {x : String} :
    x ∈ Table.keys (claims names 0 (stages.take n)) ↔ ∃ id, Claims names stages id x ∧ id.stage < n := by
  rw [Table.keys, List.mem_map]
  constructor
  · rintro ⟨⟨x, id⟩, hm, rfl⟩
    obtain ⟨stage, action, ⟨hs, ha⟩, hx⟩ := mem_claims_zero.mp hm
    rw [List.getElem?_take] at hs
    split at hs
    · rename_i hlt
      exact ⟨id, ⟨stage, action, ⟨hs, ha⟩, hx⟩, hlt⟩
    · cases hs
  · rintro ⟨id, ⟨stage, action, ⟨hs, ha⟩, hx⟩, hlt⟩
    refine ⟨(x, id), mem_claims_zero.mpr ⟨stage, action, ⟨?_, ha⟩, hx⟩, rfl⟩
    rw [List.getElem?_take_of_lt hlt, hs]

theorem pairwise_zipIdx {α : Type} (l : List α) (n : Nat) :
    (l.zipIdx n).Pairwise fun a b => a.2 ≠ b.2 := by
  have h : ((l.zipIdx n).map Prod.snd).Nodup := by
    rw [List.zipIdx_map_snd]
    exact List.nodup_range'
  exact List.pairwise_map.mp h

theorem nodup_claimsOf {s : Nat} {stage : Stage} (h : ∀ action ∈ stage.actions, (names action).Nodup) :
    (claimsOf names s stage).Nodup := by
  refine List.nodup_flatMap.mpr ⟨fun a ha => ?_, (pairwise_zipIdx stage.actions 0).imp ?_⟩
  · exact (h a.1 (List.fst_mem_of_mem_zipIdx ha)).map fun _ _ he => (Prod.mk.inj he).1
  · intro a b hab
    refine List.disjoint_left.mpr fun e he he' => hab ?_
    obtain ⟨_, _, rfl⟩ := List.mem_map.mp he
    obtain ⟨_, _, he'⟩ := List.mem_map.mp he'
    exact (ActionId.mk.inj (Prod.mk.inj he').2).2.symm

theorem nodup_claims {first : Nat} {stages : List Stage}
    (h : ∀ stage ∈ stages, ∀ action ∈ stage.actions, (names action).Nodup) :
    (claims names first stages).Nodup := by
  refine List.nodup_flatMap.mpr ⟨fun a ha => ?_, (pairwise_zipIdx stages first).imp ?_⟩
  · exact nodup_claimsOf (h a.1 (List.fst_mem_of_mem_zipIdx ha))
  · intro a b hab
    refine List.disjoint_left.mpr fun (x, id) he he' => hab ?_
    exact (mem_claimsOf.mp he).1.symm.trans (mem_claimsOf.mp he').1

theorem keys_claimsOf (s : Nat) (stage : Stage) :
    Table.keys (claimsOf names s stage) = stage.actions.flatMap names := by
  rw [Table.keys, claimsOf, List.map_flatMap]
  conv_rhs => rw [← List.zipIdx_map_fst 0 stage.actions, List.flatMap_map]
  refine List.flatMap_congr fun a _ => ?_
  rw [List.map_map]
  exact List.map_id _

/-- All names that are claimed, in order. -/
theorem keys_claims (first : Nat) (stages : List Stage) :
    Table.keys (claims names first stages) = stages.flatMap fun stage => stage.actions.flatMap names := by
  rw [Table.keys, claims, List.map_flatMap]
  conv_rhs => rw [← List.zipIdx_map_fst first stages, List.flatMap_map]
  exact List.flatMap_congr fun a _ => keys_claimsOf a.2 a.1

theorem claims_unique {stages : List Stage} (h : (Table.keys (claims names 0 stages)).Nodup) {x : String}
    {id id' : ActionId} (hid : Claims names stages id x) (hid' : Claims names stages id' x) : id = id' :=
  (Prod.mk.inj (List.inj_on_of_nodup_map h (mem_claims_zero.mpr hid) (mem_claims_zero.mpr hid') rfl)).2

/-- Names are claimed once, if no action lists one twice and no two actions list the same. -/
theorem nodup_keys_claims {stages : List Stage}
    (h : ∀ stage ∈ stages, ∀ action ∈ stage.actions, (names action).Nodup) :
    (Table.keys (claims names 0 stages)).Nodup ↔
      ∀ x id id', Claims names stages id x → Claims names stages id' x → id = id' := by
  constructor
  · intro hn x id id'
    exact claims_unique hn
  · intro hone
    refine (nodup_claims h).map_on ?_
    rintro ⟨x, id⟩ hm ⟨x', id'⟩ hm' (rfl : x = x')
    rw [hone x id id' (mem_claims_zero.mp hm) (mem_claims_zero.mp hm')]

/-! ## Artifacts -/

namespace Producers

theorem addOutputs_eq_ok {stages : List Stage} {context : String} {id : ActionId} {artifacts : List String}
    {ps ps' : Producers} (hn : (Table.keys ps).Nodup) :
    addOutputs stages context id artifacts ps = .ok ps' ↔
      ps' = ps ++ artifacts.map (·, id) ∧ (Table.keys ps').Nodup := by
  induction artifacts generalizing ps with
  | nil =>
      simp only [addOutputs, Except.ok.injEq, List.map_nil, List.append_nil]
      constructor
      · rintro rfl
        exact ⟨rfl, hn⟩
      · rintro ⟨rfl, _⟩
        rfl
  | cons x artifacts ih =>
      rw [addOutputs]
      cases hg : Table.get? ps x with
      | some other =>
          have hx : x ∈ Table.keys ps := Table.mem_keys_of_get? hg
          simp only [reduceCtorEq, false_iff, not_and]
          rintro rfl hnd
          rw [Table.keys, List.map_append, List.nodup_append'] at hnd
          exact hnd.2.2 hx List.mem_cons_self
      | none =>
          have hx : x ∉ Table.keys ps := Table.get?_eq_none_iff.mp hg
          have hn' : (Table.keys (ps ++ [(x, id)])).Nodup := by
            rw [Table.keys, List.map_append]
            exact nodup_snoc hn hx
          rw [ih hn', List.append_assoc, List.map_cons]
          rfl

theorem checkInputs_eq_ok {ps : Producers} {context : String} {artifacts : List String} :
    checkInputs ps context artifacts = .ok () ↔ ∀ x ∈ artifacts, x ∈ Table.keys ps := by
  induction artifacts with
  | nil => simp [checkInputs]
  | cons x artifacts ih =>
      rw [checkInputs]
      split
      · rename_i hx
        rw [ih, List.forall_mem_cons]
        exact ⟨fun h => ⟨Table.has_iff_mem_keys.mp hx, h⟩, And.right⟩
      · rename_i hx
        rw [List.forall_mem_cons]
        exact ⟨fun h => (by cases h), fun h => absurd (Table.has_iff_mem_keys.mpr h.1) hx⟩

theorem foldlM_addOutputs_eq_ok {stages : List Stage} {stage : Stage} {s : Nat}
    {actions : List (Action × Nat)} {ps ps' : Producers} (hn : (Table.keys ps).Nodup) :
    actions.foldlM (fun ps (action, i) =>
        addOutputs stages (placeName stage.name action.name) ⟨s, i⟩ action.outputs ps) ps = .ok ps' ↔
      ps' = ps ++ (actions.flatMap fun (action, i) => action.outputs.map (·, ⟨s, i⟩)) ∧
        (Table.keys ps').Nodup := by
  induction actions generalizing ps with
  | nil =>
      simp only [List.foldlM_nil, Outcome.pure_eq_ok, List.flatMap_nil, List.append_nil]
      constructor
      · rintro rfl
        exact ⟨rfl, hn⟩
      · rintro ⟨rfl, _⟩
        rfl
  | cons a actions ih =>
      simp only [List.foldlM_cons, Outcome.bind_eq_ok, List.flatMap_cons]
      constructor
      · rintro ⟨ps₁, h₁, h⟩
        obtain ⟨rfl, hn₁⟩ := (addOutputs_eq_ok hn).mp h₁
        rw [← List.append_assoc]
        exact (ih hn₁).mp h
      · rintro ⟨he, hnd⟩
        rw [← List.append_assoc] at he
        have hn₁ : (Table.keys (ps ++ a.1.outputs.map (·, (⟨s, a.2⟩ : ActionId)))).Nodup := by
          rw [he, Table.keys, List.map_append] at hnd
          exact hnd.of_append_left
        exact ⟨_, (addOutputs_eq_ok hn).mpr ⟨rfl, hn₁⟩, (ih hn₁).mpr ⟨he, hnd⟩⟩

theorem forM_checkInputs_eq_ok {ps : Producers} {context : Action → String} {actions : List Action} :
    (actions.forM fun action => checkInputs ps (context action) action.inputs) = .ok () ↔
      ∀ action ∈ actions, ∀ x ∈ action.inputs, x ∈ Table.keys ps := by
  rw [List.forM_eq_forM]
  induction actions with
  | nil => simp [pure, Except.pure]
  | cons action actions ih =>
      simp only [List.forM_cons, Outcome.bind_eq_ok, List.forall_mem_cons, ih]
      constructor
      · rintro ⟨_, h, hs⟩
        exact ⟨checkInputs_eq_ok.mp h, hs⟩
      · rintro ⟨h, hs⟩
        exact ⟨(), checkInputs_eq_ok.mpr h, hs⟩

theorem addStage_eq_ok {stages : List Stage} {stage : Stage} {s : Nat} {ps ps' : Producers}
    (hn : (Table.keys ps).Nodup) :
    addStage stages ps stage s = .ok ps' ↔
      ps' = ps ++ claimsOf Action.outputs s stage ∧ (Table.keys ps').Nodup ∧
        ∀ action ∈ stage.actions, ∀ x ∈ action.inputs, x ∈ Table.keys ps' := by
  simp only [addStage, Outcome.bind_eq_ok]
  constructor
  · rintro ⟨ps₁, h₁, _, h₂, h⟩
    obtain rfl := Except.ok.inj h
    obtain ⟨he, hnd⟩ := (foldlM_addOutputs_eq_ok hn).mp h₁
    exact ⟨he, hnd, forM_checkInputs_eq_ok.mp h₂⟩
  · rintro ⟨he, hnd, hin⟩
    exact ⟨ps', (foldlM_addOutputs_eq_ok hn).mpr ⟨he, hnd⟩, (), forM_checkInputs_eq_ok.mpr hin, rfl⟩

theorem foldlM_addStage_eq_ok {all stages : List Stage} {first : Nat} {ps ps' : Producers}
    (hn : (Table.keys ps).Nodup) :
    (stages.zipIdx first).foldlM (fun ps (stage, s) => addStage all ps stage s) ps = .ok ps' ↔
      ps' = ps ++ claims Action.outputs first stages ∧ (Table.keys ps').Nodup ∧
        ∀ k stage, stages[k]? = some stage → ∀ action ∈ stage.actions, ∀ x ∈ action.inputs,
          x ∈ Table.keys (ps ++ claims Action.outputs first (stages.take (k + 1))) := by
  induction stages generalizing first ps with
  | nil =>
      simp only [List.zipIdx_nil, List.foldlM_nil, Outcome.pure_eq_ok, claims, List.flatMap_nil,
        List.append_nil, List.getElem?_nil, reduceCtorEq, false_implies, implies_true, and_true]
      constructor
      · rintro rfl
        exact ⟨rfl, hn⟩
      · rintro ⟨rfl, _⟩
        rfl
  | cons stage stages ih =>
      simp only [List.zipIdx_cons, List.foldlM_cons, Outcome.bind_eq_ok, claims_cons, ← List.append_assoc]
      constructor
      · rintro ⟨ps₁, h₁, h⟩
        obtain ⟨rfl, hn₁, hin⟩ := (addStage_eq_ok hn).mp h₁
        obtain ⟨he, hnd, hrest⟩ := (ih hn₁).mp h
        refine ⟨he, hnd, fun k stage' hk => ?_⟩
        cases k with
        | zero =>
            obtain rfl := Option.some.inj hk
            rw [List.take_succ_cons, claims_cons, List.take_zero]
            simpa [claims] using hin
        | succ k =>
            rw [List.take_succ_cons, claims_cons, ← List.append_assoc]
            exact hrest k stage' hk
      · rintro ⟨he, hnd, hin⟩
        have hn₁ : (Table.keys (ps ++ claimsOf Action.outputs first stage)).Nodup := by
          rw [he, Table.keys, List.map_append] at hnd
          exact hnd.of_append_left
        refine ⟨_, (addStage_eq_ok hn).mpr ⟨rfl, hn₁, ?_⟩, (ih hn₁).mpr ⟨he, hnd, fun k stage' hk => ?_⟩⟩
        · have := hin 0 stage rfl
          rw [List.take_succ_cons, claims_cons, List.take_zero] at this
          simpa [claims] using this
        · have := hin (k + 1) stage' hk
          rw [List.take_succ_cons, claims_cons, ← List.append_assoc] at this
          exact this

/-- The producers are all claims for outputs. They are found if and only if no artifact is put out twice
and each input is put out by the same or an earlier stage. -/
theorem ofStages_eq_ok {stages : List Stage} {ps : Producers} :
    ofStages stages = .ok ps ↔
      ps = claims Action.outputs 0 stages ∧ (Table.keys ps).Nodup ∧
        ∀ id x, Claims Action.inputs stages id x →
          ∃ id', Claims Action.outputs stages id' x ∧ id'.stage ≤ id.stage := by
  have hnil : (Table.keys ([] : Producers)).Nodup := List.nodup_nil
  rw [ofStages, foldlM_addStage_eq_ok hnil, List.nil_append]
  refine and_congr_right fun _ => and_congr_right fun _ => ?_
  simp only [List.nil_append, mem_keys_claims_take]
  constructor
  · rintro h id x ⟨stage, action, hat, hx⟩
    obtain ⟨id', hid, hlt⟩ := h id.stage stage hat.hs action (List.mem_of_getElem? hat.ha) x hx
    exact ⟨id', hid, Nat.lt_succ_iff.mp hlt⟩
  · intro h s stage hs action ha x hx
    obtain ⟨i, hi⟩ := List.getElem?_of_mem ha
    obtain ⟨id', hid, hle⟩ := h ⟨s, i⟩ x ⟨stage, action, ⟨hs, hi⟩, hx⟩
    exact ⟨id', hid, Nat.lt_succ_iff.mpr hle⟩

end Producers

/-! ## Namespaces -/

namespace Registered

/-- The namespace that an action asks for. -/
def asked (action : Action) : List String := action.ownNamespace.toList

/-- What is known after these claims were granted. -/
structure Issued (ns : Namespaces) (new : List (String × ActionId)) (ns' : Namespaces) : Prop where
  issued : ns'.issued = ns.issued ++ Table.keys new
  nodup : ns'.issued.Nodup
  assigned : ns'.assigned = Table.putAll ns.assigned (new.map Prod.swap)

/-- A step that grants these claims, and fails only if one of the names is taken. -/
structure Issues (step : Namespaces → Except Error Namespaces) (new : List (String × ActionId)) : Prop where
  issued : ∀ {ns ns'}, ns.issued.Nodup → step ns = .ok ns' → Issued ns new ns'
  granted : ∀ ns, (ns.issued ++ Table.keys new).Nodup → ∃ ns', step ns = .ok ns'

theorem Issues.nil : Issues .ok [] := by
  refine ⟨fun hn he => ?_, fun ns _ => ⟨ns, rfl⟩⟩
  obtain rfl := Except.ok.inj he
  exact ⟨(List.append_nil _).symm, hn, rfl⟩

theorem Issues.foldlM {α : Type} {step : Namespaces → α → Except Error Namespaces}
    {new : α → List (String × ActionId)} (h : ∀ a, Issues (step · a) (new a)) (as : List α) :
    Issues (as.foldlM step) (as.flatMap new) := by
  induction as with
  | nil => exact .nil
  | cons a as ih =>
      have hkeys : Table.keys ((a :: as).flatMap new) = Table.keys (new a) ++ Table.keys (as.flatMap new) := by
        rw [List.flatMap_cons, Table.keys, List.map_append]
        rfl
      refine ⟨fun {ns ns'} hn he => ?_, fun ns hn => ?_⟩
      · obtain ⟨ns₁, h₁, he⟩ := Outcome.bind_eq_ok.mp he
        have hfirst := (h a).issued hn h₁
        have hrest := ih.issued hfirst.nodup he
        refine ⟨by rw [hrest.issued, hfirst.issued, hkeys, List.append_assoc], hrest.nodup, ?_⟩
        rw [hrest.assigned, hfirst.assigned, List.flatMap_cons, List.map_append, Table.putAll, Table.putAll,
          Table.putAll, List.foldl_append]
      · rw [hkeys, ← List.append_assoc] at hn
        obtain ⟨ns₁, h₁⟩ := (h a).granted ns hn.of_append_left
        rw [← ((h a).issued hn.of_append_left.of_append_left h₁).issued] at hn
        obtain ⟨ns', h'⟩ := ih.granted ns₁ hn
        exact ⟨ns', Outcome.bind_eq_ok.mpr ⟨ns₁, h₁, h'⟩⟩

theorem issues_declare (context : String) (id : ActionId) (name : String) :
    Issues (·.declare context id name) [(name, id)] := by
  refine ⟨fun {ns ns'} hn he => ?_, fun ns hn => ?_⟩
  · rw [Namespaces.declare] at he
    split at he
    · cases he
    · rename_i hc
      obtain rfl := Except.ok.inj he
      rw [List.contains_iff_mem] at hc
      exact ⟨rfl, nodup_snoc hn hc, rfl⟩
  · have hc : name ∉ ns.issued := List.disjoint_singleton.mp (List.nodup_append'.mp hn).2.2
    exact ⟨_, by rw [Namespaces.declare, if_neg (by simpa using hc)]⟩

theorem issues_action (context : String) (id : ActionId) (action : Action) :
    Issues (fun ns => match action.ownNamespace with
      | some name => ns.declare context id name
      | none => .ok ns) ((asked action).map (·, id)) := by
  rw [asked]
  cases action.ownNamespace with
  | some name => exact issues_declare context id name
  | none => exact .nil

/-- Reserving grants all claims for namespaces, one after another. -/
theorem issues_declareNamespaces (stages : List Stage) :
    Issues (fun ns => stages.zipIdx.foldlM (fun ns (stage, s) => stage.actions.zipIdx.foldlM
      (fun ns (action, i) => match action.ownNamespace with
        | some name => ns.declare (placeName stage.name action.name) ⟨s, i⟩ name
        | none => .ok ns) ns) ns) (claims asked 0 stages) :=
  .foldlM (fun a => .foldlM (fun b => issues_action (placeName a.1.name b.1.name) ⟨a.2, b.2⟩ b.1) a.1.actions.zipIdx)
    stages.zipIdx

theorem issued_of_declareNamespaces {stages : List Stage} {ns : Namespaces}
    (h : declareNamespaces stages = .ok ns) : Issued {} (claims asked 0 stages) ns :=
  (issues_declareNamespaces stages).issued List.nodup_nil h

/-- Namespaces are reserved if and only if no two actions ask for the same. -/
theorem declareNamespaces_eq_ok {stages : List Stage} :
    (∃ ns, declareNamespaces stages = .ok ns) ↔ (Table.keys (claims asked 0 stages)).Nodup := by
  constructor
  · rintro ⟨ns, h⟩
    have hissued := issued_of_declareNamespaces h
    have hn := hissued.nodup
    rw [hissued.issued] at hn
    exact hn
  · intro hn
    exact (issues_declareNamespaces stages).granted {} hn

end Registered
end Shorthand.Pipeline
