import Shorthand.Expansion
import Shorthand.Proofs.Import
import Shorthand.Proofs.Table
import Shorthand.Proofs.Walk

/-!
# The chain of all resolvers

What the resolvers of APIs, matrices and imports make of one call, each after the other, and why the walk
through a tree ends with them.
-/
namespace Shorthand

/-! ## References of matrices -/

namespace Matrices

/-- What the matrices make of a call: positions for a matrix as a whole, else what their symbol table
makes of it. -/
inductive Rewrites (ms : Matrices) : String → Node → Node → Prop
  | length {s : String} {n : Nat} (h : MatrixReference.claims s = true) :
      Rewrites ms Call.length (.text s) (.call Call.length (.list ((List.range n).map Node.whole)))
  | symbols {name : String} {arg out : Node}
      (hl : ∀ s, name = Call.length → arg = .text s → MatrixReference.claims s = false)
      (h : ms.symbols.Rewrites name arg out) : Rewrites ms name arg out

theorem length_eq_ok {ms : Matrices} {s : String} {out : Node} (h : ms.length s = .ok out) :
    ∃ n, out = .call Call.length (.list ((List.range n).map Node.whole)) := by
  rw [length, Outcome.bind_eq_ok] at h
  obtain ⟨ref, _, h⟩ := h
  split at h
  · simp [bind, Except.bind] at h
  · simp only [Outcome.bind_eq_ok, Except.ok.injEq] at h
    obtain ⟨matrix, _, rfl⟩ := h
    exact ⟨_, rfl⟩

theorem rewrites_of_expand {ms : Matrices} {name : String} {arg out : Node}
    (h : ms.expand name arg = .ok out) : ms.Rewrites name arg out := by
  unfold expand at h
  split at h
  · rename_i s
    split at h
    · rename_i hc
      obtain ⟨rfl, hc⟩ := hc
      obtain ⟨n, rfl⟩ := length_eq_ok h
      exact .length hc
    · rename_i hc
      refine .symbols ?_ (SymbolTable.rewrites_of_rewriteCall h)
      rintro s' rfl hs
      cases hs
      simpa using hc
  · rename_i hs
    exact .symbols (fun s _ ha => absurd ha (hs s)) (SymbolTable.rewrites_of_rewriteCall h)

theorem Rewrites.isCall {ms : Matrices} {name : String} {arg out : Node} (h : ms.Rewrites name arg out) :
    ∃ name' arg', out = .call name' arg' := by
  cases h with
  | length _ => exact ⟨_, _, rfl⟩
  | symbols _ h => exact h.isCall

theorem Rewrites.answer {ms : Matrices} (plain : ∀ {s t}, ms.lookup s = .ok t → t.Plain) {name : String}
    {arg out : Node} (h : ms.Rewrites name arg out) {r : String} (hr : r ∈ out.references) :
    ms.symbols.Answer (Call.references name arg) r := by
  cases h with
  | length _ => exact absurd hr List.not_mem_nil
  | symbols _ h => exact h.answer plain hr

end Matrices

/-! ## One call -/

namespace Expansion
variable {apis : Apis} {ms : Matrices}

/-- A call on its way through the three resolvers. -/
inductive Steps (apis : Apis) (ms : Matrices) (name : String) (arg out : Node) : Prop
  | sub {a₁ a₂ : Node} (h₁ : apis.symbols.Rewrites name arg (.call Call.sub a₁))
      (h₂ : ms.Rewrites Call.sub a₁ (.call Call.sub a₂)) (h₃ : Import.Expands Call.sub a₂ out)
  | other {n₁ n₂ : String} {a₁ a₂ : Node} (h₁ : apis.symbols.Rewrites name arg (.call n₁ a₁))
      (h₂ : ms.Rewrites n₁ a₁ (.call n₂ a₂)) (hn : n₂ ≠ Call.sub) (ho : out = .call n₂ a₂)

theorem apply_cons (r : Resolver) (rs : Chain) (name : String) (arg : Node) :
    Chain.apply (r :: rs) (.call name arg) =
      if r.handles name then r.expand name arg >>= Chain.apply rs else
        Chain.apply rs (.call name arg) := rfl

theorem apis_step {name : String} {arg out : Node} {rs : Chain}
    (h : Chain.apply (apis.resolver :: rs) (.call name arg) = .ok out) :
    ∃ n₁ a₁, apis.symbols.Rewrites name arg (.call n₁ a₁) ∧ Chain.apply rs (.call n₁ a₁) = .ok out := by
  rw [apply_cons] at h
  split at h
  · obtain ⟨node, hr, h⟩ := Outcome.bind_eq_ok.mp h
    have hr := SymbolTable.rewrites_of_rewriteCall hr
    obtain ⟨n₁, a₁, rfl⟩ := hr.isCall
    exact ⟨n₁, a₁, hr, h⟩
  · rename_i hn
    simp only [Apis.resolver, Bool.or_eq_true, beq_iff_eq, not_or] at hn
    refine ⟨name, arg, .kept (fun hs => absurd hs hn.2) ?_, h⟩
    simp [Call.references_of_ne hn.1.1 hn.1.2 hn.2]

theorem matrices_step {name : String} {arg out : Node} {rs : Chain}
    (h : Chain.apply (ms.resolver :: rs) (.call name arg) = .ok out) :
    ∃ n₂ a₂, ms.Rewrites name arg (.call n₂ a₂) ∧ Chain.apply rs (.call n₂ a₂) = .ok out := by
  rw [apply_cons] at h
  split at h
  · obtain ⟨node, hr, h⟩ := Outcome.bind_eq_ok.mp h
    have hr := Matrices.rewrites_of_expand hr
    obtain ⟨n₂, a₂, rfl⟩ := hr.isCall
    exact ⟨n₂, a₂, hr, h⟩
  · rename_i hn
    simp only [Matrices.resolver, Bool.or_eq_true, beq_iff_eq, not_or] at hn
    refine ⟨name, arg, .symbols (fun s hl => absurd hl hn.2) (.kept (fun hs => absurd hs hn.1.2) ?_), h⟩
    simp [Call.references_of_ne hn.1.1.1 hn.1.1.2 hn.1.2]

theorem import_step {name : String} {arg out : Node}
    (h : Chain.apply [Import.resolver] (.call name arg) = .ok out) :
    (name = Call.sub ∧ Import.Expands Call.sub arg out) ∨ (name ≠ Call.sub ∧ out = .call name arg) := by
  rw [apply_cons] at h
  split at h
  · rename_i hn
    obtain ⟨node, hr, ho⟩ := Outcome.bind_eq_ok.mp h
    simp only [Import.resolver, beq_iff_eq] at hn
    subst hn
    simp only [Chain.apply, Except.ok.injEq] at ho
    exact Or.inl ⟨rfl, ho ▸ Import.expands_of_expand hr⟩
  · rename_i hn
    simp only [Import.resolver, beq_iff_eq] at hn
    simp only [Chain.apply, Except.ok.injEq] at h
    exact Or.inr ⟨hn, h.symm⟩

end Expansion

/-- A symbol table makes a substitution of nothing else, and keeps every substitution one. -/
theorem SymbolTable.Rewrites.sub_iff {symbols : SymbolTable} {name name' : String} {arg arg' : Node}
    (h : symbols.Rewrites name arg (.call name' arg')) : name' = Call.sub ↔ name = Call.sub := by
  generalize ho : Node.call name' arg' = out at h
  cases h with
  | kept _ _ => cases ho; rfl
  | @ref s t _ _ =>
      obtain ⟨n, b, hb, hn⟩ := t.toNode_eq_call
      obtain ⟨rfl, _⟩ := Node.call_inj (ho.trans hb)
      rcases hn with rfl | rfl <;> decide
  | named _ _ _ => cases ho; rfl
  | pair _ _ => cases ho; rfl
  | template _ => cases ho; rfl
  | bound _ => cases ho; rfl

theorem Matrices.Rewrites.sub_iff {ms : Matrices} {name name' : String} {arg arg' : Node}
    (h : ms.Rewrites name arg (.call name' arg')) : name' = Call.sub ↔ name = Call.sub := by
  generalize ho : Node.call name' arg' = out at h
  cases h with
  | length _ => cases ho; rfl
  | symbols _ h => exact (ho ▸ h).sub_iff

namespace Expansion
variable {apis : Apis} {ms : Matrices}

theorem steps_of_apply {name : String} {arg out : Node}
    (h : (chain apis ms).apply (.call name arg) = .ok out) : Steps apis ms name arg out := by
  obtain ⟨n₁, a₁, h₁, h⟩ := apis_step h
  obtain ⟨n₂, a₂, h₂, h⟩ := matrices_step h
  rcases import_step h with ⟨rfl, h₃⟩ | ⟨hn, rfl⟩
  · obtain rfl := h₂.sub_iff.mp rfl
    exact .sub h₁ h₂ h₃
  · exact .other h₁ h₂ hn rfl

/-- A call goes through the resolvers, and any other mapping stays. -/
inductive Applies (apis : Apis) (ms : Matrices) (entries : List (String × Node)) (out : Node) : Prop
  | call {name : String} {arg : Node} (he : entries = [(name, arg)]) (h : Steps apis ms name arg out)
  | other (hn : ∀ name arg, entries ≠ [(name, arg)]) (ho : out = .map entries)

theorem applies_of_apply {entries : List (String × Node)} {out : Node}
    (h : (chain apis ms).apply (.map entries) = .ok out) : Applies apis ms entries out := by
  match entries with
  | [(_, _)] => exact .call rfl (steps_of_apply h)
  | [] => exact .other (by simp) (Except.ok.inj h).symm
  | _ :: _ :: _ => exact .other (by simp) (Except.ok.inj h).symm

end Expansion

/-! ## What a call turns into -/

namespace Call

/-- The calls that are rewritten, and those that are put in their place. -/
def rewritten : List String := [ref, getAtt, sub, length]

/-- A call that is rewritten, with one that is put in its place. Neither has a mapping for its argument. -/
structure Rewritten (name : String) (arg : Node) (name' : String) (arg' : Node) : Prop where
  old : name ∈ rewritten
  new : name' ∈ rewritten
  oldArg : arg.isMap = false
  newArg : arg'.isMap = false

/-- A call stays or is rewritten. -/
inductive Turns (name : String) (arg : Node) : String → Node → Prop
  | same : Turns name arg name arg
  | other {name' : String} {arg' : Node} (h : Rewritten name arg name' arg') : Turns name arg name' arg'

theorem Turns.trans {n₁ n₂ n₃ : String} {a₁ a₂ a₃ : Node} (h : Turns n₁ a₁ n₂ a₂) (h' : Turns n₂ a₂ n₃ a₃) :
    Turns n₁ a₁ n₃ a₃ := by
  cases h with
  | same => exact h'
  | other h =>
      cases h' with
      | same => exact .other h
      | other h' => exact .other ⟨h.old, h'.new, h.oldArg, h'.newArg⟩

end Call

theorem Target.isMap_of_toNode {t : Target} {name : String} {arg : Node} (h : t.toNode = .call name arg) :
    arg.isMap = false := by
  cases ha : t.attr <;> rw [Target.toNode, ha] at h <;> cases h <;> rfl

theorem SymbolTable.Rewrites.turns {symbols : SymbolTable} {name name' : String} {arg arg' : Node}
    (h : symbols.Rewrites name arg (.call name' arg')) : Call.Turns name arg name' arg' := by
  generalize ho : Node.call name' arg' = out at h
  cases h with
  | kept _ _ =>
      cases ho
      exact .same
  | @ref s t _ _ =>
      obtain ⟨n, b, hb, hn⟩ := t.toNode_eq_call
      obtain ⟨rfl, rfl⟩ := Node.call_inj (ho.trans hb)
      refine .other ⟨by decide, ?_, rfl, Target.isMap_of_toNode hb⟩
      rcases hn with rfl | rfl <;> decide
  | named _ _ _ =>
      cases ho
      exact .other ⟨by decide, by decide, rfl, rfl⟩
  | pair _ _ =>
      cases ho
      exact .other ⟨by decide, by decide, rfl, rfl⟩
  | template _ =>
      cases ho
      exact .other ⟨by decide, by decide, rfl, rfl⟩
  | bound _ =>
      cases ho
      exact .other ⟨by decide, by decide, rfl, rfl⟩

theorem Matrices.Rewrites.turns {ms : Matrices} {name name' : String} {arg arg' : Node}
    (h : ms.Rewrites name arg (.call name' arg')) : Call.Turns name arg name' arg' := by
  generalize ho : Node.call name' arg' = out at h
  cases h with
  | length _ =>
      cases ho
      exact .other ⟨by decide, by decide, rfl, rfl⟩
  | symbols _ h => exact (ho ▸ h).turns

theorem Import.Expands.turns {arg arg' : Node} (h : Import.Expands Call.sub arg (.call Call.sub arg')) :
    Call.Turns Call.sub arg Call.sub arg' := by
  have left : ∀ {t bindings}, Import.parts? arg = some (t, bindings) → arg.isMap = false := by
    intro t bindings hp
    rcases Import.parts?_eq_some hp with ⟨rfl, _⟩ | rfl <;> rfl
  generalize ho : Node.call Call.sub arg' = out at h
  cases h with
  | other _ =>
      cases ho
      exact .same
  | free hp _ =>
      cases ho
      refine .other ⟨by decide, by decide, left hp, ?_⟩
      split <;> rfl
  | bound hp _ _ _ =>
      cases ho
      exact .other ⟨by decide, by decide, left hp, rfl⟩

theorem Expansion.Steps.turns {apis : Apis} {ms : Matrices} {name : String} {arg out : Node}
    (h : Steps apis ms name arg out) : ∃ name' arg', out = .call name' arg' ∧ Call.Turns name arg name' arg' := by
  cases h with
  | sub h₁ h₂ h₃ =>
      obtain ⟨a, rfl⟩ := h₃.isCall
      exact ⟨_, _, rfl, (h₁.turns.trans h₂.turns).trans h₃.turns⟩
  | other h₁ h₂ _ ho => exact ⟨_, _, ho, h₁.turns.trans h₂.turns⟩

/-- A mapping stays, or it is a call that is rewritten. -/
theorem Expansion.eq_or_rewritten_of_apply {apis : Apis} {ms : Matrices} {entries : List (String × Node)} {out : Node}
    (h : (chain apis ms).apply (.map entries) = .ok out) :
    out = .map entries ∨ ∃ name arg name' arg', entries = [(name, arg)] ∧ out = .call name' arg' ∧
      Call.Rewritten name arg name' arg' := by
  cases applies_of_apply h with
  | call he hs =>
      subst he
      obtain ⟨name', arg', rfl, ht⟩ := hs.turns
      cases ht with
      | same => exact .inl rfl
      | other hr => exact .inr ⟨_, _, _, _, rfl, rfl, hr⟩
  | other _ ho => exact .inl ho

/-! ## The walk ends -/

theorem Node.rank_pair (a b : String) : (Node.list [.text a, .text b]).rank = 1 := by
  simp [Node.rank, Node.rankOfItems]

theorem Node.rank_template (a b : String) (rest : List Node) :
    (Node.list (.text a :: rest)).rank = (Node.list (.text b :: rest)).rank := by
  simp [Node.rank, Node.rankOfItems]

theorem Target.rank_of_toNode {t : Target} {name : String} {arg : Node} (h : t.toNode = .call name arg) :
    arg.rank ≤ 1 := by
  cases ha : t.attr with
  | none =>
      rw [Target.toNode, ha] at h
      cases h
      exact Nat.zero_le 1
  | some a =>
      rw [Target.toNode, ha] at h
      cases h
      exact Nat.le_of_eq (Node.rank_pair _ _)

/-- A symbol table puts at most a list of texts where a text was, and in a substitution not even that. -/
theorem SymbolTable.Rewrites.rank {symbols : SymbolTable} {name name' : String} {arg arg' : Node}
    (h : symbols.Rewrites name arg (.call name' arg')) :
    arg'.rank ≤ max arg.rank 1 ∧ (name = Call.sub → arg'.rank = arg.rank) := by
  generalize ho : Node.call name' arg' = out at h
  cases h with
  | kept _ _ =>
      cases ho
      exact ⟨Nat.le_max_left _ _, fun _ => rfl⟩
  | ref _ _ =>
      exact ⟨Nat.le_trans (Target.rank_of_toNode ho.symm) (Nat.le_max_right _ _), fun h => absurd h (by decide)⟩
  | named _ _ _ =>
      cases ho
      exact ⟨Nat.le_trans (Nat.le_of_eq (Node.rank_pair _ _)) (Nat.le_max_right _ _), fun h => absurd h (by decide)⟩
  | pair _ _ =>
      cases ho
      exact ⟨Nat.le_trans (Nat.le_of_eq (Node.rank_pair _ _)) (Nat.le_max_right _ _), fun h => absurd h (by decide)⟩
  | template _ =>
      cases ho
      exact ⟨Nat.zero_le _, fun _ => rfl⟩
  | bound _ =>
      cases ho
      have hr := Node.rank_template
      exact ⟨Nat.le_trans (Nat.le_of_eq (hr _ _ _)) (Nat.le_max_left _ _), fun _ => hr _ _ _⟩

theorem Matrices.Rewrites.rank {ms : Matrices} {name name' : String} {arg arg' : Node}
    (h : ms.Rewrites name arg (.call name' arg')) :
    arg'.rank ≤ max arg.rank 1 ∧ (name = Call.sub → arg'.rank = arg.rank) := by
  generalize ho : Node.call name' arg' = out at h
  cases h with
  | @length s n _ =>
      cases ho
      have hn : Node.rankOfItems ((List.range n).map Node.whole) = 0 := by
        induction List.range n with
        | nil => rfl
        | cons i is ih => simp [Node.rankOfItems, Node.rank, Node.whole, ih]
      refine ⟨?_, fun h => absurd h (by decide)⟩
      rw [Node.rank_list, hn]
      exact Nat.le_max_right _ _
  | symbols _ h => exact (ho ▸ h).rank

namespace Import

theorem nameOf_ne_sub (n : Nat) : nameOf n ≠ Call.sub := by
  intro h
  have hc : ':' ∈ (nameOf n).toList := by rw [h]; decide
  exact absurd (isAlphanum_of_mem_nameOf hc) (by decide)

theorem rank_bindings {entries : List (String × Node)} {n : Nat} (h : nameOf n ∈ Table.keys entries) :
    (Node.map entries).rank = Node.rankOfEntries entries + 2 := by
  match entries with
  | [] => simp [Table.keys] at h
  | [(name, arg)] =>
      have hn : name ≠ Call.sub := by
        have : nameOf n = name := by simpa [Table.keys] using h
        exact this ▸ nameOf_ne_sub n
      simp [Node.rank, Node.rankOfEntries, Node.subReserve, hn]
  | e :: e' :: es => simp [Node.rank]

theorem rankOfEntries_le {entries : List (String × Node)} {k : Nat} (h : ∀ e ∈ entries, e.2.rank ≤ k) :
    Node.rankOfEntries entries ≤ k := by
  induction entries with
  | nil => exact Nat.zero_le k
  | cons e es ih =>
      rw [Node.rankOfEntries]
      exact Nat.max_le.mpr ⟨h e List.mem_cons_self, ih fun e he => h e (List.mem_cons_of_mem _ he)⟩

theorem rank_importCall (e : String) : (Node.call Call.importValue (.text e)).rank = 2 := by
  rw [Node.rank_call]
  rfl

theorem rank_putAll (bindings : Table Node) {imports : Imports} (hm : imports.MadeUp)
    (hne : imports.names ≠ []) :
    (Node.map (Table.putAll bindings
      (imports.names.map fun (n, e) => (n, Node.call Call.importValue (.text e))))).rank ≤
      max (Node.rankOfEntries bindings) 2 + 2 := by
  obtain ⟨first, hf⟩ := List.exists_mem_of_ne_nil _ hne
  obtain ⟨n, hn⟩ := hm first hf
  have hk : nameOf n ∈ Table.keys (imports.names.map fun (n, e) =>
      (n, Node.call Call.importValue (.text e))) := by
    simp only [Table.keys, List.map_map, List.mem_map]
    exact ⟨first, hf, hn⟩
  rw [rank_bindings (Table.mem_keys_putAll.mpr (Or.inr hk))]
  refine Nat.add_le_add_right (rankOfEntries_le fun e he => ?_) 2
  rcases Table.mem_of_mem_putAll he with he | he
  · exact Nat.le_trans (Node.rank_le_rankOfEntries he) (Nat.le_max_left _ _)
  · obtain ⟨p, _, rfl⟩ := List.mem_map.mp he
    exact Nat.le_trans (Nat.le_of_eq (rank_importCall p.2)) (Nat.le_max_right _ _)

/-- The binding of imports stays within what is kept in reserve for substitutions. -/
theorem Expands.rank {name : String} {arg arg' : Node} (h : Expands name arg (.call name arg')) :
    arg'.rank ≤ arg.rank + 5 := by
  generalize ho : Node.call name arg' = out at h
  cases h with
  | other _ =>
      cases ho
      exact Nat.le_add_right _ _
  | @free template bindings hp _ =>
      cases ho
      split
      · exact Nat.zero_le _
      · rename_i hb
        rcases parts?_eq_some hp with ⟨_, rfl⟩ | rfl
        · simp at hb
        · exact Nat.le_add_right _ _
  | @bound template rewritten bindings imports hp hm hne _ =>
      cases ho
      have hb := rank_putAll bindings hm hne
      have ha : Node.rankOfEntries bindings = 0 ∨ Node.rankOfEntries bindings + 3 ≤ arg.rank := by
        rcases parts?_eq_some hp with ⟨_, rfl⟩ | rfl
        · exact Or.inl rfl
        · have := Node.rankOfEntries_add_two_le bindings
          simp only [Node.rank_list, Node.rankOfItems]
          omega
      simp only [Node.rankOfItems, Node.rank] at hb ⊢
      omega

end Import

namespace Expansion
variable {apis : Apis} {ms : Matrices}

theorem Steps.isCall {name : String} {arg out : Node} (h : Steps apis ms name arg out) :
    ∃ name' arg', out = .call name' arg' := by
  cases h with
  | sub _ _ h₃ => exact ⟨_, h₃.isCall⟩
  | other _ _ _ ho => exact ⟨_, _, ho⟩

theorem Steps.rank {name name' : String} {arg arg' : Node}
    (h : Steps apis ms name arg (.call name' arg')) : arg'.rank < (Node.call name arg).rank := by
  rw [Node.rank_call]
  cases h with
  | sub h₁ h₂ h₃ =>
      obtain rfl := h₁.sub_iff.mp rfl
      obtain ⟨b, hb⟩ := h₃.isCall
      cases hb
      have := h₃.rank
      have := h₁.rank.2 rfl
      have := h₂.rank.2 rfl
      simp only [Node.subReserve, ↓reduceIte]
      omega
  | other h₁ h₂ _ ho =>
      cases ho
      have := h₁.rank.1
      have := h₂.rank.1
      omega

/-- A chain of all resolvers puts mappings in place of mappings, with values of lower rank. -/
theorem shrinks (apis : Apis) (ms : Matrices) : (chain apis ms).Shrinks := by
  intro entries node h
  cases applies_of_apply h with
  | call he hs =>
      subst he
      obtain ⟨name', arg', rfl⟩ := hs.isCall
      exact ⟨[(name', arg')], rfl, List.forall_mem_singleton.mpr hs.rank⟩
  | other _ ho => exact ⟨entries, ho, fun x hx => Nat.lt_of_succ_lt (Node.rank_value_lt hx)⟩

end Expansion
end Shorthand
