import Shorthand.Proofs.Outcome
import Shorthand.Rewriting

/-!
# The walk through a tree

A chain whose replacements rank below the mappings they stand for never runs out of levels. Its rewriting
then satisfies the equations of a walk without levels, and has an induction principle of its own.
-/
namespace Shorthand

/-! ## Ranks -/

namespace Node

theorem rank_le_rankOfItems {item : Node} {items : List Node} (h : item ∈ items) :
    item.rank ≤ rankOfItems items := by
  induction items with
  | nil => simp at h
  | cons x xs ih =>
      rw [rankOfItems]
      rcases List.mem_cons.mp h with rfl | h
      · exact Nat.le_max_left _ _
      · exact Nat.le_trans (ih h) (Nat.le_max_right _ _)

theorem rank_le_rankOfEntries {entry : String × Node} {entries : List (String × Node)}
    (h : entry ∈ entries) : entry.2.rank ≤ rankOfEntries entries := by
  induction entries with
  | nil => simp at h
  | cons x xs ih =>
      rw [rankOfEntries]
      rcases List.mem_cons.mp h with rfl | h
      · exact Nat.le_max_left _ _
      · exact Nat.le_trans (ih h) (Nat.le_max_right _ _)

theorem rank_list (items : List Node) : (list items).rank = rankOfItems items + 1 := by rw [rank]

theorem rank_call (name : String) (arg : Node) :
    (call name arg).rank = arg.rank + 2 + subReserve name := by rw [call, rank]

theorem rank_item_lt {item : Node} {items : List Node} (h : item ∈ items) :
    item.rank < (list items).rank := by
  rw [rank_list]
  exact Nat.lt_succ_of_le (rank_le_rankOfItems h)

theorem rankOfEntries_add_two_le (entries : List (String × Node)) :
    rankOfEntries entries + 2 ≤ (map entries).rank := by
  match entries with
  | [] => simp [rank, rankOfEntries]
  | [(name, arg)] => simp only [rank, rankOfEntries, Nat.max_zero]; omega
  | e :: e' :: es => simp [rank]

theorem rank_value_lt {entry : String × Node} {entries : List (String × Node)} (h : entry ∈ entries) :
    entry.2.rank + 1 < (map entries).rank := by
  have := rank_le_rankOfEntries h
  have := rankOfEntries_add_two_le entries
  omega

/-- Neither a list nor a mapping. -/
def isLeaf : Node → Bool
  | list _ | map _ => false
  | _ => true

end Node

/-! ## The walk without levels -/

namespace Chain
variable {chain : Chain}

/-- What a chain puts in place of a mapping is a mapping, and its values rank below the old one. -/
def Shrinks (chain : Chain) : Prop :=
  ∀ {entries node}, chain.apply (.map entries) = .ok node →
    ∃ news, node = .map news ∧ ∀ e ∈ news, e.2.rank < (Node.map entries).rank

/-- Rewrites the value of an entry. -/
def rewriteEntry (chain : Chain) (e : String × Node) : Except Error (String × Node) :=
  (chain.rewrite e.2).map (e.1, ·)

/-- One level of the walk, with whole walks below it. -/
def rewriteLevel (chain : Chain) : Node → Except Error Node
  | .map entries => do
    match ← chain.apply (.map entries) with
    | .map news => (news.mapM chain.rewriteEntry).map .map
    | other => chain.rewrite other
  | .list items => (items.mapM chain.rewrite).map .list
  | leaf => .ok leaf

theorem mapM_of_within {α β : Type} {f : α → ExceptT Error Option β} {g : α → Except Error β}
    (as : List α) (h : ∀ a ∈ as, f a = (some (g a) : Option (Except Error β))) :
    as.mapM f = (some (as.mapM g) : Option (Except Error (List β))) := by
  induction as with
  | nil => rfl
  | cons a as ih =>
      have ih := ih fun a ha => h a (List.mem_cons_of_mem _ ha)
      rw [List.mapM_cons, List.mapM_cons, h a List.mem_cons_self, ih]
      cases g a with
      | error e => rfl
      | ok b => cases as.mapM g <;> rfl

theorem rewriteWithin_eq_level (hc : chain.Shrinks) {node : Node} {n : Nat} (hn : node.rank < n)
    (below : ∀ child : Node, child.rank < node.rank → ∀ m, child.rank < m →
      rewriteWithin chain m child = (some (chain.rewrite child) : Option (Except Error Node))) :
    rewriteWithin chain n node = (some (chain.rewriteLevel node) : Option (Except Error Node)) := by
  obtain ⟨n, rfl⟩ : ∃ m, n = m + 1 := ⟨n - 1, by omega⟩
  cases node with
  | list items =>
      have hm := mapM_of_within (f := rewriteWithin chain n) (g := chain.rewrite) items
        fun item hi => below item (Node.rank_item_lt hi) n (by have := Node.rank_item_lt hi; omega)
      rw [rewriteWithin, hm, rewriteLevel]
      cases items.mapM chain.rewrite <;> rfl
  | map entries =>
      rw [rewriteWithin, rewriteLevel]
      cases ha : chain.apply (.map entries) with
      | error e => rfl
      | ok node =>
          obtain ⟨news, rfl, hr⟩ := hc ha
          have hm := mapM_of_within (g := chain.rewriteEntry)
            (f := fun e => do
              let value ← rewriteWithin chain n e.2
              pure (e.1, value))
            news fun e he => by
              have := hr e he
              rw [below e.2 this n (by omega), rewriteEntry]
              cases chain.rewrite e.2 <;> rfl
          simp only [rewriteWithin.liftExcept, bind, ExceptT.bind, ExceptT.mk, ExceptT.bindCont,
            Option.bind] at hm ⊢
          rw [hm]
          simp only [Except.bind]
          cases news.mapM chain.rewriteEntry <;> rfl
  | _ => rfl

theorem rank_lt_levels (chain : Chain) (node : Node) : node.rank < chain.levels node := by
  have : ∀ (rs : List Resolver) (n : Nat), n ≤ rs.foldl (fun n r => n + (r.growth + 1)) n := by
    intro rs
    induction rs with
    | nil => exact fun n => Nat.le_refl n
    | cons r rs ih => exact fun n => Nat.le_trans (Nat.le_add_right _ _) (ih _)
  exact this chain (node.rank + 1)

/-- Levels above the rank of a node are enough, and it does not matter how many. -/
theorem rewriteWithin_eq_rewrite (hc : chain.Shrinks) (node : Node) (n : Nat) (hn : node.rank < n) :
    rewriteWithin chain n node = (some (chain.rewrite node) : Option (Except Error Node)) := by
  induction hk : node.rank using Nat.strongRecOn generalizing node n with
  | ind k ih =>
      have below : ∀ child : Node, child.rank < node.rank → ∀ m, child.rank < m →
          rewriteWithin chain m child = (some (chain.rewrite child) : Option (Except Error Node)) :=
        fun child hlt m hm => ih child.rank (hk ▸ hlt) child m hm rfl
      have hr : chain.rewrite node = chain.rewriteLevel node := by
        rw [rewrite, rewriteWithin_eq_level hc (chain.rank_lt_levels node) below, Option.getD_some]
      rw [rewriteWithin_eq_level hc hn below, hr]

/-- The walk does one level and goes on in what stands there then. -/
theorem rewrite_eq_level (hc : chain.Shrinks) (node : Node) :
    chain.rewrite node = chain.rewriteLevel node := by
  rw [rewrite, rewriteWithin_eq_level hc (chain.rank_lt_levels node)
    fun child _ => rewriteWithin_eq_rewrite hc child, Option.getD_some]

theorem rewrite_list (hc : chain.Shrinks) {items : List Node} {out : Node}
    (h : chain.rewrite (.list items) = .ok out) :
    ∃ outs, out = .list outs ∧ List.Forall₂ (fun a b => chain.rewrite a = .ok b) items outs := by
  rw [rewrite_eq_level hc, rewriteLevel, Outcome.map_eq_ok] at h
  obtain ⟨outs, hm, rfl⟩ := h
  exact ⟨outs, rfl, Outcome.mapM_eq_ok.mp hm⟩

theorem rewrite_map (hc : chain.Shrinks) {entries : List (String × Node)} {out : Node}
    (h : chain.rewrite (.map entries) = .ok out) :
    ∃ news outs, chain.apply (.map entries) = .ok (.map news) ∧ out = .map outs ∧
      List.Forall₂ (fun a b => a.1 = b.1 ∧ chain.rewrite a.2 = .ok b.2) news outs := by
  rw [rewrite_eq_level hc, rewriteLevel, Outcome.bind_eq_ok] at h
  obtain ⟨node, ha, h⟩ := h
  obtain ⟨news, rfl, _⟩ := hc ha
  simp only [Outcome.map_eq_ok] at h
  obtain ⟨outs, hm, rfl⟩ := h
  refine ⟨news, outs, ha, rfl, (Outcome.mapM_eq_ok.mp hm).imp ?_⟩
  intro a b hab
  rw [rewriteEntry, Outcome.map_eq_ok] at hab
  obtain ⟨v, hv, rfl⟩ := hab
  exact ⟨rfl, hv⟩

theorem rewrite_leaf (hc : chain.Shrinks) {node out : Node} (hl : node.isLeaf = true)
    (h : chain.rewrite node = .ok out) : out = node := by
  rw [rewrite_eq_level hc] at h
  cases node <;> simp_all [rewriteLevel, Node.isLeaf]

/-- What holds of leaves, of lists from their items, and of the replacement of a mapping from its values,
holds of every rewritten tree. -/
theorem rewrite_induction (hc : chain.Shrinks) {motive : Node → Node → Prop}
    (leaf : ∀ {node}, node.isLeaf = true → motive node node)
    (list : ∀ {items outs}, List.Forall₂ motive items outs → motive (.list items) (.list outs))
    (map : ∀ {entries news outs}, chain.apply (.map entries) = .ok (.map news) →
      List.Forall₂ (fun a b => a.1 = b.1 ∧ motive a.2 b.2) news outs →
      motive (.map entries) (.map outs))
    {node out : Node} (h : chain.rewrite node = .ok out) : motive node out := by
  -- not on the tree: a mapping goes on with its replacement, which only ranks below it
  induction hk : node.rank using Nat.strongRecOn generalizing node out with
  | ind k ih =>
      cases node with
      | list items =>
          obtain ⟨outs, rfl, hf⟩ := rewrite_list hc h
          refine list (List.forall₂_iff_zip.mpr ⟨hf.length_eq, ?_⟩)
          intro a b hab
          have ha := (List.of_mem_zip hab).1
          exact ih a.rank (hk ▸ Node.rank_item_lt ha) (List.forall₂_zip hf hab) rfl
      | map entries =>
          obtain ⟨news, outs, ha, rfl, hf⟩ := rewrite_map hc h
          obtain ⟨news', he, hr⟩ := hc ha
          cases he
          refine map ha (List.forall₂_iff_zip.mpr ⟨hf.length_eq, ?_⟩)
          intro a b hab
          obtain ⟨hkey, hv⟩ := List.forall₂_zip hf hab
          exact ⟨hkey, ih a.2.rank (hk ▸ hr a (List.of_mem_zip hab).1) hv rfl⟩
      | _ =>
          obtain rfl := rewrite_leaf hc rfl h
          exact leaf rfl

end Chain
end Shorthand
