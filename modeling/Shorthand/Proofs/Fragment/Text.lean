import Shorthand.Proofs.Fragment.Splice
import Shorthand.Proofs.Json
import Shorthand.Proofs.Literal

/-!
# The text of a fragment

The text of a fragment is the compact text of its tree with the calls filled in. So it can be read again, and
what is read has the outline of the tree: its keys in their order, its lists, its scalars, and one text for
each call.
-/
namespace Shorthand

namespace Fragment

/-! ## Trees with texts for their calls -/

theorem FilledEntries.keys {entries filled : List (String × Node)} {texts : List String}
    (h : FilledEntries entries texts filled) :
    Table.keys filled = (Table.keys entries).map Template.escape := by
  match h with
  | .nil => rfl
  | .cons _ hs => exact congrArg _ hs.keys

theorem FilledEntries.distinct {entries filled : List (String × Node)} {texts : List String}
    (h : FilledEntries entries texts filled) (hd : Table.Distinct entries) : Table.Distinct filled := by
  rw [Table.Distinct, h.keys]
  exact hd.map Template.escape_injective

theorem calls_call {name : String} {arg : Node} (h : Call.isName name = true) :
    (Node.call name arg).calls = if name = Call.getParam then [] else [.call name arg] := by
  rw [Node.calls, Node.sites_call h, List.filter_singleton, Node.call, Node.isKept_single arg h]
  by_cases hk : name = Call.getParam
  · rw [if_pos hk, beq_iff_eq.mpr hk]
    rfl
  · rw [if_neg hk, beq_eq_false_iff_ne.mpr hk]
    rfl

mutual
/-- There is one text for each call. -/
theorem Filled.length {node filled : Node} {texts : List String} (h : Filled node texts filled) :
    texts.length = node.calls.length := by
  match h with
  | .call hname hk => rw [calls_call hname, if_neg hk, List.length_singleton, List.length_singleton]
  | .kept =>
      rw [calls_call (by decide), if_pos rfl]
      rfl
  | .map hc he =>
      rw [he.length, Node.calls, Node.sites, hc]
      rfl
  | .list h => exact h.length
  | .text _ | .null | .bool _ | .number _ => rfl

theorem FilledItems.length {items filled : List Node} {texts : List String} (h : FilledItems items texts filled) :
    texts.length = ((Node.sitesOfItems items).filter fun call => !call.isKept).length := by
  match h with
  | .nil => rfl
  | .cons h hs =>
      rw [List.length_append, h.length, hs.length, Node.sitesOfItems, List.filter_append, List.length_append,
        Node.calls]

theorem FilledEntries.length {entries filled : List (String × Node)} {texts : List String}
    (h : FilledEntries entries texts filled) :
    texts.length = ((Node.sitesOfEntries entries).filter fun call => !call.isKept).length := by
  match h with
  | .nil => rfl
  | .cons h hs =>
      rw [List.length_append, h.length, hs.length, Node.sitesOfEntries, List.filter_append, List.length_append,
        Node.calls]
end

mutual
theorem Filled.wellFormed {node filled : Node} {texts : List String} (h : Filled node texts filled)
    (hn : node.WellFormed) : filled.WellFormed := by
  match h with
  | .map _ he => exact ⟨he.distinct hn.1, he.wellFormed hn.2⟩
  | .list h => exact h.wellFormed hn
  | .kept => exact hn
  | .call _ _ | .text _ | .null | .bool _ | .number _ => trivial

theorem FilledItems.wellFormed {items filled : List Node} {texts : List String}
    (h : FilledItems items texts filled) (hi : Node.AllWellFormed items) : Node.AllWellFormed filled := by
  match h with
  | .nil => trivial
  | .cons h hs => exact ⟨h.wellFormed hi.1, hs.wellFormed hi.2⟩

theorem FilledEntries.wellFormed {entries filled : List (String × Node)} {texts : List String}
    (h : FilledEntries entries texts filled) (he : Node.EntriesWellFormed entries) :
    Node.EntriesWellFormed filled := by
  match h with
  | .nil => trivial
  | .cons h hs => exact ⟨h.wellFormed he.1, hs.wellFormed he.2⟩
end

mutual
theorem Filled.integral {node filled : Node} {texts : List String} (h : Filled node texts filled)
    (hn : node.Integral) : filled.Integral := by
  match h with
  | .map _ he => exact he.integral hn
  | .list h => exact h.integral hn
  | .kept | .number _ => exact hn
  | .call _ _ | .text _ | .null | .bool _ => trivial

theorem FilledItems.integral {items filled : List Node} {texts : List String}
    (h : FilledItems items texts filled) (hi : Node.AllIntegral items) : Node.AllIntegral filled := by
  match h with
  | .nil => trivial
  | .cons h hs => exact ⟨h.integral hi.1, hs.integral hi.2⟩

theorem FilledEntries.integral {entries filled : List (String × Node)} {texts : List String}
    (h : FilledEntries entries texts filled) (he : Node.EntriesIntegral entries) :
    Node.EntriesIntegral filled := by
  match h with
  | .nil => trivial
  | .cons h hs => exact ⟨h.integral he.1, hs.integral he.2⟩
end

mutual
theorem Filled.depth_le {node filled : Node} {texts : List String} (h : Filled node texts filled) :
    filled.depth ≤ node.depth := by
  match h with
  | .map _ he => exact Nat.succ_le_succ he.depth_le
  | .list h => exact Nat.succ_le_succ h.depth_le
  | .kept => exact Nat.le_refl _
  | .call _ _ | .text _ | .null | .bool _ | .number _ => exact Nat.zero_le _

theorem FilledItems.depth_le {items filled : List Node} {texts : List String}
    (h : FilledItems items texts filled) : Node.depthOfItems filled ≤ Node.depthOfItems items := by
  match h with
  | .nil => exact Nat.le_refl _
  | .cons h hs =>
      have hfirst := h.depth_le
      have hrest := hs.depth_le
      simp only [Node.depthOfItems]
      omega

theorem FilledEntries.depth_le {entries filled : List (String × Node)} {texts : List String}
    (h : FilledEntries entries texts filled) : Node.depthOfEntries filled ≤ Node.depthOfEntries entries := by
  match h with
  | .nil => exact Nat.le_refl _
  | .cons h hs =>
      have hfirst := h.depth_le
      have hrest := hs.depth_le
      simp only [Node.depthOfEntries]
      omega
end

/-! ## Reading a fragment back -/

namespace Compiler

/-- The text of a fragment is read as the tree itself if no call is in it, and otherwise as the tree with a
text for each call and all other texts made literal. -/
theorem parse_of_compile (c : Compiler) {node : Node} (hn : node.WellFormed) (hi : node.Integral) :
    ∃ tree, (∀ depth, node.depth ≤ depth →
        Json.parseWithin? depth (c.compile node).1.text = some tree) ∧
      ((∃ text, (c.compile node).1 = .plain text) ↔ node.calls = []) ∧
      (node.calls = [] → tree = node) ∧
      (node.calls ≠ [] → ∃ texts, texts.length = node.calls.length ∧ Filled node texts tree) := by
  by_cases h : node.calls = []
  · rw [compile_plain c h]
    refine ⟨node, fun depth hd => Json.parseWithin?_json hn hi hd, ⟨fun _ => h, fun _ => ⟨_, rfl⟩⟩,
      fun _ => rfl, fun hne => absurd h hne⟩
  · obtain ⟨splices, tree, -, -, hf, htext, -, -, hplain⟩ := compile_spec c hn h
    refine ⟨tree, fun depth hd => ?_, ⟨fun ⟨text, ht⟩ => absurd ht (hplain text), fun he => absurd he h⟩,
      fun he => absurd he h, fun _ => ⟨_, hf.length, hf⟩⟩
    rw [htext]
    exact Json.parseWithin?_json (hf.wellFormed hn) (hf.integral hi) (Nat.le_trans hf.depth_le hd)

/-- A reference among a number, a text and a key that need escapes, and a call that is kept. -/
def mixed : Node :=
  .map [("\"$\x7b", .list [.number (.whole (-3)), .text "a\n$\x7bb", .refTo "X"]),
    ("kept", .call Call.getParam (.refTo "Y"))]

theorem parse_mixed :
    mixed.WellFormed ∧ mixed.Integral ∧ mixed.calls = [.refTo "X"] ∧
      (({} : Compiler).compile mixed).1 =
        .spliced ("\x7b\"\\\"$\x7b!\":[-3,\"a\\n$\x7b!b\",\"$\x7bX\x7d\"]," ++
          "\"kept\":\x7b\"Fn::GetParam\":\x7b\"Ref\":\"Y\"\x7d\x7d\x7d") ∧
      ∃ tree, (∀ depth, mixed.depth ≤ depth →
          Json.parseWithin? depth (({} : Compiler).compile mixed).1.text = some tree) ∧
        ((∃ text, (({} : Compiler).compile mixed).1 = .plain text) ↔ mixed.calls = []) ∧
        (mixed.calls = [] → tree = mixed) ∧
        (mixed.calls ≠ [] → ∃ texts, texts.length = mixed.calls.length ∧ Filled mixed texts tree) := by
  have hw : mixed.WellFormed := by
    simp [mixed, Node.WellFormed, Node.AllWellFormed, Node.EntriesWellFormed, Table.Distinct, Table.keys, Node.refTo,
      Node.call]
  have hfits : Json.Fits (-3) := (by decide : 2 < UInt64.size / 2)
  have hi : mixed.Integral := by
    simp [mixed, Node.Integral, Node.AllIntegral, Node.EntriesIntegral, Node.refTo, Node.call, hfits]
  exact ⟨hw, hi, rfl, by cbv, parse_of_compile {} hw hi⟩

end Compiler
end Fragment
end Shorthand
