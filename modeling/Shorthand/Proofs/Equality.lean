import Shorthand.Proofs.WellFormed

/-!
# Equality as values

Equality of nodes as values is coarser than equality: keys may come in another order, and the two zeros are one
number. It is reflexive on well-formed trees, and transitive. Well-formed trees that differ at most in the order of
keys are equal so.
-/
namespace Shorthand

/-! ## Numbers -/

namespace Double

theorem same_refl (x : Double) : x.same x = true := by simp [same]

/-- A zero is a number. -/
theorem isNan_of_zero {x : Double} (h : x.bits.toNat % signBit = 0) : x.isNan = false := by
  have hdvd : leadingBit ∣ signBit := by decide
  have hf : x.fraction = 0 := Nat.mod_eq_zero_of_dvd (Nat.dvd_trans hdvd (Nat.dvd_of_mod_eq_zero h))
  simp [isNan, hf]

theorem same_trans {x y z : Double} (hxy : x.same y = true) (hyz : y.same z = true) : x.same z = true := by
  unfold same at hxy hyz ⊢
  split at hxy
  · rename_i hx
    rw [if_pos hxy] at hyz
    rw [if_pos hx, hyz]
  · rename_i hx
    rw [if_neg hx]
    have hy : ¬ y.isNan = true := by
      intro hy
      simp only [Bool.or_eq_true, beq_iff_eq, Bool.and_eq_true] at hxy
      rcases hxy with hb | ⟨_, hzero⟩
      · have hxy : x = y := congrArg Double.mk hb
        exact hx (hxy ▸ hy)
      · rw [isNan_of_zero hzero] at hy
        cases hy
    rw [if_neg hy] at hyz
    simp only [Bool.or_eq_true, beq_iff_eq, Bool.and_eq_true] at hxy hyz ⊢
    rcases hxy with hxy | ⟨hx, hy⟩
    · rw [hxy]
      exact hyz
    · rcases hyz with hyz | ⟨_, hz⟩
      · exact Or.inr ⟨hx, hyz ▸ hy⟩
      · exact Or.inr ⟨hx, hz⟩

end Double

namespace Number

theorem same_refl (n : Number) : n.same n = true := by
  cases n with
  | whole n => exact beq_self_eq_true n
  | double x => exact x.same_refl

theorem same_trans {k m n : Number} (hkm : k.same m = true) (hmn : m.same n = true) : k.same n = true := by
  cases k with
  | whole k =>
      cases m with
      | whole m =>
          obtain rfl := beq_iff_eq.mp hkm
          exact hmn
      | double _ => cases hkm
  | double x =>
      cases m with
      | whole _ => cases hkm
      | double y =>
          cases n with
          | whole _ => cases hmn
          | double z => exact Double.same_trans hkm hmn

end Number

/-! ## Nodes -/

namespace Node

theorem sameEntries_iff {as : List (String × Node)} {bs : Table Node} :
    sameEntries as bs = true ↔ ∀ e ∈ as, ∃ b, Table.get? bs e.1 = some b ∧ same e.2 b = true := by
  induction as with
  | nil => simp [sameEntries]
  | cons e as ih =>
      rw [sameEntries, Bool.and_eq_true, ih, List.forall_mem_cons]
      refine and_congr_left' ?_
      cases Table.get? bs e.1 <;> simp

mutual
theorem same_refl (node : Node) (h : node.WellFormed) : node.same node = true := by
  match node with
  | .null => rfl
  | .bool b => exact beq_self_eq_true b
  | .number n => exact n.same_refl
  | .text s => exact beq_self_eq_true s
  | .list items => exact sameItems_refl items (wellFormed_list_iff.mp h)
  | .map entries =>
      obtain ⟨hd, he⟩ := wellFormed_map_iff.mp h
      rw [same, beq_self_eq_true, Bool.true_and, sameEntries_iff]
      exact fun e hm => ⟨e.2, hd.get?_of_mem hm, same_refl_of_mem entries he e hm⟩

theorem sameItems_refl (items : List Node) (h : ∀ item ∈ items, item.WellFormed) :
    sameItems items items = true := by
  match items with
  | [] => rfl
  | item :: items =>
      obtain ⟨hitem, h⟩ := List.forall_mem_cons.mp h
      rw [sameItems, same_refl item hitem, sameItems_refl items h, Bool.and_true]

theorem same_refl_of_mem (entries : List (String × Node)) (h : ∀ e ∈ entries, e.2.WellFormed) :
    ∀ e ∈ entries, e.2.same e.2 = true := by
  match entries with
  | [] => simp
  | (_, value) :: entries =>
      obtain ⟨hvalue, h⟩ := List.forall_mem_cons.mp h
      exact List.forall_mem_cons.mpr ⟨same_refl value hvalue, same_refl_of_mem entries h⟩
end

mutual
theorem same_trans {a b c : Node} (hab : a.same b = true) (hbc : b.same c = true) : a.same c = true := by
  match a, b, c with
  | .null, .null, _ => exact hbc
  | .bool _, .bool _, _ => exact beq_iff_eq.mp hab ▸ hbc
  | .number _, .number _, .number _ => exact Number.same_trans hab hbc
  | .text _, .text _, _ => exact beq_iff_eq.mp hab ▸ hbc
  | .list _, .list _, .list _ => exact sameItems_trans hab hbc
  | .map as, .map bs, .map cs =>
      rw [same, Bool.and_eq_true, beq_iff_eq] at hab hbc ⊢
      exact ⟨hab.1.trans hbc.1, sameEntries_iff.mpr (sameEntries_trans as hab.2 hbc.2)⟩

theorem sameItems_trans {as bs cs : List Node} (hab : sameItems as bs = true) (hbc : sameItems bs cs = true) :
    sameItems as cs = true := by
  match as, bs, cs with
  | [], [], _ => exact hbc
  | _ :: _, _ :: _, _ :: _ =>
      rw [sameItems, Bool.and_eq_true] at hab hbc ⊢
      exact ⟨same_trans hab.1 hbc.1, sameItems_trans hab.2 hbc.2⟩

theorem sameEntries_trans (as : List (String × Node)) {bs cs : Table Node} (hab : sameEntries as bs = true)
    (hbc : sameEntries bs cs = true) : ∀ e ∈ as, ∃ c, Table.get? cs e.1 = some c ∧ e.2.same c = true := by
  match as with
  | [] => simp
  | (key, a) :: as =>
      obtain ⟨b, hb, hs⟩ := sameEntries_iff.mp hab _ List.mem_cons_self
      obtain ⟨c, hc, hbs⟩ := sameEntries_iff.mp hbc _ (Table.mem_of_get? hb)
      rw [sameEntries, Bool.and_eq_true] at hab
      exact List.forall_mem_cons.mpr ⟨⟨c, hc, same_trans hs hbs⟩, sameEntries_trans as hab.2 hbc⟩
end

/-! ## The order of keys -/

mutual
/-- Two trees that differ at most in the order of keys. -/
inductive Permuted : Node → Node → Prop
  | refl (node : Node) : Permuted node node
  | list {as bs : List Node} (h : PermutedItems as bs) : Permuted (.list as) (.list bs)
  | map {as bs cs : Table Node} (h : PermutedEntries as bs) (hp : bs.Perm cs) : Permuted (.map as) (.map cs)

inductive PermutedItems : List Node → List Node → Prop
  | nil : PermutedItems [] []
  | cons {a b : Node} {as bs : List Node} (h : Permuted a b) (hs : PermutedItems as bs) :
      PermutedItems (a :: as) (b :: bs)

inductive PermutedEntries : List (String × Node) → List (String × Node) → Prop
  | nil : PermutedEntries [] []
  | cons {key : String} {a b : Node} {as bs : List (String × Node)} (h : Permuted a b) (hs : PermutedEntries as bs) :
      PermutedEntries ((key, a) :: as) ((key, b) :: bs)
end

theorem PermutedEntries.keys_eq {as bs : List (String × Node)} (h : PermutedEntries as bs) :
    Table.keys bs = Table.keys as := by
  match h with
  | .nil => rfl
  | .cons _ hs => exact congrArg (_ :: ·) hs.keys_eq

mutual
theorem Permuted.same {a b : Node} (h : Permuted a b) (hw : a.WellFormed) : a.same b = true := by
  match h with
  | .refl node => exact same_refl node hw
  | .list h => exact h.same (wellFormed_list_iff.mp hw)
  | .map h hp =>
      obtain ⟨hd, hw⟩ := wellFormed_map_iff.mp hw
      have hkeys := h.keys_eq
      rw [Table.Distinct, ← hkeys] at hd
      have hdc : Table.Distinct _ := (hp.map Prod.fst).nodup_iff.mp hd
      have hlen := congrArg List.length hkeys
      rw [Table.keys, Table.keys, List.length_map, List.length_map, hp.length_eq] at hlen
      rw [Node.same, hlen, beq_self_eq_true, Bool.true_and, sameEntries_iff]
      intro e he
      obtain ⟨b, hb, hs⟩ := h.same hw e he
      exact ⟨b, hdc.get?_of_mem (hp.mem_iff.mp hb), hs⟩

theorem PermutedItems.same {as bs : List Node} (h : PermutedItems as bs) (hw : ∀ a ∈ as, a.WellFormed) :
    sameItems as bs = true := by
  match h with
  | .nil => rfl
  | .cons h hs =>
      obtain ⟨ha, hw⟩ := List.forall_mem_cons.mp hw
      rw [sameItems, h.same ha, hs.same hw, Bool.true_and]

theorem PermutedEntries.same {as bs : List (String × Node)} (h : PermutedEntries as bs)
    (hw : ∀ e ∈ as, e.2.WellFormed) : ∀ e ∈ as, ∃ b, (e.1, b) ∈ bs ∧ e.2.same b = true := by
  match h with
  | .nil => exact fun e he => absurd he List.not_mem_nil
  | .cons h hs =>
      obtain ⟨ha, hw⟩ := List.forall_mem_cons.mp hw
      refine List.forall_mem_cons.mpr ⟨⟨_, List.mem_cons_self, h.same ha⟩, fun e he => ?_⟩
      obtain ⟨b, hb, hsame⟩ := hs.same hw e he
      exact ⟨b, List.mem_cons_of_mem _ hb, hsame⟩
end

theorem PermutedEntries.refl (t : List (String × Node)) : PermutedEntries t t := by
  induction t with
  | nil => exact .nil
  | cons e t ih => exact .cons (.refl e.2) ih

theorem PermutedEntries.append {as bs more more' : List (String × Node)} (h : PermutedEntries as bs)
    (hm : PermutedEntries more more') : PermutedEntries (as ++ more) (bs ++ more') := by
  match h with
  | .nil => exact hm
  | .cons h hs => exact .cons h (hs.append hm)

theorem permutedItems_map {α : Type} {f g : α → Node} {as : List α} (h : ∀ a ∈ as, Permuted (f a) (g a)) :
    PermutedItems (as.map f) (as.map g) := by
  induction as with
  | nil => exact .nil
  | cons a as ih =>
      obtain ⟨ha, h⟩ := List.forall_mem_cons.mp h
      exact .cons ha (ih h)

end Node
end Shorthand
