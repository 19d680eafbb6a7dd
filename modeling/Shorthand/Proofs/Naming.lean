import Mathlib.Data.Finset.Card
import Mathlib.Data.List.Permutation
import Shorthand.Naming

/-!
# Free names

The search for a name passes over taken ones only, and there are not enough of these to use up its tries.
-/
namespace Shorthand.Naming

/-- All numbers before the answer have taken names. The answer's is free, unless the tries are used up. -/
theorem firstFree_spec (taken : List String) (name : Nat → String) (tries start : Nat) :
    ∃ k ≤ tries, firstFree taken name tries start = start + k ∧ (∀ i < k, name (start + i) ∈ taken) ∧
      (k < tries → name (start + k) ∉ taken) := by
  induction tries generalizing start with
  | zero => exact ⟨0, Nat.le_refl 0, rfl, by simp, by simp⟩
  | succ tries ih =>
      rw [firstFree]
      split
      · rename_i ht
        obtain ⟨k, hk, he, hall, hfree⟩ := ih (start + 1)
        refine ⟨k + 1, Nat.succ_le_succ hk, by omega, fun i hi => ?_, fun hlt => ?_⟩
        · cases i with
          | zero => simpa using ht
          | succ i =>
              have := hall i (by omega)
              rwa [show start + (i + 1) = start + 1 + i by omega]
        · have := hfree (by omega)
          rwa [show start + (k + 1) = start + 1 + k by omega]
      · rename_i ht
        exact ⟨0, Nat.zero_le _, rfl, by simp, fun _ => by simpa using ht⟩

/-- A series without repetition passes over no more names than are taken. -/
theorem le_card_of_passed {name : Nat → String} {start k : Nat} {taken : List String}
    (hn : ∀ m n, start ≤ m → start ≤ n → name m = name n → m = n) (h : ∀ i < k, name (start + i) ∈ taken) :
    k ≤ taken.toFinset.card := by
  have hmaps : ∀ i ∈ Finset.range k, name (start + i) ∈ taken.toFinset := fun i hi =>
    List.mem_toFinset.mpr (h i (Finset.mem_range.mp hi))
  have hinj : Set.InjOn (fun i => name (start + i)) (Finset.range k) := fun i _ j _ hij =>
    Nat.add_left_cancel (hn _ _ (Nat.le_add_right start i) (Nat.le_add_right start j) hij)
  calc
    k = (Finset.range k).card := (Finset.card_range k).symm
    _ ≤ taken.toFinset.card := Finset.card_le_card_of_injOn _ hmaps hinj

/-- A series without repetition from its start on never runs out of names. -/
theorem exists_free {name : Nat → String} {start : Nat}
    (hn : ∀ m n, start ≤ m → start ≤ n → name m = name n → m = n) (taken : List String) :
    ∃ k, free taken name start = start + k ∧ (∀ i < k, name (start + i) ∈ taken) ∧ name (start + k) ∉ taken := by
  obtain ⟨k, hk, he, hall, hfree⟩ := firstFree_spec taken name taken.length start
  refine ⟨k, he, hall, ?_⟩
  rcases Nat.lt_or_eq_of_le hk with hlt | rfl
  · exact hfree hlt
  · -- otherwise there would be one more taken name than there are
    intro hm
    have hpassed : ∀ i < taken.length + 1, name (start + i) ∈ taken := by
      intro i hi
      rcases Nat.lt_or_eq_of_le (Nat.le_of_lt_succ hi) with hi | rfl
      · exact hall i hi
      · exact hm
    have hle := (le_card_of_passed hn hpassed).trans taken.toFinset_card_le
    omega

theorem free_not_mem_of_injOn {name : Nat → String} {start : Nat}
    (hn : ∀ m n, start ≤ m → start ≤ n → name m = name n → m = n) (taken : List String) :
    name (free taken name start) ∉ taken := by
  obtain ⟨k, he, -, hfree⟩ := exists_free hn taken
  rwa [he]

theorem free_not_mem {name : Nat → String} (hn : Function.Injective name) (taken : List String) (start : Nat) :
    name (free taken name start) ∉ taken :=
  free_not_mem_of_injOn (fun _ _ _ _ h => hn h) taken

theorem le_free (taken : List String) (name : Nat → String) (start : Nat) : start ≤ free taken name start := by
  obtain ⟨k, _, he, _⟩ := firstFree_spec taken name taken.length start
  rw [free, he]
  exact Nat.le_add_right start k

/-- A name that is not taken stays as it is. -/
theorem free_eq_start {taken : List String} {name : Nat → String} {start : Nat} (h : name start ∉ taken) :
    free taken name start = start := by
  obtain ⟨k, _, he, hall, _⟩ := firstFree_spec taken name taken.length start
  rw [free, he]
  cases k with
  | zero => rfl
  | succ k => exact absurd (hall 0 (Nat.zero_lt_succ k)) h

theorem underscored_injective (base : String) : Function.Injective (underscored base) := by
  intro m n h
  have := congrArg (fun s : String => s.toList.length) h
  simpa [underscored] using this

theorem underscored_zero (base : String) : underscored base 0 = base := by
  rw [underscored, List.replicate_zero, List.append_nil, String.ofList_toList]

theorem eq_base_of_not_mem {base : String} {n : Nat} (h : '_' ∉ (underscored base n).toList) :
    underscored base n = base := by
  cases n with
  | zero => exact underscored_zero base
  | succ n => simp [underscored, List.replicate_succ] at h

theorem toList_numbered (lead : String) (n : Nat) :
    (numbered lead n).toList = lead.toList ++ Nat.toDigits 10 n := by
  simp [numbered, toString, Nat.toList_repr]

theorem numbered_injective (lead : String) : Function.Injective (numbered lead) := by
  intro m n h
  have hd := congrArg String.toList h
  rw [toList_numbered, toList_numbered] at hd
  rw [← Nat.ofDigitChars_toDigits (b := 10) (n := m) (by decide) (by decide), List.append_cancel_left hd,
    Nat.ofDigitChars_toDigits (by decide) (by decide)]

theorem toList_hyphenated (base : String) {n : Nat} (h : 1 < n) :
    (hyphenated base n).toList = base.toList ++ '-' :: Nat.toDigits 10 n := by
  rw [hyphenated, if_neg (Nat.not_le.mpr h)]
  simp [toString, Nat.toList_repr]

/-- The series repeats the base once, at its first two numbers. -/
theorem hyphenated_injOn (base : String) (m n : Nat) (hm : 1 ≤ m) (hn : 1 ≤ n)
    (h : hyphenated base m = hyphenated base n) : m = n := by
  have hbare : ∀ n, 1 < n → hyphenated base n ≠ base := by
    intro n hn he
    have hd := toList_hyphenated base hn
    rw [he] at hd
    have hlen := congrArg List.length hd
    simp at hlen
  have hone : hyphenated base 1 = base := if_pos (Nat.le_refl 1)
  rcases Nat.eq_or_lt_of_le hm with rfl | hm <;> rcases Nat.eq_or_lt_of_le hn with rfl | hn
  · rfl
  · exact absurd (h.symm.trans hone) (hbare n hn)
  · exact absurd (h.trans hone) (hbare m hm)
  · have hd := congrArg String.toList h
    rw [toList_hyphenated base hm, toList_hyphenated base hn] at hd
    have hd := (List.cons.inj (List.append_cancel_left hd)).2
    rw [← Nat.ofDigitChars_toDigits (b := 10) (n := m) (by decide) (by decide), hd,
      Nat.ofDigitChars_toDigits (by decide) (by decide)]

end Shorthand.Naming
