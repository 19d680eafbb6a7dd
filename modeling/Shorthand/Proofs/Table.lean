import Mathlib.Data.List.Nodup
import Shorthand.Table

/-!
# Entries and keys of tables

Which entries and keys a table has after an operation.
-/
namespace Shorthand

theorem nodup_snoc {α : Type} {as : List α} {a : α} (h : as.Nodup) (ha : a ∉ as) : (as ++ [a]).Nodup :=
  List.nodup_append'.mpr ⟨h, List.nodup_singleton a, List.disjoint_singleton.mpr ha⟩

theorem eraseDups_snoc {α : Type} [DecidableEq α] {as : List α} {a : α} :
    (as ++ [a]).eraseDups = if a ∈ as then as.eraseDups else as.eraseDups ++ [a] := by
  rw [List.eraseDups_append]
  split
  · rename_i h
    simp [List.removeAll, h]
  · rename_i h
    simp [List.removeAll, h, List.eraseDups_cons]

namespace Table

variable {κ α β : Type} [DecidableEq κ]

theorem mem_of_get? {t : List (κ × α)} {key : κ} {value : α} (h : get? t key = some value) :
    (key, value) ∈ t := by
  induction t with
  | nil => simp [get?] at h
  | cons e t ih =>
      obtain ⟨k, v⟩ := e
      rw [get?] at h
      split at h
      · rename_i hk
        obtain rfl := Option.some.inj h
        exact hk ▸ List.mem_cons_self
      · exact List.mem_cons_of_mem _ (ih h)

theorem mem_keys_of_get? {t : List (κ × α)} {key : κ} {value : α} (h : get? t key = some value) :
    key ∈ keys t :=
  List.mem_map_of_mem (f := Prod.fst) (mem_of_get? h)

theorem exists_get?_of_mem_keys {t : List (κ × α)} {key : κ} (h : key ∈ keys t) :
    ∃ value, get? t key = some value :=
  Option.isSome_iff_exists.mp (has_iff_mem_keys.mpr h)

theorem get?_append {t : List (κ × α)} (more : List (κ × α)) {key : κ} (h : key ∈ keys t) :
    get? (t ++ more) key = get? t key := by
  induction t with
  | nil => cases h
  | cons e t ih =>
      obtain ⟨k, v⟩ := e
      rw [List.cons_append, get?, get?]
      split
      · rfl
      · rename_i hk
        exact ih ((List.mem_cons.mp h).resolve_left (Ne.symm hk))

theorem get?_append_of_not_mem (t : List (κ × α)) {more : List (κ × α)} {key : κ} (h : key ∉ keys more) :
    get? (t ++ more) key = get? t key := by
  induction t with
  | nil => exact get?_eq_none_iff.mpr h
  | cons e t ih =>
      obtain ⟨k, v⟩ := e
      rw [List.cons_append, get?, get?, ih]

theorem get?_append_self {t : List (κ × α)} {key : κ} (value : α) (h : key ∉ keys t) :
    get? (t ++ [(key, value)]) key = some value := by
  rw [← put_of_not_mem value h, get?_put_self]

theorem mem_of_mem_put {t : List (κ × α)} {key : κ} {value : α} {e : κ × α}
    (h : e ∈ put t key value) : e ∈ t ∨ e = (key, value) := by
  induction t with
  | nil => exact Or.inr (List.mem_singleton.mp h)
  | cons x t ih =>
      obtain ⟨k, v⟩ := x
      rw [put] at h
      split at h
      · rcases List.mem_cons.mp h with rfl | h
        · exact Or.inr rfl
        · exact Or.inl (List.mem_cons_of_mem _ h)
      · rcases List.mem_cons.mp h with rfl | h
        · exact Or.inl List.mem_cons_self
        · exact (ih h).imp_left (List.mem_cons_of_mem _)

theorem keys_put (t : List (κ × α)) (key : κ) (value : α) :
    keys (put t key value) = if key ∈ keys t then keys t else keys t ++ [key] := by
  split
  · rename_i h
    exact keys_put_of_mem value h
  · rename_i h
    rw [put_of_not_mem value h]
    simp [keys]

@[simp] theorem mem_keys_put {t : List (κ × α)} {key other : κ} {value : α} :
    other ∈ keys (put t key value) ↔ other ∈ keys t ∨ other = key := by
  rw [keys_put]
  split
  · rename_i h
    exact ⟨Or.inl, fun ho => ho.elim id (fun he => he ▸ h)⟩
  · simp

/-- To put what is there changes nothing. -/
theorem put_of_get? {t : List (κ × α)} {key : κ} {value : α} (h : get? t key = some value) :
    put t key value = t := by
  induction t with
  | nil => cases h
  | cons e t ih =>
      obtain ⟨k, v⟩ := e
      rw [get?] at h
      rw [put]
      split
      · rename_i hk
        rw [if_pos hk] at h
        rw [hk, Option.some.inj h]
      · rename_i hk
        rw [if_neg hk] at h
        rw [ih h]

/-- To put a value where there is one changes that entry alone. -/
theorem put_eq_map {t : List (κ × α)} (hd : Distinct t) {key : κ} (value : α) (hk : key ∈ keys t) :
    put t key value = t.map fun e => (e.1, if e.1 = key then value else e.2) := by
  induction t with
  | nil => cases hk
  | cons e t ih =>
      obtain ⟨hnew, hd⟩ := List.nodup_cons.mp hd
      rw [put, List.map_cons]
      split
      · rename_i he
        have hrest : t.map (fun e => (e.1, if e.1 = key then value else e.2)) = t := by
          conv_rhs => rw [← List.map_id t]
          refine List.map_congr_left fun other ho => ?_
          have hne : other.1 ≠ key := fun heq => hnew (he.trans heq.symm ▸ List.mem_map_of_mem ho)
          rw [if_neg hne]
          rfl
        rw [hrest, he]
      · rename_i he
        rw [ih hd ((List.mem_cons.mp hk).resolve_left (Ne.symm he))]

theorem put_put (t : List (κ × α)) (key : κ) (old new : α) : put (put t key old) key new = put t key new := by
  induction t with
  | nil => simp [put]
  | cons e t ih =>
      obtain ⟨k, v⟩ := e
      by_cases hk : k = key
      · simp [put, hk]
      · simp [put, hk, ih]

theorem put_putNew (t : List (κ × α)) (key : κ) (old new : α) :
    put (putNew t key old) key new = put t key new := by
  unfold putNew
  split
  · rfl
  · exact put_put t key old new

theorem mem_of_mem_putAll {t more : List (κ × α)} {e : κ × α} (h : e ∈ putAll t more) :
    e ∈ t ∨ e ∈ more := by
  induction more generalizing t with
  | nil => exact Or.inl h
  | cons x more ih =>
      rcases ih (t := put t x.1 x.2) h with h | h
      · rcases mem_of_mem_put h with h | rfl
        · exact Or.inl h
        · exact Or.inr List.mem_cons_self
      · exact Or.inr (List.mem_cons_of_mem _ h)

@[simp] theorem mem_keys_putAll {t more : List (κ × α)} {key : κ} :
    key ∈ keys (putAll t more) ↔ key ∈ keys t ∨ key ∈ keys more := by
  induction more generalizing t with
  | nil => simp [putAll, keys]
  | cons x more ih =>
      have : key ∈ keys (putAll (put t x.1 x.2) more) ↔ _ := ih
      simp only [putAll, List.foldl_cons] at this ⊢
      rw [this, mem_keys_put, keys, keys, keys, List.map_cons, List.mem_cons, or_assoc]

theorem get?_putAll_of_not_mem {t more : List (κ × α)} {key : κ} (h : key ∉ keys more) :
    get? (putAll t more) key = get? t key := by
  induction more generalizing t with
  | nil => rfl
  | cons e more ih =>
      obtain ⟨hne, hmore⟩ := not_or.mp (fun ho => h (List.mem_cons.mpr ho))
      have hget : get? (putAll (put t e.1 e.2) more) key = get? (put t e.1 e.2) key := ih hmore
      exact hget.trans (get?_put_of_ne t e.2 (Ne.symm hne))

theorem get?_put (t : List (κ × α)) (key : κ) (value : α) (other : κ) :
    get? (put t key value) other = if key = other then some value else get? t other := by
  split
  · rename_i h
    rw [h, get?_put_self]
  · rename_i h
    exact get?_put_of_ne t value h

/-- The later table wins. -/
theorem get?_putAll {more : List (κ × α)} (hd : Distinct more) (t : List (κ × α)) (key : κ) :
    get? (putAll t more) key = (get? more key).or (get? t key) := by
  induction more generalizing t with
  | nil => rfl
  | cons e more ih =>
      obtain ⟨k, v⟩ := e
      obtain ⟨hnew, hd⟩ := List.nodup_cons.mp hd
      have hget : get? (putAll (put t k v) more) key = _ := ih hd (put t k v)
      rw [putAll, List.foldl_cons, ← putAll, hget, get?_put, get?]
      split
      · rename_i h
        rw [get?_eq_none_iff.mpr (h ▸ hnew)]
        rfl
      · rfl

theorem erase_sublist (t : List (κ × α)) (key : κ) : (erase t key).Sublist t := by
  induction t with
  | nil => exact List.Sublist.slnil
  | cons e t ih =>
      obtain ⟨k, v⟩ := e
      rw [erase]
      split
      · exact List.sublist_cons_self _ _
      · exact ih.cons_cons _

theorem erase_of_not_mem {t : List (κ × α)} {key : κ} (h : key ∉ keys t) : erase t key = t := by
  induction t with
  | nil => rfl
  | cons e t ih =>
      obtain ⟨k, v⟩ := e
      obtain ⟨hne, hrest⟩ := not_or.mp (fun ho => h (List.mem_cons.mpr ho))
      rw [erase, if_neg (Ne.symm hne), ih hrest]

theorem foldl_erase_sublist (gone : List κ) (t : List (κ × α)) : (gone.foldl erase t).Sublist t := by
  induction gone generalizing t with
  | nil => exact List.Sublist.refl t
  | cons key gone ih => exact (ih (erase t key)).trans (erase_sublist t key)

theorem mem_erase_of_ne {t : List (κ × α)} {key : κ} {e : κ × α} (h : e.1 ≠ key) :
    e ∈ erase t key ↔ e ∈ t := by
  induction t with
  | nil => rfl
  | cons x t ih =>
      obtain ⟨k, v⟩ := x
      rw [erase]
      split
      · rename_i hk
        have hne : e ≠ (k, v) := by
          rintro rfl
          exact h hk
        rw [List.mem_cons, or_iff_right hne]
      · rw [List.mem_cons, List.mem_cons, ih]

theorem mem_foldl_erase {gone : List κ} {t : List (κ × α)} {e : κ × α} (h : e.1 ∉ gone) :
    e ∈ gone.foldl erase t ↔ e ∈ t := by
  induction gone generalizing t with
  | nil => rfl
  | cons key gone ih =>
      obtain ⟨hne, hrest⟩ := not_or.mp (fun ho => h (List.mem_cons.mpr ho))
      rw [List.foldl_cons, ih hrest, mem_erase_of_ne hne]

theorem get?_erase_of_ne (t : List (κ × α)) {key other : κ} (h : key ≠ other) :
    get? (erase t key) other = get? t other := by
  induction t with
  | nil => rfl
  | cons e t ih =>
      obtain ⟨k, v⟩ := e
      rw [erase, get?]
      split
      · rename_i hk
        rw [if_neg (hk ▸ h)]
      · rw [get?, ih]

theorem get?_foldl_erase {gone : List κ} {key : κ} (h : key ∉ gone) (t : List (κ × α)) :
    get? (gone.foldl erase t) key = get? t key := by
  induction gone generalizing t with
  | nil => rfl
  | cons other gone ih =>
      obtain ⟨hne, hrest⟩ := not_or.mp (fun ho => h (List.mem_cons.mpr ho))
      rw [List.foldl_cons, ih hrest, get?_erase_of_ne t (Ne.symm hne)]

omit [DecidableEq κ] in
theorem keys_eq_of_forall₂ {t t' : List (κ × α)} (h : List.Forall₂ (fun a b => a.1 = b.1) t t') :
    keys t = keys t' := by
  rw [keys, keys, ← List.forall₂_eq_eq_eq, List.forall₂_map_left_iff, List.forall₂_map_right_iff]
  exact h

theorem rel_get?_of_forall₂ {R : α → β → Prop} {t : List (κ × α)} {t' : List (κ × β)}
    (h : List.Forall₂ (fun a b => a.1 = b.1 ∧ R a.2 b.2) t t') (key : κ) :
    Option.Rel R (get? t key) (get? t' key) := by
  induction h with
  | nil => exact .none
  | @cons a b _ _ hab _ ih =>
      obtain ⟨k, v⟩ := a
      obtain ⟨rfl, hv⟩ := hab
      rw [get?, get?]
      split
      · exact .some hv
      · exact ih

theorem get?_putNew_self (t : List (κ × α)) (key : κ) (value : α) :
    get? (putNew t key value) key = some ((get? t key).getD value) := by
  unfold putNew
  split
  · rename_i h
    obtain ⟨old, ho⟩ := Option.isSome_iff_exists.mp h
    rw [ho, Option.getD_some]
  · rename_i h
    rw [get?_put_self, Option.not_isSome_iff_eq_none.mp h, Option.getD_none]

theorem get?_putNew (t : List (κ × α)) (key : κ) (value : α) (other : κ) :
    get? (putNew t key value) other = if key = other then some ((get? t key).getD value) else get? t other := by
  split
  · rename_i h
    rw [← h, get?_putNew_self]
  · rename_i h
    unfold putNew
    split
    · rfl
    · exact get?_put_of_ne t value h

theorem get?_putNew_ne_none (t : List (κ × α)) (key : κ) (value : α) : get? (putNew t key value) key ≠ none := by
  rw [get?_putNew_self]
  exact Option.some_ne_none _

theorem mem_keys_putNew {t : List (κ × α)} {key other : κ} {value : α} :
    other ∈ keys (putNew t key value) ↔ other ∈ keys t ∨ other = key := by
  unfold putNew
  split
  · rename_i h
    exact ⟨Or.inl, fun ho => ho.elim id fun he => he ▸ has_iff_mem_keys.mp h⟩
  · exact mem_keys_put

/-! ## Some of the entries -/

variable {p : κ × α → Bool} {key : κ}

theorem get?_filter (h : ∀ value, p (key, value) = true) (t : List (κ × α)) :
    get? (t.filter p) key = get? t key := by
  induction t with
  | nil => rfl
  | cons e t ih =>
      obtain ⟨k, v⟩ := e
      by_cases hk : k = key
      · subst hk
        simp [h, get?]
      · cases hp : p (k, v) <;> simp [hp, hk, get?, ih]

theorem filter_erase (h : ∀ value, p (key, value) = true) (t : List (κ × α)) :
    (erase t key).filter p = erase (t.filter p) key := by
  induction t with
  | nil => rfl
  | cons e t ih =>
      obtain ⟨k, v⟩ := e
      by_cases hk : k = key
      · subst hk
        simp [h, erase]
      · cases hp : p (k, v) <;> simp [hp, hk, erase, ih]

theorem filter_erase_of_neg (h : ∀ value, p (key, value) = false) (t : List (κ × α)) :
    (erase t key).filter p = t.filter p := by
  induction t with
  | nil => rfl
  | cons e t ih =>
      obtain ⟨k, v⟩ := e
      by_cases hk : k = key
      · subst hk
        simp [h, erase]
      · simp [hk, erase, List.filter_cons, ih]

theorem filter_foldl_erase {gone : List κ} (h : ∀ key ∈ gone, ∀ value, p (key, value) = true)
    (t : List (κ × α)) : (gone.foldl erase t).filter p = gone.foldl erase (t.filter p) := by
  induction gone generalizing t with
  | nil => rfl
  | cons key gone ih =>
      obtain ⟨hkey, hgone⟩ := List.forall_mem_cons.mp h
      rw [List.foldl_cons, List.foldl_cons, ih hgone, filter_erase hkey]

theorem filter_foldl_erase_of_neg {gone : List κ} (h : ∀ key ∈ gone, ∀ value, p (key, value) = false)
    (t : List (κ × α)) : (gone.foldl erase t).filter p = t.filter p := by
  induction gone generalizing t with
  | nil => rfl
  | cons key gone ih =>
      obtain ⟨hkey, hgone⟩ := List.forall_mem_cons.mp h
      rw [List.foldl_cons, ih hgone, filter_erase_of_neg hkey]

/-! ## Entries that may be absent -/

section
variable {slots : List (κ × Option α)}

omit [DecidableEq κ] in
/-- The entries that have a value. -/
def present (slots : List (κ × Option α)) : List (κ × α) := slots.filterMap fun e => e.2.map (e.1, ·)

omit [DecidableEq κ] in
theorem present_cons (key : κ) (value : Option α) (slots : List (κ × Option α)) :
    present ((key, value) :: slots) = (value.map (key, ·)).toList ++ present slots := by
  cases value <;> simp [present]

omit [DecidableEq κ] in
theorem keys_present_sublist (slots : List (κ × Option α)) : (keys (present slots)).Sublist (keys slots) := by
  induction slots with
  | nil => exact .slnil
  | cons e slots ih =>
      obtain ⟨k, v⟩ := e
      rw [present_cons]
      cases v with
      | none => exact ih.cons _
      | some v => exact ih.cons_cons _

omit [DecidableEq κ] in
theorem distinct_present (hd : Distinct slots) : Distinct (present slots) :=
  List.Nodup.sublist (keys_present_sublist slots) hd

theorem get?_present (hd : Distinct slots) (key : κ) : get? (present slots) key = (get? slots key).join := by
  induction slots with
  | nil => rfl
  | cons e slots ih =>
      obtain ⟨k, v⟩ := e
      obtain ⟨hnew, hrest⟩ := List.nodup_cons.mp hd
      rw [present_cons, get?]
      cases v with
      | none =>
          split
          · rename_i hk
            subst hk
            exact get?_eq_none_iff.mpr fun hm => hnew ((keys_present_sublist slots).subset hm)
          · exact ih hrest
      | some v =>
          simp only [Option.map_some, Option.toList_some, List.singleton_append, get?, ih hrest]
          split <;> rfl

theorem erase_present (hd : Distinct slots) (key : κ) : erase (present slots) key = present (erase slots key) := by
  induction slots with
  | nil => rfl
  | cons e slots ih =>
      obtain ⟨k, v⟩ := e
      obtain ⟨hnew, hrest⟩ := List.nodup_cons.mp hd
      rw [present_cons, erase]
      cases v with
      | none =>
          split
          · rename_i hk
            subst hk
            exact erase_of_not_mem fun hm => hnew ((keys_present_sublist slots).subset hm)
          · exact (ih hrest).trans (present_cons k none _).symm
      | some v =>
          simp only [Option.map_some, Option.toList_some, List.singleton_append, erase, ih hrest]
          split
          · rfl
          · exact (present_cons k (some v) _).symm

end

/-! ## An entry that goes last -/

/-- The table with the entry under this key, if there is one, moved to the end. -/
def moveLast (t : List (κ × α)) (key : κ) : List (κ × α) :=
  match get? t key with
  | some value => put (erase t key) key value
  | none => t

theorem perm_erase {t : List (κ × α)} {key : κ} {value : α} (h : get? t key = some value) :
    t.Perm (erase t key ++ [(key, value)]) := by
  induction t with
  | nil => cases h
  | cons e t ih =>
      obtain ⟨k, v⟩ := e
      rw [get?] at h
      rw [erase]
      split at h
      · rename_i hk
        obtain rfl := Option.some.inj h
        rw [if_pos hk, hk]
        exact (List.perm_append_singleton (key, v) t).symm
      · rename_i hk
        rw [if_neg hk]
        exact (ih h).cons (k, v)

end Table
end Shorthand
