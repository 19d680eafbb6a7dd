import Shorthand.Call
import Shorthand.Proofs.Table

/-!
# Well-formed trees

Operations on tables keep the keys distinct, and those on mappings keep them well-formed.
-/
namespace Shorthand

/-! ## Distinct keys -/

namespace Table
variable {κ α : Type}

theorem Distinct.of_sublist {t t' : List (κ × α)} (h : Distinct t) (hs : t'.Sublist t) : Distinct t' :=
  List.Nodup.sublist (hs.map Prod.fst) h

variable [DecidableEq κ]

theorem Distinct.put {t : List (κ × α)} (h : Distinct t) (key : κ) (value : α) :
    Distinct (put t key value) := by
  rw [Distinct, keys_put]
  split
  · exact h
  · rename_i hk
    exact nodup_snoc h hk

theorem Distinct.get?_of_mem {t : List (κ × α)} (h : Distinct t) {key : κ} {value : α}
    (hm : (key, value) ∈ t) : get? t key = some value := by
  induction t with
  | nil => cases hm
  | cons e t ih =>
      obtain ⟨k, v⟩ := e
      obtain ⟨hk, ht⟩ := List.nodup_cons.mp h
      rw [get?]
      rcases List.mem_cons.mp hm with he | hm
      · obtain ⟨rfl, rfl⟩ := Prod.mk.inj he
        exact if_pos rfl
      · have hne : k ≠ key := by
          rintro rfl
          exact hk (List.mem_map.mpr ⟨_, hm, rfl⟩)
        rw [if_neg hne]
        exact ih ht hm

/-- Distinct keys are all gone with their first occurrence. -/
theorem Distinct.keys_erase {t : List (κ × α)} (h : Distinct t) (key : κ) :
    keys (erase t key) = (keys t).filter fun k => k ≠ key := by
  induction t with
  | nil => rfl
  | cons e t ih =>
      obtain ⟨k, v⟩ := e
      obtain ⟨hk, ht⟩ := List.nodup_cons.mp h
      rw [erase]
      split
      · rename_i he
        subst he
        rw [keys, keys, List.map_cons, List.filter_cons_of_neg (by simp), List.filter_eq_self.mpr]
        intro other hm
        simpa using fun he : other = k => hk (he ▸ hm)
      · rename_i hne
        have ih := ih ht
        rw [keys, keys, List.map_cons, List.map_cons, List.filter_cons_of_pos (by simpa using hne)]
        exact congrArg _ ih

theorem Distinct.foldl_erase {t : List (κ × α)} (h : Distinct t) (gone : List κ) :
    Distinct (gone.foldl erase t) ∧ ∀ key ∈ gone, key ∉ keys (gone.foldl erase t) := by
  induction gone generalizing t with
  | nil => exact ⟨h, by simp⟩
  | cons key gone ih =>
      obtain ⟨hd, hgone⟩ := ih (h.of_sublist (erase_sublist t key))
      refine ⟨hd, List.forall_mem_cons.mpr ⟨fun hm => ?_, hgone⟩⟩
      have hm := (foldl_erase_sublist gone (erase t key)).map Prod.fst |>.subset hm
      have hm : key ∈ keys (erase t key) := hm
      rw [h.keys_erase] at hm
      simp at hm

theorem Distinct.foldl_erase_eq_filter {t : List (κ × α)} (h : Distinct t) (gone : List κ) :
    gone.foldl erase t = t.filter fun e => e.1 ∉ gone := by
  have hother : ∀ e ∈ gone.foldl erase t, e.1 ∉ gone := fun e he hg =>
    (h.foldl_erase gone).2 e.1 hg (List.mem_map_of_mem he)
  calc gone.foldl erase t = (gone.foldl erase t).filter fun e => e.1 ∉ gone :=
        (List.filter_eq_self.mpr fun e he => decide_eq_true (hother e he)).symm
    _ = t.filter fun e => e.1 ∉ gone := filter_foldl_erase_of_neg (fun key hk _ => by simpa using hk) t

theorem Distinct.not_mem_erase {t : List (κ × α)} (h : Distinct t) (key : κ) : key ∉ keys (erase t key) := by
  rw [h.keys_erase]
  simp

theorem Distinct.get?_erase {t : List (κ × α)} (h : Distinct t) (key other : κ) :
    get? (erase t key) other = if key = other then none else get? t other := by
  split
  · rename_i he
    exact get?_eq_none_iff.mpr (he ▸ h.not_mem_erase key)
  · rename_i hne
    exact get?_erase_of_ne t hne

theorem Distinct.putAll {t : List (κ × α)} (h : Distinct t) (more : List (κ × α)) : Distinct (putAll t more) := by
  induction more generalizing t with
  | nil => exact h
  | cons e more ih => exact ih (h.put e.1 e.2)

theorem Distinct.perm_moveLast {t : List (κ × α)} (h : Distinct t) (key : κ) : t.Perm (moveLast t key) := by
  unfold moveLast
  split
  · rename_i value hg
    rw [put_of_not_mem value (h.not_mem_erase key)]
    exact perm_erase hg
  · exact .refl t

theorem Distinct.get?_eq_some_iff {t : List (κ × α)} (h : Distinct t) {key : κ} {value : α} :
    get? t key = some value ↔ (key, value) ∈ t :=
  ⟨mem_of_get?, h.get?_of_mem⟩

/-- Entries under new keys go last, in their order. -/
theorem putAll_of_new {t more : List (κ × α)} (hd : Distinct more) (hn : ∀ key ∈ keys more, key ∉ keys t) :
    putAll t more = t ++ more := by
  induction more generalizing t with
  | nil => simp [putAll]
  | cons e more ih =>
      obtain ⟨hnew, hd⟩ := List.nodup_cons.mp hd
      obtain ⟨he, hn⟩ := List.forall_mem_cons.mp hn
      have hrest : ∀ key ∈ keys more, key ∉ keys (put t e.1 e.2) := by
        intro key hk hm
        rcases mem_keys_put.mp hm with hm | rfl
        · exact hn key hk hm
        · exact hnew hk
      change putAll (put t e.1 e.2) more = _
      rw [ih hd hrest, put_of_not_mem e.2 he, List.append_assoc]
      rfl

theorem putAll_of_distinct {t more : List (κ × α)} (h : Distinct (t ++ more)) : putAll t more = t ++ more := by
  rw [Distinct, keys, List.map_append, List.nodup_append'] at h
  exact putAll_of_new h.2.1 fun key hk hm => h.2.2 hm hk

theorem ofList_of_distinct {entries : List (κ × α)} (h : Distinct entries) : ofList entries = entries :=
  putAll_of_distinct (t := []) h

end Table

/-! ## Well-formed nodes -/

namespace Node

theorem entriesWellFormed_iff {entries : List (String × Node)} :
    EntriesWellFormed entries ↔ ∀ e ∈ entries, e.2.WellFormed := by
  induction entries with
  | nil => simp [EntriesWellFormed]
  | cons e entries ih => simp [EntriesWellFormed, ih]

theorem wellFormed_map_iff {entries : List (String × Node)} :
    (map entries).WellFormed ↔ Table.Distinct entries ∧ ∀ e ∈ entries, e.2.WellFormed := by
  rw [WellFormed, entriesWellFormed_iff]

theorem wellFormed_list_iff {items : List Node} :
    (list items).WellFormed ↔ ∀ item ∈ items, item.WellFormed := by
  rw [WellFormed]
  induction items with
  | nil => simp [AllWellFormed]
  | cons item items ih => simp [AllWellFormed, ih]

@[simp] theorem wellFormed_text (s : String) : (text s).WellFormed := trivial

@[simp] theorem wellFormed_bool (b : Bool) : (bool b).WellFormed := trivial

@[simp] theorem wellFormed_call_iff {name : String} {arg : Node} :
    (call name arg).WellFormed ↔ arg.WellFormed := by
  simp [call, wellFormed_map_iff, Table.Distinct, Table.keys]

@[simp] theorem wellFormed_refTo (id : String) : (refTo id).WellFormed :=
  wellFormed_call_iff.mpr (wellFormed_text id)

@[simp] theorem wellFormed_attributeOf (id attr : String) : (attributeOf id attr).WellFormed := by
  simp [attributeOf, wellFormed_list_iff]

theorem wellFormed_nil : (map []).WellFormed := wellFormed_map_iff.mpr ⟨List.nodup_nil, by simp⟩

theorem not_isNull_of_mem_entries {node : Node} {e : String × Node} (h : e ∈ node.entries) : e.2.isNull = false := by
  cases node with
  | map t => simpa using (List.mem_filter.mp h).2
  | _ => exact absurd h List.not_mem_nil

theorem entries_of_not_isNull {t : Table Node} (h : ∀ e ∈ t, e.2.isNull = false) : (map t).entries = t :=
  List.filter_eq_self.mpr fun e he => by simpa using h e he

namespace WellFormed
variable {t : Table Node}

theorem distinct (h : (map t).WellFormed) : Table.Distinct t := (wellFormed_map_iff.mp h).1

theorem of_get? (h : (map t).WellFormed) {key : String} {value : Node}
    (hg : Table.get? t key = some value) : value.WellFormed :=
  (wellFormed_map_iff.mp h).2 _ (Table.mem_of_get? hg)

theorem of_sublist (h : (map t).WellFormed) {fewer : Table Node} (hs : fewer.Sublist t) :
    (map fewer).WellFormed :=
  wellFormed_map_iff.mpr ⟨h.distinct.of_sublist hs, fun _ he => (wellFormed_map_iff.mp h).2 _ (hs.subset he)⟩

theorem erase (h : (map t).WellFormed) (key : String) : (map (Table.erase t key)).WellFormed :=
  h.of_sublist (Table.erase_sublist t key)

theorem put (h : (map t).WellFormed) (key : String) {value : Node} (hv : value.WellFormed) :
    (map (Table.put t key value)).WellFormed := by
  refine wellFormed_map_iff.mpr ⟨h.distinct.put key value, fun e he => ?_⟩
  rcases Table.mem_of_mem_put he with he | rfl
  · exact (wellFormed_map_iff.mp h).2 e he
  · exact hv

theorem putNew (h : (map t).WellFormed) (key : String) {value : Node} (hv : value.WellFormed) :
    (map (Table.putNew t key value)).WellFormed := by
  unfold Table.putNew
  split
  · exact h
  · exact h.put key hv

theorem putAll (h : (map t).WellFormed) {more : Table Node} (hm : ∀ e ∈ more, e.2.WellFormed) :
    (map (Table.putAll t more)).WellFormed := by
  induction more generalizing t with
  | nil => exact h
  | cons e more ih =>
      obtain ⟨he, hm⟩ := List.forall_mem_cons.mp hm
      exact ih (h.put e.1 he) hm

theorem entries {node : Node} (h : node.WellFormed) : (map node.entries).WellFormed := by
  cases node with
  | map entries => exact h.of_sublist List.filter_sublist
  | _ => exact wellFormed_map_iff.mpr ⟨List.nodup_nil, by simp [Node.entries]⟩

end WellFormed

/-! ## Nodes inside others -/

mutual
/-- How many lists and mappings there are around the innermost node, itself included. -/
def depth : Node → Nat
  | list items => depthOfItems items + 1
  | map entries => depthOfEntries entries + 1
  | _ => 0

def depthOfItems : List Node → Nat
  | [] => 0
  | item :: items => max (depth item) (depthOfItems items)

def depthOfEntries : List (String × Node) → Nat
  | [] => 0
  | (_, value) :: entries => max (depth value) (depthOfEntries entries)
end

end Node
end Shorthand
