import Mathlib.Data.List.DropRight
import Mathlib.Data.List.TakeWhile
import Shorthand.Node
import Shorthand.Text.Basic

/-!
# Texts that are cut and read again

What is put together with separators comes apart at them again, if it has none of its own.
-/
namespace Shorthand

namespace Text

variable {sep : Char}

theorem after?_eq_some_iff {lead cs rest : List Char} : after? lead cs = some rest ↔ cs = lead ++ rest := by
  induction lead generalizing cs with
  | nil => simp [after?]
  | cons a lead ih =>
      cases cs with
      | nil => simp [after?]
      | cons c cs =>
          by_cases h : a = c
          · simp [after?, h, ih]
          · simp [after?, h, Ne.symm h]

theorem isSome_after?_iff {lead cs : List Char} : (after? lead cs).isSome = true ↔ lead <+: cs := by
  rw [Option.isSome_iff_exists]
  exact exists_congr fun rest => after?_eq_some_iff.trans eq_comm

theorem after?_append (lead rest : List Char) : after? lead (lead ++ rest) = some rest :=
  after?_eq_some_iff.mpr rfl

section
variable {p : Char → Bool} {as : List Char} (h : ∀ a ∈ as, p a = true) {b : Char} (hb : p b = false)
include h hb

theorem takeWhile_append_stop (bs : List Char) : (as ++ b :: bs).takeWhile p = as := by
  rw [List.takeWhile_append_of_pos h, List.takeWhile_cons_of_neg (by simp [hb]), List.append_nil]

theorem dropWhile_append_stop (bs : List Char) : (as ++ b :: bs).dropWhile p = b :: bs := by
  rw [List.dropWhile_append_of_pos h, List.dropWhile_cons_of_neg (by simp [hb])]

end

theorem takeWhile_stop {p : Char → Bool} {c : Char} (h : p c = false) (as bs : List Char) :
    (as ++ c :: bs).takeWhile p = as.takeWhile p := by
  induction as with
  | nil => simp [h]
  | cons a as ih => simp only [List.cons_append, List.takeWhile_cons, ih]

theorem dropWhile_stop {p : Char → Bool} {c : Char} (h : p c = false) (as bs : List Char) :
    (as ++ c :: bs).dropWhile p = as.dropWhile p ++ c :: bs := by
  induction as with
  | nil => simp [h]
  | cons a as ih =>
      simp only [List.cons_append, List.dropWhile_cons, ih]
      split <;> rfl

section
variable {p : Char → Bool} {as bs : List Char} (h : ∀ a ∈ as, p a = true) (hb : ∀ b, bs.head? = some b → p b = false)
include h hb

theorem takeWhile_append_boundary : (as ++ bs).takeWhile p = as := by
  cases bs with
  | nil => rw [List.append_nil, List.takeWhile_eq_self_iff.mpr h]
  | cons b bs => exact takeWhile_append_stop h (hb b rfl) bs

theorem dropWhile_append_boundary : (as ++ bs).dropWhile p = bs := by
  cases bs with
  | nil => rw [List.append_nil, List.dropWhile_eq_nil_iff.mpr h]
  | cons b bs => exact dropWhile_append_stop h (hb b rfl) bs

end

/-- The parts of a text have none of its separators, and nothing that the text has not. -/
theorem mem_split {cs part : List Char} (h : part ∈ split sep cs) : sep ∉ part ∧ part ⊆ cs := by
  induction cs generalizing part with
  | nil =>
      rw [split, List.mem_singleton] at h
      simp [h]
  | cons c cs ih =>
      rw [split] at h
      split at h
      · rcases List.mem_cons.mp h with rfl | h
        · simp
        · exact ⟨(ih h).1, fun a ha => List.mem_cons_of_mem c ((ih h).2 ha)⟩
      · rename_i hc
        split at h
        · rename_i first parts hs
          rcases List.mem_cons.mp h with rfl | h
          · obtain ⟨hn, hsub⟩ := ih (hs ▸ List.mem_cons_self)
            exact ⟨by simp [hn, Ne.symm hc], List.cons_subset_cons c hsub⟩
          · obtain ⟨hn, hsub⟩ := ih (hs ▸ List.mem_cons_of_mem first h)
            exact ⟨hn, fun a ha => List.mem_cons_of_mem c (hsub ha)⟩
        · rename_i hs
          exact absurd hs (split_ne_nil sep cs)

theorem split_of_not_mem {cs : List Char} (h : sep ∉ cs) : split sep cs = [cs] := by
  induction cs with
  | nil => rfl
  | cons c cs ih =>
      obtain ⟨hc, hcs⟩ := not_or.mp fun hm => h (List.mem_cons.mpr hm)
      rw [split, if_neg (Ne.symm hc), ih hcs]

theorem split_append (sep : Char) (as bs : List Char) :
    split sep (as ++ sep :: bs) = split sep as ++ split sep bs := by
  induction as with
  | nil => simp [split]
  | cons a as ih =>
      rw [List.cons_append, split, split, ih]
      split
      · rfl
      · cases h : split sep as with
        | nil => exact absurd h (split_ne_nil sep as)
        | cons part parts => rfl

/-- Every character but a separator stands in a part. -/
theorem exists_mem_split {cs : List Char} {c : Char} (hm : c ∈ cs) (hc : c ≠ sep) :
    ∃ part ∈ split sep cs, c ∈ part := by
  induction cs with
  | nil => cases hm
  | cons a cs ih =>
      rw [split]
      split
      · rename_i ha
        obtain ⟨part, hp, hcp⟩ := ih ((List.mem_cons.mp hm).resolve_left fun he => hc (he.trans ha))
        exact ⟨part, List.mem_cons_of_mem _ hp, hcp⟩
      · split
        · rename_i first parts hs
          rcases List.mem_cons.mp hm with rfl | hm
          · exact ⟨c :: first, List.mem_cons_self, List.mem_cons_self⟩
          · obtain ⟨part, hp, hcp⟩ := ih hm
            rw [hs] at hp
            rcases List.mem_cons.mp hp with rfl | hp
            · exact ⟨a :: part, List.mem_cons_self, List.mem_cons_of_mem a hcp⟩
            · exact ⟨part, List.mem_cons_of_mem _ hp, hcp⟩
        · rename_i hs
          exact absurd hs (split_ne_nil sep cs)

/-- After a separator at the end comes an empty part. -/
theorem nil_mem_split_of_getLast? {cs : List Char} (h : cs.getLast? = some sep) : [] ∈ split sep cs := by
  obtain ⟨init, rfl⟩ := List.getLast?_eq_some_iff.mp h
  rw [split_append]
  exact List.mem_append_right _ (List.mem_singleton_self [])

/-- Parts without separators are what the text joined of them is cut into. -/
theorem split_intercalate {parts : List (List Char)} (h : ∀ part ∈ parts, sep ∉ part) (hne : parts ≠ []) :
    split sep ([sep].intercalate parts) = parts := by
  induction parts with
  | nil => exact absurd rfl hne
  | cons part parts ih =>
      obtain ⟨hpart, hparts⟩ := List.forall_mem_cons.mp h
      cases parts with
      | nil => rw [List.intercalate_singleton, split_of_not_mem hpart]
      | cons next parts =>
          rw [List.intercalate_cons_cons, List.append_assoc, List.singleton_append, split_append,
            split_of_not_mem hpart, ih hparts (List.cons_ne_nil _ _), List.singleton_append]

theorem mem_intercalate_iff {parts : List (List Char)} {c : Char} (hc : c ≠ sep) :
    c ∈ [sep].intercalate parts ↔ ∃ part ∈ parts, c ∈ part := by
  induction parts with
  | nil => simp
  | cons part parts ih =>
      cases parts with
      | nil => simp
      | cons next parts =>
          rw [List.exists_mem_cons_iff, ← ih]
          simp [List.intercalate_cons_cons, hc]

theorem isSome_splitFirst?_iff {cs : List Char} : (splitFirst? sep cs).isSome = true ↔ sep ∈ cs := by
  induction cs with
  | nil => simp [splitFirst?]
  | cons c cs ih =>
      rw [splitFirst?]
      split
      · rename_i hc
        simp [hc]
      · rename_i hc
        rw [Option.isSome_map, ih, List.mem_cons, or_iff_right (Ne.symm hc)]

/-! ## White space at the ends -/

/-- There is no white space at the two ends. -/
structure Trimmed (cs : List Char) : Prop where
  head : ∀ c, cs.head? = some c → isBlank c = false
  last : ∀ c, cs.getLast? = some c → isBlank c = false

theorem trim_eq_rdropWhile (cs : List Char) : trim cs = (cs.dropWhile isBlank).rdropWhile isBlank := rfl

theorem trim_subset (cs : List Char) : trim cs ⊆ cs :=
  List.Subset.trans (List.rdropWhile_prefix _ _).subset (List.dropWhile_sublist _).subset

theorem trimmed_trim (cs : List Char) : Trimmed (trim cs) := by
  rw [trim_eq_rdropWhile]
  constructor
  · intro c hc
    obtain ⟨rest, hrest⟩ := List.rdropWhile_prefix isBlank (cs.dropWhile isBlank)
    have hhead : (cs.dropWhile isBlank).head? = some c := by
      rw [← hrest, List.head?_append, hc, Option.some_or]
    have hnot := List.head?_dropWhile_not isBlank cs
    rwa [hhead] at hnot
  · intro c hc
    obtain ⟨hne, rfl⟩ := List.mem_getLast?_eq_getLast hc
    simpa using List.rdropWhile_last_not isBlank _ hne

theorem trim_eq_self_iff {cs : List Char} : trim cs = cs ↔ Trimmed cs := by
  constructor
  · intro h
    exact h ▸ trimmed_trim cs
  · intro h
    have hdrop : cs.dropWhile isBlank = cs := by
      cases cs with
      | nil => rfl
      | cons c cs => simp [h.head c rfl]
    rw [trim_eq_rdropWhile, hdrop, List.rdropWhile_eq_self_iff]
    intro hne
    simp [h.last _ (List.getLast?_eq_some_getLast hne)]

theorem Trimmed.append {as bs : List Char} (ha : Trimmed as) (hb : Trimmed bs) (hs : isBlank sep = false) :
    Trimmed (as ++ sep :: bs) := by
  constructor
  · intro c hc
    cases as with
    | nil => simp_all
    | cons a as => exact ha.head c hc
  · intro c hc
    cases bs using List.reverseRecOn with
    | nil => simp_all
    | append_singleton bs b => exact hb.last c (by simpa [List.getLast?_cons] using hc)

/-! ## White space around a text -/

/-- Nothing but white space. -/
def Blank (cs : List Char) : Prop := ∀ c ∈ cs, isBlank c = true

instance (cs : List Char) : Decidable (Blank cs) := List.decidableBAll _ _

theorem trim_append_left {as : List Char} (h : Blank as) (cs : List Char) : trim (as ++ cs) = trim cs := by
  rw [trim_eq_rdropWhile, trim_eq_rdropWhile, List.dropWhile_append_of_pos h]

theorem trim_append_right {bs : List Char} (h : Blank bs) (cs : List Char) : trim (cs ++ bs) = trim cs := by
  have hdrop (xs : List Char) : (xs ++ bs).rdropWhile isBlank = xs.rdropWhile isBlank := by
    have hreverse : ∀ b ∈ bs.reverse, isBlank b = true := fun b hb => h b (List.mem_reverse.mp hb)
    rw [List.rdropWhile, List.reverse_append, List.dropWhile_append_of_pos hreverse, List.rdropWhile]
  rw [trim_eq_rdropWhile, trim_eq_rdropWhile, List.dropWhile_append]
  split
  · rename_i hnil
    rw [List.isEmpty_iff] at hnil
    rw [hnil, List.dropWhile_eq_nil_iff.mpr h]
  · exact hdrop _

theorem Trimmed.trim_padded {cs : List Char} (h : Trimmed cs) {as bs : List Char} (ha : Blank as) (hb : Blank bs) :
    trim (as ++ cs ++ bs) = cs := by
  rw [trim_append_right hb, trim_append_left ha, trim_eq_self_iff.mpr h]

/-- White space is taken away from both sides of what is no white space. -/
theorem trim_append_cons (hs : isBlank sep = false) (as bs : List Char) :
    trim (as ++ sep :: bs) = as.dropWhile isBlank ++ sep :: bs.rdropWhile isBlank := by
  rw [trim_eq_rdropWhile, dropWhile_stop hs, List.rdropWhile, List.reverse_append, List.reverse_cons,
    List.append_assoc, List.singleton_append, dropWhile_stop hs]
  simp [List.rdropWhile]

theorem trim_dropWhile (cs : List Char) : trim (cs.dropWhile isBlank) = trim cs := by
  have hblank : Blank (cs.takeWhile isBlank) := fun _ hc => List.mem_takeWhile_imp hc
  have h := trim_append_left hblank (cs.dropWhile isBlank)
  rwa [List.takeWhile_append_dropWhile, eq_comm] at h

theorem trim_rdropWhile (cs : List Char) : trim (cs.rdropWhile isBlank) = trim cs := by
  have hblank : Blank (cs.rtakeWhile isBlank) := fun _ hc => List.mem_rtakeWhile_imp hc
  have h := trim_append_right hblank (cs.rdropWhile isBlank)
  rwa [List.rdropWhile_append_rtakeWhile, eq_comm] at h

theorem trim_eq_nil_iff {cs : List Char} : trim cs = [] ↔ Blank cs := by
  rw [trim_eq_rdropWhile, List.rdropWhile_eq_nil_iff]
  constructor
  · intro h
    have hall : Blank (cs.takeWhile isBlank ++ cs.dropWhile isBlank) := fun c hc =>
      (List.mem_append.mp hc).elim (fun hc => List.mem_takeWhile_imp hc) (h c)
    rwa [List.takeWhile_append_dropWhile] at hall
  · exact fun h c hc => h c ((List.dropWhile_sublist _).subset hc)

theorem mem_trim_iff {cs : List Char} {c : Char} (hc : isBlank c = false) : c ∈ trim cs ↔ c ∈ cs := by
  refine ⟨fun h => trim_subset cs h, fun h => ?_⟩
  obtain ⟨as, bs, rfl⟩ := List.append_of_mem h
  rw [trim_append_cons hc]
  exact List.mem_append_right _ List.mem_cons_self

end Text

/-! ## The texts of a tree -/

namespace Node

mutual
/-- Applies a function to the texts of a tree, but not to its keys. -/
def mapTexts (f : String → String) : Node → Node
  | text s => text (f s)
  | list items => list (mapTextsOfItems f items)
  | map entries => map (mapTextsOfEntries f entries)
  | scalar => scalar

def mapTextsOfItems (f : String → String) : List Node → List Node
  | [] => []
  | item :: items => mapTexts f item :: mapTextsOfItems f items

def mapTextsOfEntries (f : String → String) : List (String × Node) → List (String × Node)
  | [] => []
  | (key, value) :: entries => (key, mapTexts f value) :: mapTextsOfEntries f entries
end

end Node

end Shorthand
