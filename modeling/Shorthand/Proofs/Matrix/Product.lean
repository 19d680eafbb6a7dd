import Shorthand.Proofs.Families
import Shorthand.Proofs.WellFormed

/-!
# The entries of a matrix

The entries of a declared matrix are all choices of options, one from each dimension: every choice once, in
lexicographic order, the first dimension changing slowest.
-/
namespace Shorthand

/-! ## Options -/

namespace Dimension

theorem distinct_numbered (values : List String) : Table.Distinct (numbered values) := by
  have hk : Table.keys (numbered values) =
      (values.zipIdx.map Prod.snd).map fun i => Naming.numbered "" (i + 1) := by
    simp only [Table.keys, numbered, Naming.numbered, List.map_map, Function.comp_def, toString, String.empty_append]
  rw [Table.Distinct, hk, List.zipIdx_map_snd]
  exact List.Nodup.map (fun _ _ h => Nat.succ.inj (Naming.numbered_injective "" h)) List.nodup_range'

theorem distinct_of_readOptions {context : String} {params : Parameters} {node : Node}
    {options : List (String × String)} (hw : node.WellFormed) (h : readOptions context params node = .ok options) :
    Table.Distinct options := by
  unfold readOptions at h
  split at h
  · exact Except.ok.inj h ▸ distinct_numbered _
  · split at h
    · exact Except.ok.inj h ▸ distinct_numbered _
    · cases h
  · obtain rfl := Except.ok.inj h
    have hd := hw.distinct
    rwa [Table.Distinct, Table.keys, List.map_map]
  · cases h

/-- A dimension has the name it is declared under, and options under distinct keys. -/
theorem of_ofNode {matrix : String} {params : Parameters} {name : String} {node : Node} {d : Dimension}
    (hw : node.WellFormed) (h : ofNode matrix params name node = .ok d) :
    d.name = name ∧ Table.Distinct d.options := by
  obtain ⟨options, ho, h⟩ := Outcome.bind_eq_ok.mp h
  split at h
  · cases h
  · obtain rfl := Except.ok.inj h
    exact ⟨rfl, distinct_of_readOptions hw ho⟩

end Dimension

/-! ## Choices -/

namespace Matrix

/-- One option from each dimension. -/
def IsChoice (dimensions : List Dimension) (choice : List (String × String)) : Prop :=
  List.Forall₂ (fun d option => option ∈ d.options) dimensions choice

/-- One choice comes before another: in the first dimension in which they differ, its option stands before
the other's. -/
inductive Before : List Dimension → List (String × String) → List (String × String) → Prop
  | here {d : Dimension} {ds : List Dimension} {a b : String × String} {as bs : List (String × String)}
      (h : [a, b].Sublist d.options) : Before (d :: ds) (a :: as) (b :: bs)
  | later {d : Dimension} {ds : List Dimension} {a : String × String} {as bs : List (String × String)}
      (h : Before ds as bs) : Before (d :: ds) (a :: as) (a :: bs)

theorem mem_combinations {dimensions : List Dimension} {choice : List (String × String)} :
    choice ∈ combinations dimensions ↔ IsChoice dimensions choice := by
  induction dimensions generalizing choice with
  | nil => simp [combinations, IsChoice]
  | cons d ds ih =>
      simp only [combinations, List.mem_flatMap, List.mem_map, ih, IsChoice]
      constructor
      · rintro ⟨option, ho, rest, hr, rfl⟩
        exact .cons ho hr
      · intro h
        cases h with
        | cons ho hr => exact ⟨_, ho, _, hr, rfl⟩

theorem pairwise_combinations (dimensions : List Dimension) :
    (combinations dimensions).Pairwise (Before dimensions) := by
  induction dimensions with
  | nil => exact List.pairwise_singleton _ _
  | cons d ds ih =>
      rw [combinations, List.pairwise_flatMap]
      constructor
      · intro option _
        exact List.pairwise_map.mpr (ih.imp .later)
      · refine List.pairwise_iff_forall_sublist.mpr fun hab x hx y hy => ?_
        obtain ⟨as, _, rfl⟩ := List.mem_map.mp hx
        obtain ⟨bs, _, rfl⟩ := List.mem_map.mp hy
        exact .here hab

section
variable {dimensions : List Dimension} (hd : ∀ d ∈ dimensions, Table.Distinct d.options)
include hd

theorem Before.irrefl {choice : List (String × String)} : ¬ Before dimensions choice choice := by
  induction dimensions generalizing choice with
  | nil => rintro ⟨⟩
  | cons d ds ih =>
      obtain ⟨hd, hds⟩ := List.forall_mem_cons.mp hd
      intro h
      cases h with
      | here h => exact absurd rfl ((List.Nodup.of_map Prod.fst hd).forall_sublist h)
      | later h => exact ih hds h

theorem nodup_combinations : (combinations dimensions).Nodup := by
  refine (pairwise_combinations dimensions).imp fun {a b} h => ?_
  rintro rfl
  exact Before.irrefl hd h

/-- A choice is known by its keys. -/
theorem IsChoice.eq_of_keys {a b : List (String × String)} (ha : IsChoice dimensions a)
    (hb : IsChoice dimensions b) (h : a.map Prod.fst = b.map Prod.fst) : a = b := by
  induction ha generalizing b with
  | nil =>
      cases hb
      rfl
  | @cons d option ds rest ho _ ih =>
      obtain ⟨hd, hds⟩ := List.forall_mem_cons.mp hd
      cases hb with
      | @cons _ option' _ rest' ho' hr' =>
          obtain ⟨hkey, hkeys⟩ := List.cons.inj h
          rw [List.inj_on_of_nodup_map hd ho ho' hkey, ih hds hr' hkeys]

end

/-! ## Entries -/

/-- An entry has the keys of a choice, and under the names of the dimensions its values. Its id has letters
and digits only, and at least one. -/
structure Made (dimensions : List Dimension) (choice : List (String × String)) (entry : MatrixEntry) : Prop where
  keys : entry.keys = choice.map Prod.fst
  values : entry.values = (dimensions.map Dimension.name).zip (choice.map Prod.snd)
  word : IsWord entry.id
  ne_empty : entry.id ≠ ""

/-- The entries are the choices in order, each of them once. -/
structure Complete (m : Matrix) (choices : List (List (String × String))) : Prop where
  all : ∀ choice, choice ∈ choices ↔ IsChoice m.dimensions choice
  nodup : choices.Nodup
  ordered : choices.Pairwise (Before m.dimensions)
  entries : List.Forall₂ (Made m.dimensions) choices m.entries

theorem made_of_entryOf {matrix pattern : String} {dimensions : List Dimension}
    (hn : (dimensions.map Dimension.name).Nodup) {choice : List (String × String)}
    (hlen : dimensions.length = choice.length) {entry : MatrixEntry}
    (h : entryOf matrix pattern dimensions choice = .ok entry) : Made dimensions choice entry := by
  unfold entryOf at h
  simp only at h
  split at h
  · cases h
  · rename_i hc
    obtain rfl := Except.ok.inj h
    simp only [Bool.or_eq_true, Bool.not_eq_true', not_or, Bool.not_eq_false, List.all_eq_true] at hc
    have hd : Table.Distinct ((dimensions.map Dimension.name).zip (choice.map Prod.snd)) := by
      rw [Table.Distinct, Table.keys, List.map_fst_zip (by simp [hlen])]
      exact hn
    refine ⟨rfl, Table.ofList_of_distinct hd, hc.2, fun he => hc.1 ?_⟩
    rw [show substitute "" _ _ pattern = "" from he]
    rfl

theorem complete_of_new {id pattern : String} {dimensions : List Dimension} {m : Matrix}
    (hn : (dimensions.map Dimension.name).Nodup) (hd : ∀ d ∈ dimensions, Table.Distinct d.options)
    (h : new id pattern dimensions = .ok m) :
    m.dimensions = dimensions ∧ m.Complete (combinations dimensions) := by
  obtain ⟨entries, he, h⟩ := Outcome.bind_eq_ok.mp h
  obtain rfl := Except.ok.inj h
  refine ⟨rfl, fun _ => mem_combinations, nodup_combinations hd, pairwise_combinations dimensions, ?_⟩
  have hall : ∀ choice ∈ combinations dimensions, IsChoice dimensions choice := fun _ => mem_combinations.mp
  exact ((List.forall₂_and_left _ _).mpr ⟨hall, Outcome.mapM_eq_ok.mp he⟩).imp fun _ _ h =>
    made_of_entryOf hn h.1.length_eq h.2

end Matrix
end Shorthand
