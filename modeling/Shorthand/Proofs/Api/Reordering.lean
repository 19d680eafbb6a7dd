import Shorthand.Proofs.Api.Tree

/-!
# Path trees in another order

The entries of a path tree may come in another order, at any level. Then it spells the same paths and holds the
same methods.
-/
namespace Shorthand

namespace Api

/-! ## Entries in another order -/

/-- The same entries in another order, and so at every path below. What stands under a verb is the same. -/
inductive Reordered : List (String × Node) → List (String × Node) → Prop
  | nil : Reordered [] []
  | cons (e : String × Node) {entries entries' : List (String × Node)} (h : Reordered entries entries') :
      Reordered (e :: entries) (e :: entries')
  | deeper (rest : String) {tree tree' entries entries' : List (String × Node)} (ht : Reordered tree tree')
      (h : Reordered entries entries') :
      Reordered (("/" ++ rest, .map tree) :: entries) (("/" ++ rest, .map tree') :: entries')
  | swap (e e' : String × Node) (entries : List (String × Node)) :
      Reordered (e :: e' :: entries) (e' :: e :: entries)
  | trans {entries between entries' : List (String × Node)} (h : Reordered entries between)
      (h' : Reordered between entries') : Reordered entries entries'

namespace Reordered
variable {entries entries' : List (String × Node)}

theorem refl : (entries : List (String × Node)) → Reordered entries entries
  | [] => .nil
  | e :: entries => .cons e (refl entries)

theorem symm (h : Reordered entries entries') : Reordered entries' entries := by
  induction h with
  | nil => exact .nil
  | cons e _ ih => exact .cons e ih
  | deeper rest _ _ iht ih => exact .deeper rest iht ih
  | swap e e' entries => exact .swap e' e entries
  | trans _ _ ih ih' => exact .trans ih' ih

/-- An entry is there again, or a path with what stands below it in another order. -/
theorem mem (h : Reordered entries entries') {e : String × Node} (he : e ∈ entries) :
    e ∈ entries' ∨ ∃ rest tree tree', e = ("/" ++ rest, .map tree) ∧ ("/" ++ rest, .map tree') ∈ entries' ∧
      Reordered tree tree' := by
  induction h generalizing e with
  | nil => cases he
  | cons e _ ih =>
      rcases List.mem_cons.mp he with rfl | he
      · exact .inl List.mem_cons_self
      · rcases ih he with hm | ⟨rest, tree, tree', rfl, hm, ht⟩
        · exact .inl (List.mem_cons_of_mem _ hm)
        · exact .inr ⟨rest, tree, tree', rfl, List.mem_cons_of_mem _ hm, ht⟩
  | deeper rest ht _ _ ih =>
      rcases List.mem_cons.mp he with rfl | he
      · exact .inr ⟨rest, _, _, rfl, List.mem_cons_self, ht⟩
      · rcases ih he with hm | ⟨rest, tree, tree', rfl, hm, ht⟩
        · exact .inl (List.mem_cons_of_mem _ hm)
        · exact .inr ⟨rest, tree, tree', rfl, List.mem_cons_of_mem _ hm, ht⟩
  | swap first second entries => exact .inl ((List.Perm.swap second first entries).mem_iff.mp he)
  | trans _ _ ih ih' =>
      rcases ih he with hm | ⟨rest, tree, tree', rfl, hm, ht⟩
      · exact ih' hm
      · rcases ih' hm with hm | ⟨rest', tree₁, tree₂, heq, hm, ht'⟩
        · exact .inr ⟨rest, tree, tree', rfl, hm, ht⟩
        · obtain ⟨hkey, hvalue⟩ := Prod.mk.inj heq
          obtain rfl := Node.map.inj hvalue
          exact .inr ⟨rest, tree, tree₂, rfl, hkey ▸ hm, ht.trans ht'⟩

theorem filter_notNull (h : Reordered entries entries') :
    Reordered (entries.filter fun e => !e.2.isNull) (entries'.filter fun e => !e.2.isNull) := by
  induction h with
  | nil => exact .nil
  | cons e _ ih =>
      cases he : e.2.isNull
      · simpa [he] using ih.cons e
      · simpa [he] using ih
  | deeper rest ht _ _ ih => simpa [Node.isNull] using Reordered.deeper rest ht ih
  | swap e e' entries =>
      cases he : e.2.isNull <;> cases he' : e'.2.isNull <;> simp [he, he', Reordered.swap, Reordered.refl]
  | trans _ _ ih ih' => exact ih.trans ih'

end Reordered

theorem Spells.of_reordered {entries entries' : List (String × Node)} {text : String}
    (h : Spells entries text) (hr : Reordered entries entries') : Spells entries' text := by
  induction h generalizing entries' with
  | here h hv =>
      rcases hr.mem h with hm | ⟨_, _, tree', heq, hm, _⟩
      · exact .here hm hv
      · rw [(Prod.mk.inj heq).1]
        exact .here hm (by simp)
  | deeper h _ ih =>
      rcases hr.mem h with hm | ⟨_, _, tree', heq, hm, ht⟩
      · exact .deeper hm (ih (.refl _))
      · obtain ⟨hkey, hvalue⟩ := Prod.mk.inj heq
        obtain rfl := Node.map.inj hvalue
        rw [hkey]
        exact .deeper hm (ih ht)

namespace Builder

theorem OnTheWay.of_reordered {place path : Path} {entries entries' : List (String × Node)}
    (h : OnTheWay place entries path) (hr : Reordered entries entries') : OnTheWay place entries' path := by
  obtain ⟨text, hs, hway⟩ := h
  exact ⟨text, hs.of_reordered hr, hway⟩

/-! ## The methods of a tree -/

/-- A path below a place has a verb, and this stands under it. Null entries do not count. -/
inductive HasMethod : Path → List (String × Node) → Path → String → Node → Prop
  | here {place : Path} {entries : List (String × Node)} {verb : String} {body : Node}
      (h : ("$" ++ verb, body) ∈ entries) (hv : body ≠ .null) :
      HasMethod place entries place (capital verb) body
  | deeper {place path : Path} {entries tree : List (String × Node)} {rest verb : String} {body : Node}
      (h : ("/" ++ rest, .map tree) ∈ entries)
      (hm : HasMethod ⟨place.segments ++ (Path.ofText ("/" ++ rest)).segments⟩ tree path verb body) :
      HasMethod place entries path verb body

namespace HasMethod
variable {place path : Path} {entries more tree : List (String × Node)} {verb : String} {body : Node}

theorem of_reordered (h : HasMethod place entries path verb body) (hr : Reordered entries more) :
    HasMethod place more path verb body := by
  induction h generalizing more with
  | here h hv =>
      rcases hr.mem h with hm | ⟨_, _, _, heq, _, _⟩
      · exact .here hm hv
      · exact absurd (Prod.mk.inj heq).1.symm (slash_ne_dollar _ _)
  | deeper h _ ih =>
      rcases hr.mem h with hm | ⟨_, _, tree', heq, hm, ht⟩
      · exact .deeper hm (ih (.refl _))
      · obtain ⟨hkey, hvalue⟩ := Prod.mk.inj heq
        obtain rfl := Node.map.inj hvalue
        exact .deeper (hkey ▸ hm) (ih ht)

theorem mono (h : HasMethod place entries path verb body) (hm : entries ⊆ more) :
    HasMethod place more path verb body := by
  cases h with
  | here h hv => exact .here (hm h) hv
  | deeper h hbelow => exact .deeper (hm h) hbelow

theorem cons {e : String × Node} (h : HasMethod place (e :: entries) path verb body) :
    HasMethod place [e] path verb body ∨ HasMethod place entries path verb body := by
  cases h with
  | here h hv =>
      rcases List.mem_cons.mp h with rfl | h
      · exact .inl (.here List.mem_cons_self hv)
      · exact .inr (.here h hv)
  | deeper h hbelow =>
      rcases List.mem_cons.mp h with rfl | h
      · exact .inl (.deeper List.mem_cons_self hbelow)
      · exact .inr (.deeper h hbelow)

theorem not_null {key : String} : ¬ HasMethod place [(key, .null)] path verb body := by
  intro h
  cases h with
  | here h hv => exact hv (Prod.mk.inj (List.mem_singleton.mp h)).2
  | deeper h _ => cases (Prod.mk.inj (List.mem_singleton.mp h)).2

theorem of_path {rest : String} (h : HasMethod place [("/" ++ rest, .map tree)] path verb body) :
    HasMethod ⟨place.segments ++ (Path.ofText ("/" ++ rest)).segments⟩ tree path verb body := by
  cases h with
  | here h _ => exact absurd (Prod.mk.inj (List.mem_singleton.mp h)).1.symm (slash_ne_dollar _ _)
  | deeper h hm =>
      obtain ⟨hkey, hvalue⟩ := Prod.mk.inj (List.mem_singleton.mp h)
      rw [← hkey, ← Node.map.inj hvalue]
      exact hm

theorem of_verb {word : String} {value : Node} (h : HasMethod place [("$" ++ word, value)] path verb body) :
    path = place ∧ verb = capital word ∧ body = value := by
  cases h with
  | here h _ =>
      obtain ⟨hkey, hvalue⟩ := Prod.mk.inj (List.mem_singleton.mp h)
      have hverb := congrArg String.toList hkey
      rw [String.toList_append, String.toList_append, List.append_cancel_left_eq, String.toList_inj] at hverb
      exact ⟨rfl, by rw [hverb], hvalue⟩
  | deeper h _ => exact absurd (Prod.mk.inj (List.mem_singleton.mp h)).1 (slash_ne_dollar _ _)

end HasMethod

/-! ## Declarations -/

theorem isTreeKey_of_mem_ownKeys {key : String} (h : key ∈ ownKeys) : isTreeKey key = false := by
  have hall : ∀ own ∈ ownKeys, isTreeKey own = false := by decide
  exact hall key h

theorem treeOf_eq_filter (declaration : Node) :
    treeOf declaration = declaration.entries.filter fun e => isTreeKey e.1 :=
  Table.filter_foldl_erase_of_neg (fun _ hk _ => isTreeKey_of_mem_ownKeys hk) _

end Builder

open Builder

/-- Two declarations that differ only in the order of the entries of their path trees. These may also stand
elsewhere among the other entries, which keep their order. -/
inductive SameButOrder : Node → Node → Prop
  | intro {entries entries' : List (String × Node)}
      (hown : (entries.filter fun e => !isTreeKey e.1) = entries'.filter fun e => !isTreeKey e.1)
      (htree : Reordered (entries.filter fun e => isTreeKey e.1) (entries'.filter fun e => isTreeKey e.1)) :
      SameButOrder (.map entries) (.map entries')

namespace SameButOrder
variable {declaration declaration' : Node}

theorem own (h : SameButOrder declaration declaration') :
    (declaration.entries.filter fun e => !isTreeKey e.1) =
      declaration'.entries.filter fun e => !isTreeKey e.1 := by
  cases h with
  | intro hown _ =>
      have hnull := congrArg (List.filter fun e => !e.2.isNull) hown
      simpa only [Node.entries, List.filter_filter, Bool.and_comm] using hnull

theorem tree (h : SameButOrder declaration declaration') : Reordered (treeOf declaration) (treeOf declaration') := by
  cases h with
  | intro _ htree =>
      have hnull := htree.filter_notNull
      simpa only [treeOf_eq_filter, Node.entries, List.filter_filter, Bool.and_comm] using hnull

theorem get? (h : SameButOrder declaration declaration') {key : String} (hk : key ∈ ownKeys) :
    Table.get? declaration.entries key = Table.get? declaration'.entries key := by
  have hp : ∀ value : Node, (!isTreeKey (key, value).1) = true := fun _ => by
    simp [isTreeKey_of_mem_ownKeys hk]
  rw [← Table.get?_filter (p := fun e => !isTreeKey e.1) hp, h.own, Table.get?_filter hp]

theorem conditionOf_eq (h : SameButOrder declaration declaration') :
    conditionOf declaration = conditionOf declaration' := by
  rw [conditionOf, conditionOf, h.get? (by decide)]

theorem containerProps_eq (h : SameButOrder declaration declaration') (api : String) :
    containerProps api declaration = containerProps api declaration' := by
  have hp : ∀ key ∈ ownKeys, ∀ value : Node, (!isTreeKey (key, value).1) = true := fun _ hk _ => by
    simp [isTreeKey_of_mem_ownKeys hk]
  rw [containerProps, containerProps, restOf, restOf, Table.filter_foldl_erase hp, Table.filter_foldl_erase hp,
    h.own]

end SameButOrder
end Api
end Shorthand
