import Shorthand.Proofs.Fragment.Splice
import Shorthand.Proofs.Literal

/-!
# Literal keys and texts of a fragment

A walk makes the keys of a mapping literal, each apart from the others, and what it makes of a value stands under
the key of that value. So a fragment has as many entries as its tree, although the keys are changed one by one.
-/
namespace Shorthand.Fragment.Compiler
open Template

/-- What the walk through a mapping with these entries leaves: collected one after another, no entry takes the place
of another, and each value is walked with what the compiler knows after the entries before it. -/
structure Walked (c : Compiler) (entries walked : Table Node) : Prop where
  keys : Table.keys walked = (Table.keys entries).map escape
  collected : Table.ofList walked = walked
  values : ∀ before key value after, entries = before ++ (key, value) :: after →
    Table.get? walked (escape key) = some ((c.walkEntries before).2.walk value).1

theorem walkEntries_append (c : Compiler) (before entries : List (String × Node)) :
    (c.walkEntries (before ++ entries)).1 =
      (c.walkEntries before).1 ++ ((c.walkEntries before).2.walkEntries entries).1 := by
  induction before generalizing c with
  | nil => rfl
  | cons e before ih => exact congrArg (_ :: ·) (ih (c.walk e.2).2)

theorem keys_walkEntries (c : Compiler) (entries : List (String × Node)) :
    Table.keys (c.walkEntries entries).1 = (Table.keys entries).map escape := by
  induction entries generalizing c with
  | nil => rfl
  | cons e entries ih => exact congrArg (escape e.1 :: ·) (ih (c.walk e.2).2)

theorem walked_walkEntries (c : Compiler) {entries : Table Node} (hd : Table.Distinct entries) :
    Walked c entries (c.walkEntries entries).1 := by
  have hkeys := c.keys_walkEntries entries
  have hdistinct : Table.Distinct (c.walkEntries entries).1 := by
    rw [Table.Distinct, hkeys]
    exact hd.map escape_injective
  refine ⟨hkeys, Table.ofList_of_distinct hdistinct, ?_⟩
  rintro before key value after rfl
  refine hdistinct.get?_of_mem ?_
  rw [walkEntries_append]
  exact List.mem_append_right _ List.mem_cons_self

/-- A literal text is made by marking all openings; it has no placeholder and gives the text back when the marks
are taken out, so no two texts, and no two keys of a mapping, become one. Joined texts are made literal each by
itself just if the joining makes no opening. -/
theorem escaping_exact :
    (∀ text, escape text = String.ofList (Text.replace ['$', '{'] ['$', '{', '!'] text.toList) ∧
      placeholders (escape text) = [] ∧
      String.ofList (Text.replace ['$', '{', '!'] ['$', '{'] (escape text).toList) = text) ∧
    Function.Injective escape ∧
    (∀ (c : Compiler) (entries : Table Node), Table.Distinct entries → (Node.map entries).call? = none →
      ∃ walked, (c.walk (.map entries)).1 = .map walked ∧ Walked c entries walked) ∧
    ∀ a b : String, escape (a ++ b) = escape a ++ escape b ↔
      a.toList.getLast? ≠ some '$' ∨ b.toList.head? ≠ some '{' := by
  refine ⟨fun text => ⟨?_, placeholders_escape text, ?_⟩, escape_injective, fun c entries hd hc => ?_,
    escape_append_iff⟩
  · exact congrArg String.ofList (escapeChars_eq_replace text.toList)
  · rw [escape, String.toList_ofList, replace_escapeChars, String.ofList_toList]
  · refine ⟨_, ?_, walked_walkEntries c hd⟩
    rw [walk_map, hc]

/-- Two keys of which one is the other made literal. -/
def markedKeys : Table Node := [("$\x7ba", .text "$\x7bb\x7d"), ("$\x7b!a", .refTo "C")]

theorem escaping_exact_markedKeys :
    Table.Distinct markedKeys ∧ (Node.map markedKeys).call? = none ∧
      Walked {} markedKeys [("$\x7b!a", .text "$\x7b!b\x7d"), ("$\x7b!!a", .text "$\x7bC\x7d")] ∧
      escape ("a$" ++ "\x7bb") ≠ escape "a$" ++ escape "\x7bb" := by
  have hd : Table.Distinct markedKeys := (by decide : (Table.keys markedKeys).Nodup)
  have hc : (Node.map markedKeys).call? = none := rfl
  obtain ⟨-, -, hwalk, happend⟩ := escaping_exact
  obtain ⟨walked, he, hwalked⟩ := hwalk {} markedKeys hd hc
  obtain rfl : [("$\x7b!a", .text "$\x7b!b\x7d"), ("$\x7b!!a", .text "$\x7bC\x7d")] = walked := Node.map.inj he
  exact ⟨hd, hc, hwalked, fun h => ((happend _ _).mp h).elim (by decide) (by decide)⟩

end Shorthand.Fragment.Compiler
