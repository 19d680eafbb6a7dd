/-!
Names not yet taken: the candidates of a numbered series are tried in turn.
-/
namespace Shorthand.Naming

/-- The first number from `start` on whose name is not taken, within so many tries. -/
def firstFree (taken : List String) (name : Nat → String) : (tries start : Nat) → Nat
  | 0, n => n
  | tries + 1, n => if taken.contains (name n) then firstFree taken name tries (n + 1) else n

/-- If the names of the series differ, each try that fails uses up one of the names taken: so many
tries are enough, and the number after them is free. -/
def free (taken : List String) (name : Nat → String) (start : Nat) : Nat :=
  firstFree taken name taken.length start

/-- The base, then the base with one more underscore each time. -/
def underscored (base : String) (n : Nat) : String := String.ofList (base.toList ++ List.replicate n ('_'))

/-- The base, then the base with `-2`, `-3` and so on. -/
def hyphenated (base : String) (n : Nat) : String := if n ≤ 1 then base else s!"{base}-{n}"

/-- The lead and a number. -/
def numbered (lead : String) (n : Nat) : String := s!"{lead}{n}"

end Shorthand.Naming
