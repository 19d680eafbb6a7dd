import Shorthand.Node
import Shorthand.Error
import Shorthand.Text.Basic

/-!
Stage variables: in a text, number sign and braces around stage, colon, action, point and field stand
for a variable that an action puts out.
-/
namespace Shorthand.Pipeline

/-- The names have at least one character; a stage has no colon and no point, an action no point. -/
structure StageVariable where
  stage : String
  action : String
  field : String
  deriving DecidableEq

namespace StageVariable

def ofBody? (body : List Char) : Option StageVariable := do
  let (stage, rest) ← Text.splitFirst? ':' body
  let (action, field) ← Text.splitFirst? '.' rest
  if stage.isEmpty || stage.contains '.' || action.isEmpty || field.isEmpty then none
  else some ⟨String.ofList stage, String.ofList action, String.ofList field⟩

/-- A stretch of a text: plain, or the body of an occurrence. -/
inductive Piece
  | plain (chars : List Char)
  | variable (v : StageVariable)
  deriving DecidableEq

/-- What follows an opening: a body with no brace in it and its closing brace, or the text up to the
brace that is in the way. -/
inductive Opened
  | closed (body : List Char)
  | broken (body : List Char)

def addPlain (cs : List Char) : List Piece → List Piece
  | .plain more :: ps => .plain (cs ++ more) :: ps
  | ps => .plain cs :: ps

def addBody (c : Char) : Opened × List Piece → Opened × List Piece
  | (.closed body, ps) => (.closed (c :: body), ps)
  | (.broken body, ps) => (.broken (c :: body), ps)

/-- The pieces of a text from an opening on. -/
def settle : Opened × List Piece → List Piece
  | (.closed body, ps) =>
    match ofBody? body with
    | some v => .variable v :: ps
    | none => addPlain ('#' :: '{' :: (body ++ ['}'])) ps
  | (.broken body, ps) => addPlain ('#' :: '{' :: body) ps

mutual
def pieces : List Char → List Piece
  | [] => []
  | '#' :: '{' :: cs => settle (openedPieces cs)
  | c :: cs => addPlain [c] (pieces cs)

def openedPieces : List Char → Opened × List Piece
  | [] => (.broken [], [])
  | '}' :: cs => (.closed [], pieces cs)
  | '{' :: cs => (.broken [], addPlain ['{'] (pieces cs))
  | '#' :: '{' :: cs => (.broken [], settle (openedPieces cs))
  | c :: cs => addBody c (openedPieces cs)
end

/-- The occurrences in a text, from left to right. -/
def occurrences (s : String) : List StageVariable :=
  (pieces s.toList).filterMap fun
    | .variable v => some v
    | .plain _ => none

variable {σ : Type}

/-- Replaces the stage and the action of each occurrence by what `visit` gives for it; what it leaves in
the state stays there when a later visit fails. -/
def rewritePieces (visit : StageVariable → σ → Except Error String × σ) :
    List Piece → σ → Except Error (List Char) × σ
  | [], s => (.ok [], s)
  | .plain cs :: ps, s =>
    match rewritePieces visit ps s with
    | (.ok out, s) => (.ok (cs ++ out), s)
    | failure => failure
  | .variable v :: ps, s =>
    match visit v s with
    | (.error e, s) => (.error e, s)
    | (.ok name, s) =>
      match rewritePieces visit ps s with
      | (.ok out, s) =>
        (.ok ('#' :: '{' :: (name.toList ++ '.' :: (v.field.toList ++ '}' :: out))), s)
      | failure => failure

def rewriteText (visit : StageVariable → σ → Except Error String × σ) (text : String) (s : σ) :
    Except Error String × σ :=
  match rewritePieces visit (pieces text.toList) s with
  | (.ok out, s) => (.ok (String.ofList out), s)
  | (.error e, s) => (.error e, s)

mutual
/-- Rewrites the texts of a tree, but not its keys. -/
def rewriteNode (visit : StageVariable → σ → Except Error String × σ) :
    Node → σ → Except Error Node × σ
  | .text text, s =>
    match rewriteText visit text s with
    | (.ok text, s) => (.ok (.text text), s)
    | (.error e, s) => (.error e, s)
  | .list items, s =>
    match rewriteItems visit items s with
    | (.ok items, s) => (.ok (.list items), s)
    | (.error e, s) => (.error e, s)
  | .map entries, s =>
    match rewriteEntries visit entries s with
    | (.ok entries, s) => (.ok (.map entries), s)
    | (.error e, s) => (.error e, s)
  | scalar, s => (.ok scalar, s)

def rewriteItems (visit : StageVariable → σ → Except Error String × σ) :
    List Node → σ → Except Error (List Node) × σ
  | [], s => (.ok [], s)
  | item :: items, s =>
    match rewriteNode visit item s with
    | (.error e, s) => (.error e, s)
    | (.ok item, s) =>
      match rewriteItems visit items s with
      | (.ok items, s) => (.ok (item :: items), s)
      | failure => failure

def rewriteEntries (visit : StageVariable → σ → Except Error String × σ) :
    List (String × Node) → σ → Except Error (List (String × Node)) × σ
  | [], s => (.ok [], s)
  | (key, value) :: entries, s =>
    match rewriteNode visit value s with
    | (.error e, s) => (.error e, s)
    | (.ok value, s) =>
      match rewriteEntries visit entries s with
      | (.ok entries, s) => (.ok ((key, value) :: entries), s)
      | failure => failure
end

end StageVariable
end Shorthand.Pipeline
