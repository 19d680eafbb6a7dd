import Shorthand.Error

/-!
Placeholders of string templates: a text is cut into plain stretches and `$`-brace holes. A hole whose
body starts with an exclamation mark stands for literal text and is never rewritten.
-/
namespace Shorthand

/-- A stretch of a template. A hole that is never closed takes the rest of the text. -/
inductive Piece
  | plain (chars : List Char)
  | hole (body : List Char)
  | unclosed (body : List Char)
  deriving DecidableEq

namespace Piece

/-- The characters that a piece was cut from. -/
def chars : Piece → List Char
  | plain cs => cs
  | hole body => '$' :: '{' :: (body ++ ['}'])
  | unclosed body => '$' :: '{' :: body

def isLiteral (body : List Char) : Bool := body.head? == some '!'

/-- The body of a hole that refers to something. -/
def live? : Piece → Option (List Char)
  | hole body => if isLiteral body then none else some body
  | _ => none

end Piece

namespace Template

/-- Puts a character before pieces, as plain text. -/
def addPlain (c : Char) : List Piece → List Piece
  | .plain cs :: ps => .plain (c :: cs) :: ps
  | ps => .plain [c] :: ps

/-- Puts a character into the body that the pieces begin with. -/
def addBody (c : Char) : List Piece → List Piece
  | .hole body :: ps => .hole (c :: body) :: ps
  | .unclosed body :: ps => .unclosed (c :: body) :: ps
  | ps => ps

mutual
/-- The pieces of a text. -/
def pieces : List Char → List Piece
  | [] => []
  | '$' :: '{' :: cs => bodyPieces cs
  | c :: cs => addPlain c (pieces cs)

/-- The pieces of a text that follows an opening. -/
def bodyPieces : List Char → List Piece
  | [] => [.unclosed []]
  | '}' :: cs => .hole [] :: pieces cs
  | c :: cs => addBody c (bodyPieces cs)
end

def chars (ps : List Piece) : List Char := ps.flatMap Piece.chars

/-- Whether every hole of a template is closed. -/
def isClosed (template : String) : Bool :=
  (pieces template.toList).all fun
    | .unclosed _ => false
    | _ => true

/-- The bodies that refer to something, in order. -/
def placeholders (template : String) : List String :=
  (pieces template.toList).filterMap fun p => p.live?.map String.ofList

variable {σ : Type}

def unclosedError (template : String) : Error :=
  .malformed "string template" s!"unclosed placeholder in '{template}'"

/-- Visits the bodies in order. A visit gives a new body, or none to keep the old one; what it leaves
in the state stays there when a later visit fails. -/
def rewritePieces (template : String) (visit : String → σ → Except Error (Option String) × σ) :
    List Piece → σ → Except Error (List Char) × σ
  | [], s => (.ok [], s)
  | .plain cs :: ps, s =>
    match rewritePieces template visit ps s with
    | (.ok out, s) => (.ok (cs ++ out), s)
    | failure => failure
  | .hole body :: ps, s =>
    let (answer, s) :=
      if Piece.isLiteral body then (.ok none, s) else visit (String.ofList body) s
    match answer with
    | .error e => (.error e, s)
    | .ok new =>
      match rewritePieces template visit ps s with
      | (.ok out, s) => (.ok ((Piece.hole (new.elim body String.toList)).chars ++ out), s)
      | failure => failure
  | .unclosed _ :: _, s => (.error (unclosedError template), s)

def rewriteWith (visit : String → σ → Except Error (Option String) × σ) (template : String) (s : σ) :
    Except Error String × σ :=
  match rewritePieces template visit (pieces template.toList) s with
  | (.ok out, s) => (.ok (String.ofList out), s)
  | (.error e, s) => (.error e, s)

/-- Replaces the bodies for which `new?` gives another. -/
def rewrite (new? : String → Except Error (Option String)) (template : String) :
    Except Error String :=
  (rewriteWith (fun body (_ : Unit) => (new? body, ())) template ()).1

def escapeChars : List Char → List Char
  | [] => []
  | '$' :: '{' :: cs => '$' :: '{' :: '!' :: escapeChars cs
  | c :: cs => c :: escapeChars cs

/-- The template that stands for a literal text: none of its holes refers to anything. -/
def escape (text : String) : String := String.ofList (escapeChars text.toList)

end Template
end Shorthand
