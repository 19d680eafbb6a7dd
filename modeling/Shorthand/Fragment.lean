import Shorthand.Call
import Shorthand.Naming
import Shorthand.Placeholder

/-!
Fragments: a tree with calls in it, written as one text for a property that takes text only. Calls
become placeholders of the text; one that has no such form is bound to a made-up name.
-/
namespace Shorthand

inductive Fragment
  /-- No call was found. -/
  | plain (text : String)
  /-- The calls are placeholders. -/
  | spliced (text : String)
  /-- Some of the placeholders are bound here. -/
  | bound (text : String) (bindings : Table Node)

namespace Fragment

def toNode : Fragment → Node
  | plain text => .text text
  | spliced text => .call Call.sub (.text text)
  | bound text bindings => .call Call.sub (.list [.text text, .map bindings])

/-- The bindings of the fragment at work, and the number of the last made-up name, which goes on from
one fragment to the next. -/
structure Compiler where
  issued : Nat := 0
  bindings : Table Node := []

namespace Compiler

def nameOf (n : Nat) : String := Naming.numbered "param" n

/-- A made-up name that is neither bound nor to be avoided. -/
def freshName (c : Compiler) (avoid : List String) : String × Compiler :=
  let n := Naming.free (Table.keys c.bindings ++ avoid) nameOf (c.issued + 1)
  (nameOf n, { c with issued := n })

def bind (c : Compiler) (name : String) (value : Node) : Compiler :=
  { c with bindings := Table.put c.bindings name value }

def placeholder (body : String) : Node := .text ("$\x7b" ++ body ++ "\x7d")

/-- Binds a whole call to a made-up name. -/
def bindWhole (c : Compiler) (whole : Node) : Node × Compiler :=
  let (name, c) := c.freshName []
  (placeholder name, c.bind name whole)

/-- New names for those of `entries` that are bound to something else by now. -/
def renamings (c : Compiler) (avoid : List String) :
    List (String × Node) → Table String × Compiler
  | [] => ([], c)
  | (name, value) :: entries =>
    let taken := match Table.get? c.bindings name with
      | some other => !other.same value
      | none => false
    if taken then
      let (fresh, c) := c.freshName avoid
      let (more, c) := c.renamings avoid entries
      ((name, fresh) :: more, c)
    else c.renamings avoid entries

/-- Takes in a template with its bindings. Its holes are renamed along with the bindings; a template
that cannot be rewritten is bound whole. -/
def merge (c : Compiler) (template : String) (own : Table Node) (whole : Node) : Node × Compiler :=
  let (renamed, c) := c.renamings (Table.keys own) own
  let text? := if renamed.isEmpty then .ok template
    else Template.rewrite (fun body => .ok (Table.get? renamed body)) template
  match text? with
  | .error _ => c.bindWhole whole
  | .ok text =>
    (.text text, own.foldl (fun c (name, value) => c.bind ((Table.get? renamed name).getD name) value) c)

/-- What stands in the text for a call. -/
def splice (c : Compiler) (name : String) (arg whole : Node) : Node × Compiler :=
  if name = Call.ref then
    match arg with
    | .text id => (placeholder id, c)
    | _ => c.bindWhole whole
  else if name = Call.getAtt then
    match arg with
    | .text path => (placeholder path, c)
    | .list [.text id, .text attr] => (placeholder s!"{id}.{attr}", c)
    | _ => c.bindWhole whole
  else if name = Call.sub then
    match arg with
    | .text template => (.text template, c)
    | .list [.text template, .map own] => c.merge template own whole
    | _ => c.bindWhole whole
  else if name = Call.importValue then
    match arg with
    | .text exported => (placeholder s!"Import:{exported}", c)
    | _ => c.bindWhole whole
  else if name = Call.getParam then (whole, c)
  else c.bindWhole whole

mutual
/-- The tree with each call spliced and every other text made literal. -/
def walk (c : Compiler) : Node → Node × Compiler
  | .map [(name, arg)] =>
    if Call.isName name then c.splice name arg (.map [(name, arg)])
    else
      let (arg, c) := c.walk arg
      (.map [(Template.escape name, arg)], c)
  | .map entries =>
    let (entries, c) := c.walkEntries entries
    (.map entries, c)
  | .list items =>
    let (items, c) := c.walkItems items
    (.list items, c)
  | .text s => (.text (Template.escape s), c)
  | scalar => (scalar, c)

def walkItems (c : Compiler) : List Node → List Node × Compiler
  | [] => ([], c)
  | item :: items =>
    let (item, c) := c.walk item
    let (items, c) := c.walkItems items
    (item :: items, c)

def walkEntries (c : Compiler) : List (String × Node) → List (String × Node) × Compiler
  | [] => ([], c)
  | (key, value) :: entries =>
    let (value, c) := c.walk value
    let (entries, c) := c.walkEntries entries
    ((Template.escape key, value) :: entries, c)
end

/-- Writes a node as one text. It never fails. -/
def compile (c : Compiler) (node : Node) : Fragment × Compiler :=
  let c := { c with bindings := [] }
  if node.containsCall then
    let (tree, c) := c.walk node
    let fragment := if c.bindings.isEmpty then spliced tree.json else bound tree.json c.bindings
    (fragment, { c with bindings := [] })
  else (plain node.json, c)

end Compiler
end Fragment
end Shorthand
