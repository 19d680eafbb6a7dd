import Shorthand.Call
import Shorthand.Placeholder

/-!
Rewriting of calls: at each mapping with a single key every resolver of a chain that handles the call has
its turn, and the walk goes on in what they put in place. References to a family of resources are
rewritten through the family's symbol table.
-/
namespace Shorthand

/-- Where a reference points: a resource, or one of its attributes. -/
structure Target where
  id : String
  attr : Option String
  deriving DecidableEq

namespace Target

def resource (id : String) : Target := ⟨id, none⟩

/-- An attribute asked for takes the place of the target's own. -/
def withAttribute (t : Target) (attr : Option String) : Target :=
  match attr with
  | some attr => { t with attr := some attr }
  | none => t

/-- The target as the body of a placeholder. -/
def body (t : Target) : String :=
  match t.attr with
  | some attr => s!"{t.id}.{attr}"
  | none => t.id

def toNode (t : Target) : Node :=
  match t.attr with
  | some attr => .attributeOf t.id attr
  | none => .refTo t.id

end Target

/-- The references that one family of resources knows. -/
structure SymbolTable where
  /-- Whether a text is meant for this family, known or not. -/
  owns : String → Bool
  lookup : String → Except Error Target

namespace SymbolTable
variable (symbols : SymbolTable)

/-- Rewrites the placeholders that the family owns. -/
def rewriteTemplate (template : String) : Except Error String :=
  Template.rewrite
    (fun body =>
      if symbols.owns body then (symbols.lookup body).map fun t => some t.body else .ok none)
    template

/-- Rewrites a call whose argument is a reference of the family or has one in its placeholders; any other
call stays as it is. -/
def rewriteCall (name : String) (arg : Node) : Except Error Node :=
  if name = Call.ref then
    match arg with
    | .text ref => if symbols.owns ref then (symbols.lookup ref).map Target.toNode else .ok (.call name arg)
    | _ => .ok (.call name arg)
  else if name = Call.getAtt then
    match arg with
    | .text ref =>
      if symbols.owns ref then do
        let target ← symbols.lookup ref
        match target.attr with
        | some attr => .ok (.attributeOf target.id attr)
        | none => .error (.unknownReference ref "Fn::GetAtt needs an attribute suffix")
      else .ok (.call name arg)
    | .list [.text ref, .text attr] =>
      if symbols.owns ref then (symbols.lookup ref).map fun target => .attributeOf target.id attr
      else .ok (.call name arg)
    | _ => .ok (.call name arg)
  else if name = Call.sub then
    match arg with
    | .text template => (symbols.rewriteTemplate template).map fun s => .call name (.text s)
    | .list (.text template :: rest) =>
      (symbols.rewriteTemplate template).map fun s => .call name (.list (.text s :: rest))
    | _ => .ok (.call name arg)
  else .ok (.call name arg)

end SymbolTable

/-- Rewrites the calls whose names it handles. `growth` bounds the rank of what it puts in place of its
own, on top of what the call gave it. -/
structure Resolver where
  name : String
  handles : String → Bool
  expand : String → Node → Except Error Node
  growth : Nat := 0

namespace Node

/-- What a substitution may gain: a list of bindings with a call in it. -/
def subReserve (name : String) : Nat := if name = Call.sub then 4 else 0

mutual
/-- How deep the walk may go from here. Whatever the resolvers of a template put in place of a mapping,
its values rank below the mapping. -/
def rank : Node → Nat
  | list items => rankOfItems items + 1
  | map [(name, arg)] => rank arg + 2 + subReserve name
  | map entries => rankOfEntries entries + 2
  | _ => 0

def rankOfItems : List Node → Nat
  | [] => 0
  | item :: items => max (rank item) (rankOfItems items)

def rankOfEntries : List (String × Node) → Nat
  | [] => 0
  | (_, value) :: entries => max (rank value) (rankOfEntries entries)
end

end Node

/-- Resolvers in the order of their turns. -/
abbrev Chain := List Resolver

namespace Chain

/-- Gives each resolver its turn at a node, as long as it has a single key. -/
def apply : Chain → Node → Except Error Node
  | [], node => .ok node
  | r :: rs, node =>
    match node.single? with
    | none => .ok node
    | some (name, arg) =>
      if r.handles name then do
        let node ← r.expand name arg
        apply rs node
      else apply rs node

/-- Rewrites a node within so many levels, and gives nothing if they do not suffice. -/
def rewriteWithin (chain : Chain) : (levels : Nat) → Node → ExceptT Error Option Node
  | 0, _ => (none : Option (Except Error Node))
  | levels + 1, .map entries => do
    match ← liftExcept (chain.apply (.map entries)) with
    | .map entries =>
      let entries ← entries.mapM fun (key, value) => do
        let value ← rewriteWithin chain levels value
        pure (key, value)
      pure (.map entries)
    | other => rewriteWithin chain levels other
  | levels + 1, .list items => do
    let items ← items.mapM (rewriteWithin chain levels)
    pure (.list items)
  | _ + 1, scalar => pure scalar
where
  liftExcept (r : Except Error Node) : ExceptT Error Option Node := (some r : Option (Except Error Node))

/-- Levels that are enough for resolvers which put in nothing above their growth. -/
def levels (chain : Chain) (node : Node) : Nat :=
  chain.foldl (fun n r => n + (r.growth + 1)) (node.rank + 1)

/-- Rewrites a node; one whose rewriting never ends is left alone. -/
def rewrite (chain : Chain) (node : Node) : Except Error Node :=
  ((chain.rewriteWithin (chain.levels node) node : Option (Except Error Node))).getD (.ok node)

/-- The sections of a template in which calls are rewritten. -/
def sections : List String := ["Resources", "Outputs"]

def rewriteSections (chain : Chain) : List String → Table Node → Except Error (Table Node)
  | [], template => .ok template
  | name :: names, template =>
    match Table.get? template name with
    | none => rewriteSections chain names template
    | some node => do
      let node ← chain.rewrite node
      rewriteSections chain names (Table.put template name node)

def rewriteTemplate (chain : Chain) (template : Table Node) : Except Error (Table Node) :=
  chain.rewriteSections sections template

end Chain
end Shorthand
