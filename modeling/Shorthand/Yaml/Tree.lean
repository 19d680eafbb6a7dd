import Shorthand.Table
import Shorthand.Yaml.Token

/-!
Trees of YAML texts: how scalars nest, with their anchors and tags, before any scalar means anything.
`Tree.ofTokens?` reads the one document of a text.
-/
namespace Shorthand.Yaml

/-- What may stand before a node. -/
structure Properties where
  anchor : Option Nat := none
  tag : Option Tag := none

inductive Tree
  | reference (anchor : Nat)
  | scalar (properties : Properties) (isPlain : Bool) (text : List Char)
  | sequence (properties : Properties) (items : List Tree)
  | mapping (properties : Properties) (pairs : List (Tree × Tree))

namespace Tree

/-- What stands where nothing is written. -/
def empty : Tree := .scalar {} true []

mutual
/-- The weight of a tree: one for a scalar or an alias, two for each pair of brackets. -/
def weight : Tree → Nat
  | reference _ => 1
  | scalar .. => 1
  | sequence _ items => weightOfItems items + 2
  | mapping _ pairs => weightOfPairs pairs + 2

def weightOfItems : List Tree → Nat
  | [] => 0
  | item :: items => weight item + weightOfItems items

def weightOfPairs : List (Tree × Tree) → Nat
  | [] => 0
  | (key, value) :: pairs => weight key + weight value + weightOfPairs pairs
end

def named (properties : Properties) (tree : Tree) : List (Nat × Tree) :=
  match properties.anchor with
  | some n => [(n, tree)]
  | none => []

mutual
/-- The nodes with anchors, each before those inside it. -/
def anchored : Tree → List (Nat × Tree)
  | reference _ => []
  | scalar p isPlain text => named p (scalar p isPlain text)
  | sequence p items => named p (sequence p items) ++ anchoredItems items
  | mapping p pairs => named p (mapping p pairs) ++ anchoredPairs pairs

def anchoredItems : List Tree → List (Nat × Tree)
  | [] => []
  | item :: items => anchored item ++ anchoredItems items

def anchoredPairs : List (Tree × Tree) → List (Nat × Tree)
  | [] => []
  | (key, value) :: pairs => anchored key ++ (anchored value ++ anchoredPairs pairs)
end

/-! ## Reading tokens -/

/-- What is still to be read. A name gets the number of the different names before it, so that a name given
again moves on to the number that the next new name gets too. -/
structure Reading where
  tokens : List Token
  /-- How many tokens the document has, which bounds the entries of every collection in it. -/
  size : Nat
  handles : List (List Char × Tag)
  anchors : List (List Char × Nat) := []

abbrev Read := StateT Reading Option

def next? : Read (Option Token) := do
  return (← get).tokens.head?

def nextIsOneOf (ts : List Token) : Read Bool := do
  return (← next?).any ts.contains

def skip : Read Unit := modify fun r => { r with tokens := r.tokens.drop 1 }

/-- Skips a token if it is the next one. -/
def accept (t : Token) : Read Bool := do
  if (← next?) == some t then
    skip
    return true
  else return false

def expect (t : Token) : Read Unit := do
  if !(← accept t) then failure

/-- A node, unless one of some tokens comes next. -/
def nodeUnless (ends : List Token) (node : Read Tree) : Read Tree := do
  if ← nextIsOneOf ends then return empty else node

/-! ### Properties -/

def takeAnchor : Read (Option (List Char)) := do
  match ← next? with
  | some (.anchor name) =>
    skip
    return some name
  | _ => return none

/-- The tag that is next, its handle spelled out. -/
def takeTag : Read (Option Tag) := do
  match ← next? with
  | some (.tag handle suffix) =>
    skip
    if handle.isEmpty then return some suffix
    else
      match Table.get? (← get).handles handle with
      | some lead => return some (lead ++ suffix)
      | none => failure
  | _ => return none

/-- Numbers an anchor. -/
def note (name : List Char) : Read Nat := do
  let r ← get
  let n := r.anchors.length
  set { r with anchors := Table.put r.anchors name n }
  return n

/-- An anchor and a tag, in either order. -/
def properties : Read Properties := do
  let anchor ← takeAnchor
  let tag ← takeTag
  let anchor ← if anchor.isNone && tag.isSome then takeAnchor else pure anchor
  let anchor ← match anchor with
    | some name => some <$> note name
    | none => pure none
  return ⟨anchor, tag⟩

/-- The node that a name stands for, which must have come before. -/
def referenceTo (name : List Char) : Read Tree := do
  match Table.get? (← get).anchors name with
  | some n => return .reference n
  | none => failure

/-! ### Collections -/

def blockItems (node : Read Tree) : Nat → Read (List Tree)
  | 0 => failure
  | steps + 1 => do
    if ← accept .blockEnd then return []
    expect .blockEntry
    let item ← nodeUnless [.blockEntry, .blockEnd] node
    return item :: (← blockItems node steps)

/-- The items of a list that stands at the indentation of the mapping around it. -/
def flushItems (node : Read Tree) : Nat → Read (List Tree)
  | 0 => failure
  | steps + 1 => do
    if ← accept .blockEntry then
      let item ← nodeUnless [.blockEntry, .key, .value, .blockEnd] node
      return item :: (← flushItems node steps)
    else return []

def blockPairs (node : Read Tree) : Nat → Read (List (Tree × Tree))
  | 0 => failure
  | steps + 1 => do
    if ← accept .blockEnd then return []
    expect .key
    let key ← nodeUnless [.key, .value, .blockEnd] node
    let value ← if ← accept .value then nodeUnless [.key, .value, .blockEnd] node else pure empty
    return (key, value) :: (← blockPairs node steps)

/-- Entries between brackets, with commas after them; the last comma may be left out. -/
def flowEntries {α : Type} (entry : Read α) (close : Token) : Nat → Read (List α)
  | 0 => failure
  | steps + 1 => do
    if ← accept close then return []
    let first ← entry
    if ← accept close then return [first]
    expect .flowEntry
    return first :: (← flowEntries entry close steps)

def flowValue (node : Read Tree) (close : Token) : Read Tree := do
  if ← accept .value then nodeUnless [.flowEntry, close] node else return empty

def flowPair (node : Read Tree) : Read (Tree × Tree) := do
  if ← accept .key then
    let key ← nodeUnless [.value, .flowEntry, .flowMappingEnd] node
    return (key, ← flowValue node .flowMappingEnd)
  else return (← node, empty)

/-- An item of a list in brackets. One with a key is a mapping of one entry; where that key is left out, the
token that stands in its place is lost. -/
def flowItem (node : Read Tree) : Read Tree := do
  if ← accept .key then
    let key ←
      if ← nextIsOneOf [.value, .flowEntry, .flowSequenceEnd] then
        skip
        pure empty
      else node
    return .mapping {} [(key, ← flowValue node .flowSequenceEnd)]
  else node

/-! ### Nodes -/

/-- Where a node stands: between brackets, in a block, or as a key or value of a block mapping. -/
inductive Place
  | flow
  | block
  | entry
  deriving DecidableEq

/-- A node in which collections are nested at most `depth` deep. -/
def node : (depth : Nat) → Place → Read Tree
  | depth, place => do
    if let some (.reference name) := ← next? then
      skip
      return ← referenceTo name
    let p ← properties
    let steps := (← get).size + 1
    match ← next?, depth with
    | some (.scalar isPlain text), _ =>
      skip
      return .scalar p isPlain text
    | some .flowSequenceStart, depth + 1 =>
      skip
      return .sequence p (← flowEntries (flowItem (node depth .flow)) .flowSequenceEnd steps)
    | some .flowMappingStart, depth + 1 =>
      skip
      return .mapping p (← flowEntries (flowPair (node depth .flow)) .flowMappingEnd steps)
    | some .blockEntry, depth + 1 =>
      if place = .entry then return .sequence p (← flushItems (node depth .block) steps)
      else bare p
    | some .blockSequenceStart, depth + 1 =>
      if place = .flow then bare p
      else
        skip
        return .sequence p (← blockItems (node depth .block) steps)
    | some .blockMappingStart, depth + 1 =>
      if place = .flow then bare p
      else
        skip
        return .mapping p (← blockPairs (node depth .entry) steps)
    | _, _ => bare p
where
  /-- An anchor or a tag may stand alone. -/
  bare (p : Properties) : Read Tree :=
    if p.anchor.isSome || p.tag.isSome then return .scalar p true [] else failure

/-! ### Documents -/

/-- How deep collections may nest. -/
def depthLimit : Nat := 128

/-- The directives before a document, each handle declared once, and what follows. -/
def directives : (hasVersion : Bool) → List (List Char × Tag) → List Token →
    Option (List (List Char × Tag) × List Token)
  | hasVersion, handles, .version major minor :: ts =>
    if hasVersion || major != 1 || (minor != 1 && minor != 2) then none else directives true handles ts
  | hasVersion, handles, .tagDirective handle lead :: ts =>
    if Table.has handles handle then none else directives hasVersion (Table.put handles handle lead) ts
  | _, handles, ts => some (handles, ts)

/-- The handles that need no directive. -/
def withDefaults (handles : List (List Char × Tag)) : List (List Char × Tag) :=
  Table.putNew (Table.putNew handles ['!'] Tag.mark) ['!', '!'] (Tag.ofChars "tag:yaml.org,2002:".toList)

/-- The document after its directives; where its start is marked it may be empty. -/
def document : Read Tree := do
  if ← accept .documentStart then
    match ← next? with
    | none | some .documentEnd => return empty
    | _ => node depthLimit .block
  else node depthLimit .block

/-- The only document of a text. Of an empty text it is empty. -/
def ofTokens? (tokens : List Token) : Option Tree :=
  if tokens.isEmpty then some empty
  else do
    let (handles, rest) ← directives false [] tokens
    if rest.length < tokens.length && rest.head? != some .documentStart then none
    else
      let (tree, after) ← document.run { tokens := rest, size := rest.length, handles := withDefaults handles }
      if after.tokens.all (· == .documentEnd) then some tree else none

end Tree
end Shorthand.Yaml
