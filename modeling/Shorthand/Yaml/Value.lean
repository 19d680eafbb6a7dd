import Shorthand.Text.Quoted
import Shorthand.Yaml.Plain
import Shorthand.Yaml.Tree

/-!
Values of YAML texts: scalars with their meaning, aliases followed, keys of any kind, tags of the
application kept.
-/
namespace Shorthand.Yaml

/-- A tag is kept without its exclamation mark, unless it is nothing else. -/
inductive Value
  | null
  | bool (value : Bool)
  | number (value : Number)
  | text (value : String)
  | list (items : List Value)
  | map (entries : List (Value × Value))
  | tagged (tag : String) (value : Value)
  deriving Inhabited

namespace Value

/-- The name in a tag: what follows an exclamation mark, if something does. -/
def tagName : List Char → List Char
  | '!' :: c :: cs => c :: cs
  | cs => cs

mutual
/-- Equality of values: the order of a mapping's entries does not count, nor the sign of a zero. -/
def same : Value → Value → Bool
  | null, null => true
  | bool a, bool b => a == b
  | number a, number b => a.same b
  | text a, text b => a == b
  | list as, list bs => sameItems as bs
  | map as, map bs => as.length == bs.length && sameEntries as bs
  | tagged s a, tagged t b => tagName s.toList == tagName t.toList && same a b
  | _, _ => false

def sameItems : List Value → List Value → Bool
  | [], [] => true
  | a :: as, b :: bs => same a b && sameItems as bs
  | _, _ => false

def sameEntries : List (Value × Value) → List (Value × Value) → Bool
  | [], _ => true
  | (key, a) :: as, bs => bs.any (fun (other, b) => same key other && same a b) && sameEntries as bs
end

/-! ## How values are shown -/

def tagText (tag : String) : String := String.ofList ('!' :: tagName tag.toList)

mutual
def shown : Value → String
  | null => "Null"
  | bool b => s!"Bool({b})"
  | number n => "Number(" ++ String.ofList (numberChars n) ++ ")"
  | text s => "String(" ++ Text.quoted s ++ ")"
  | list items => "Sequence [" ++ ", ".intercalate (shownItems items) ++ "]"
  | map entries => "Mapping \x7b" ++ ", ".intercalate (shownEntries entries) ++ "\x7d"
  | tagged tag value => "TaggedValue \x7b tag: " ++ tagText tag ++ ", value: " ++ shown value ++ " \x7d"

def shownItems : List Value → List String
  | [] => []
  | item :: items => shown item :: shownItems items

def shownEntries : List (Value × Value) → List String
  | [] => []
  | (key, value) :: entries => (shownKey key ++ ": " ++ shown value) :: shownEntries entries

/-- A key that is a scalar stands for itself. -/
def shownKey : Value → String
  | bool b => s!"{b}"
  | number n => String.ofList (numberChars n)
  | text s => Text.quoted s
  | key => shown key
end

/-! ## Values of trees -/

/-- The tags that ask for one kind of scalar. -/
def ofStandardTag (tag : Tag) (cs : List Char) : Option Value :=
  match tag.text? with
  | some "tag:yaml.org,2002:bool" => (Plain.bool? (String.ofList cs)).map bool
  | some "tag:yaml.org,2002:int" =>
    match Plain.whole? cs with
    | some (.number n) => some (number n)
    | _ => none
  | some "tag:yaml.org,2002:float" => (Plain.double? cs).map fun x => number (.double x)
  | some "tag:yaml.org,2002:null" => if Plain.isNull (String.ofList cs) then some null else none
  | _ => some (text (String.ofList cs))

def ofPlain (cs : List Char) : Option Value :=
  match Plain.of cs with
  | .null => some null
  | .bool b => some (bool b)
  | .number n => some (number n)
  | .wide => none
  | .text => some (text (String.ofList cs))

/-- A scalar without the application's tag. A tag that is not the application's makes a text of a plain
scalar too. -/
def ofScalar (tag : Option Tag) (isPlain : Bool) (cs : List Char) : Option Value :=
  match tag.filter fun tag => !tag.isLocal with
  | some tag => ofStandardTag tag cs
  | none => if isPlain then ofPlain cs else some (text (String.ofList cs))

/-- The reading of values counts down how many more aliases may be followed. -/
abbrev Following := StateT Nat Option

def follow : Following Unit := do
  match ← get with
  | 0 => failure
  | n + 1 => set n

/-- A tree that is no alias. -/
def target (anchors : List (Nat × Tree)) : Tree → Following Tree
  | .reference n => do
    follow
    StateT.lift (Table.get? anchors n)
  | tree => return tree

/-- Puts the application's tag around a value. A tag whose octets are no text is lost. -/
def withTag (tag : Option Tag) (value : Following Value) : Following Value :=
  match (tag.filter Tag.isLocal).bind Tag.text? with
  | some name => tagged (String.ofList (tagName name.toList)) <$> value
  | none => value

/-- The items of a list. -/
def items (read : Tree → Following Value) : List Tree → Following (List Value)
  | [] => return []
  | tree :: trees => do
    let item ← read tree
    return item :: (← items read trees)

/-- The entries of a mapping, no key of which may come twice. -/
def pairs (read : Tree → Following Value) :
    List (Value × Value) → List (Tree × Tree) → Following (List (Value × Value))
  | entries, [] => return entries
  | entries, (key, value) :: more => do
    let key ← read key
    if entries.any fun (earlier, _) => earlier.same key then failure
    let value ← read value
    pairs read (entries ++ [(key, value)]) more

/-- The value of a tree in which collections are nested at most `depth` deep, aliases followed. -/
def read (anchors : List (Nat × Tree)) : (depth : Nat) → Tree → Following Value
  | depth, tree => do
    match ← target anchors tree, depth with
    | .scalar p isPlain cs, _ => withTag p.tag (StateT.lift (ofScalar p.tag isPlain cs))
    | .sequence p trees, depth + 1 => withTag p.tag (list <$> items (read anchors depth) trees)
    | .mapping p trees, depth + 1 => withTag p.tag (map <$> pairs (read anchors depth) [] trees)
    | _, _ => failure

/-- The value of a document. A hundred aliases may be followed for each weight of it. Of the nodes with one
anchor the last counts. -/
def ofTree? (tree : Tree) : Option Value :=
  ((read tree.anchored.reverse Tree.depthLimit tree).run (100 * tree.weight)).map Prod.fst

/-- The value of a text that holds one document. -/
def parse? (source : String) : Option Value := (Token.ofText? source).bind Tree.ofTokens? |>.bind ofTree?

end Value
end Shorthand.Yaml
