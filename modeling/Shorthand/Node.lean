import Shorthand.Double
import Shorthand.Table

/-!
Template trees: scalars, lists, and mappings whose entries keep their order.
-/
namespace Shorthand

/-- Whole numbers and doubles are different numbers, whatever their value. -/
inductive Number
  | whole (value : Int)
  | double (value : Double)
  deriving DecidableEq, Inhabited

inductive Node
  | null
  | bool (value : Bool)
  | number (value : Number)
  | text (value : String)
  | list (items : List Node)
  | map (entries : List (String × Node))
  deriving Inhabited

namespace Node

mutual
/-- Every mapping, at every depth, gives each key once. -/
def WellFormed : Node → Prop
  | list items => AllWellFormed items
  | map entries => Table.Distinct entries ∧ EntriesWellFormed entries
  | _ => True

def AllWellFormed : List Node → Prop
  | [] => True
  | item :: items => WellFormed item ∧ AllWellFormed items

def EntriesWellFormed : List (String × Node) → Prop
  | [] => True
  | (_, value) :: entries => WellFormed value ∧ EntriesWellFormed entries
end

def whole (n : Nat) : Node := number (.whole n)

def isNull : Node → Bool
  | null => true
  | _ => false

def isMap : Node → Bool
  | map _ => true
  | _ => false

def text? : Node → Option String
  | text s => some s
  | _ => none

def list? : Node → Option (List Node)
  | list items => some items
  | _ => none

/-- The value under a key of a mapping. -/
def get? : Node → String → Option Node
  | map entries, key => Table.get? entries key
  | _, _ => none

/-- The entries of a mapping that are not null; none for any other node. -/
def entries : Node → Table Node
  | map entries => entries.filter fun (_, value) => !value.isNull
  | _ => []

end Node

def Number.same : Number → Number → Bool
  | .whole m, .whole n => m == n
  | .double x, .double y => x.same y
  | _, _ => false

namespace Node

mutual
/-- Equality of values: the order of a mapping's entries does not count, nor the sign of a zero. -/
def same : Node → Node → Bool
  | null, null => true
  | bool a, bool b => a == b
  | number a, number b => a.same b
  | text a, text b => a == b
  | list as, list bs => sameItems as bs
  | map as, map bs => as.length == bs.length && sameEntries as bs
  | _, _ => false

def sameItems : List Node → List Node → Bool
  | [], [] => true
  | a :: as, b :: bs => same a b && sameItems as bs
  | _, _ => false

def sameEntries : List (String × Node) → Table Node → Bool
  | [], _ => true
  | (key, a) :: as, bs =>
    (match Table.get? bs key with
      | some b => same a b
      | none => false) && sameEntries as bs
end

end Node
end Shorthand
