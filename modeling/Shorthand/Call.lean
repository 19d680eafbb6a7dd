import Shorthand.Json.Printer
import Shorthand.Text.Basic

/-!
Calls: a mapping with a single key is a call if its key is `Ref` or begins with `Fn::`.
-/
namespace Shorthand

namespace Call

def ref : String := "Ref"
def getAtt : String := "Fn::GetAtt"
def sub : String := "Fn::Sub"
def importValue : String := "Fn::ImportValue"
def conditional : String := "Fn::If"
def length : String := "Fn::Length"

/-- Evaluated by the pipeline service itself, so never rewritten. -/
def getParam : String := "Fn::GetParam"

def noValue : String := "AWS::NoValue"

def isName (name : String) : Bool := name == ref || (Text.after? "Fn::".toList name.toList).isSome

end Call

namespace Node

/-- The key and the value of a mapping with one entry. -/
def single? : Node → Option (String × Node)
  | map [entry] => some entry
  | _ => none

/-- The name and the argument of a call. -/
def call? (node : Node) : Option (String × Node) := node.single?.filter fun (name, _) => Call.isName name

def call (name : String) (arg : Node) : Node := map [(name, arg)]

def refTo (id : String) : Node := call Call.ref (text id)

def attributeOf (id attr : String) : Node := call Call.getAtt (list [text id, text attr])

/-- The node under a condition, and nothing otherwise. -/
def onlyIf (condition : String) (node : Node) : Node :=
  call Call.conditional (list [text condition, node, refTo Call.noValue])

mutual
/-- Whether a call is found on the way down, other than the one left to the pipeline service, into
which the search does not go. -/
def containsCall : Node → Bool
  | map [(name, arg)] => if Call.isName name then name != Call.getParam else containsCall arg
  | map entries => anyEntryContainsCall entries
  | list items => anyContainsCall items
  | _ => false

def anyContainsCall : List Node → Bool
  | [] => false
  | item :: items => containsCall item || anyContainsCall items

def anyEntryContainsCall : List (String × Node) → Bool
  | [] => false
  | (_, value) :: entries => containsCall value || anyEntryContainsCall entries
end

end Node
end Shorthand
