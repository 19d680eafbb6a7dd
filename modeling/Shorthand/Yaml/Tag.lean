/-!
Tags of YAML texts. A tag is a row of octets, since its escapes give octets and not characters; what it
says depends on the text that the octets are, if they are one.
-/
namespace Shorthand.Yaml

/-- The octets of a tag. -/
abbrev Tag := List UInt8

namespace Tag

/-- Characters in UTF-8. -/
def ofChars (cs : List Char) : Tag := cs.flatMap String.utf8EncodeChar

/-- The lone exclamation mark. -/
def mark : Tag := ofChars ['!']

/-- The part of a tag before the first octet that is zero: nothing after that counts. -/
def beforeZero (tag : Tag) : Tag := tag.takeWhile (· != 0)

def text? (tag : Tag) : Option String := String.fromUTF8? tag.toByteArray

/-- The application's own tags begin with an exclamation mark. -/
def isLocal (tag : Tag) : Bool := mark.isPrefixOf tag

end Tag
end Shorthand.Yaml
