import MarkupOutline.Text.White

/-! Markup is read as a flat sequence of events, one for each tag, comment, instruction and piece
of text. Every event has one written form. -/
namespace MarkupOutline.Markup

/-- One piece of markup, or the trimmed text between two pieces. -/
inductive Event where
  /-- The content of a start tag: name, space and attributes as they stand. -/
  | startTag (content : Text)
  | endTag (name : Text)
  /-- The content of a tag such as `<a/>`, without the final slash. -/
  | emptyTag (content : Text)
  | text (content : Text)
  | comment (content : Text)
  | cdata (content : Text)
  /-- A processing instruction or the declaration of a document. -/
  | instruction (content : Text)
  | doctype (content : Text)
deriving DecidableEq

/-- Markup knows four characters of space. -/
def isSpace (letter : Char) : Bool :=
  letter == ' ' || letter == '\t' || letter == '\r' || letter == '\n'

/-- The name in the content of a start tag ends at the first space. -/
def tagName (content : Text) : Text := content.takeWhile (fun letter => !isSpace letter)

namespace Event

/-- The written form of an event; nothing is escaped. -/
def written : Event → Text
  | startTag content => ['<'] ++ content ++ ['>']
  | endTag name => ['<', '/'] ++ name ++ ['>']
  | emptyTag content => ['<'] ++ content ++ ['/', '>']
  | text content => content
  | comment content => ['<', '!', '-', '-'] ++ content ++ ['-', '-', '>']
  | cdata content => ['<', '!', '[', 'C', 'D', 'A', 'T', 'A', '['] ++ content ++ [']', ']', '>']
  | instruction content => ['<', '?'] ++ content ++ ['?', '>']
  | doctype content => ['<', '!', 'D', 'O', 'C', 'T', 'Y', 'P', 'E', ' '] ++ content ++ ['>']

/-- Character data stays in the line of the markup around it. -/
def isInline : Event → Bool
  | text _ | cdata _ => true
  | _ => false

/-- Whether an event opens an element or is a whole one. -/
def isElement : Event → Bool
  | startTag _ | emptyTag _ => true
  | _ => false

end Event

end MarkupOutline.Markup
