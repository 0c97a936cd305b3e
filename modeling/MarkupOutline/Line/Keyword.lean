import MarkupOutline.Text.Lines
import MarkupOutline.Line.Rules

/-! Tags spelled as words: `begin` or `開` opens the element named by the next word, `end` closes
it. Words are separated by white space. -/
namespace MarkupOutline.Line.Keyword

open Text

/-- The two words that open an element. -/
def opens (word : Text) : Bool := word == ['b', 'e', 'g', 'i', 'n'] || word == ['開']

def closes (word : Text) : Bool := word == ['e', 'n', 'd']

/-- The first word of a text and what follows it. -/
def cutWord (text : Text) : Text × Text :=
  (trimStart text).span (fun letter => !isWhite letter)

/-- An opening line starts with an opening word and a name; its rest begins right after the name. -/
def opener? (line : Text) : Option Opener :=
  let (word, after) := cutWord (trim line)
  let (name, rest) := cutWord after
  if opens word && !name.isEmpty then some ⟨name, rest⟩ else none

/-- A closing line has two words. -/
def isCloser (line : Text) : Bool :=
  match words line with
  | [word, _] => closes word
  | _ => false

/-- Read words from left to right; an opening or closing word takes the next one as its name. -/
def tagsOf : List Text → List Tag
  | word :: name :: rest =>
    if opens word then .opening name :: tagsOf rest
    else if closes word then .closing name :: tagsOf rest
    else tagsOf (name :: rest)
  | _ => []

def tags (line : Text) : List Tag := tagsOf (words line)

def rules : Rules := { opener?, isCloser, tags }

end MarkupOutline.Line.Keyword
