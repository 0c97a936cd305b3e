import MarkupOutline.Text.White

/-! What a single line says about elements: whether it opens one, closes one, and which tags it
holds. Everything above lines is stated for any rules. -/
namespace MarkupOutline.Line

/-- An opening tag at the start of a line and the text after it. -/
structure Opener where
  name : Text
  rest : Text
deriving DecidableEq

/-- A tag anywhere in a line. -/
inductive Tag where
  | opening (name : Text)
  | closing (name : Text)
deriving DecidableEq

namespace Tag

def name : Tag → Text
  | opening name | closing name => name

/-- An opening tag counts one up, a closing one counts one down. -/
def weight : Tag → Int
  | opening _ => 1
  | closing _ => -1

end Tag

/-- How tags are recognized in a line. The two counts follow from the tags unless given otherwise. -/
structure Rules where
  /-- The opening tag that the line starts with. -/
  opener? : Text → Option Opener
  /-- Whether the line is one closing tag and nothing else. -/
  isCloser : Text → Bool
  /-- All tags of the line in order. -/
  tags : Text → List Tag
  /-- How many opening tags of a name the line has. -/
  openingCount : Text → Text → Nat := fun line name => (tags line).count (.opening name)
  /-- How many closing tags of a name the line has. -/
  closingCount : Text → Text → Nat := fun line name => (tags line).count (.closing name)

end MarkupOutline.Line
