import MarkupOutline.Text.Lines
import MarkupOutline.Text.Search
import MarkupOutline.Line.Angle

/-! A block is one line or a run of lines that starts and ends with the tags of one element. Its
depth comes from the indentation of its first line. -/
namespace MarkupOutline

namespace Block

open Text

/-- So many characters of white space make one level of depth. -/
def levelWidth : Nat := 2

/-- The depth of a line, rounded down to whole levels. -/
def depthOf (line : Text) : Nat := (line.takeWhile isWhite).length / levelWidth

/-- The opening tag under which some lines fold, told from the first line and the last one: the last
line closes an element, or a closing tag begins in the first line already. -/
def foldingOpener? (rules : Line.Rules) (first last : Text) : Option Line.Opener :=
  match rules.opener? first with
  | some tag => if rules.isCloser last || occursIn ['<', '/'] tag.rest then some tag else none
  | none => none

end Block

/-- Lines joined with line feeds, and the depth of the first of them. -/
structure Block where
  content : Text
  depth : Nat
deriving DecidableEq

namespace Block

open Text

def lines (block : Block) : List Text := Text.lines block.content

def lineCount (block : Block) : Nat := block.lines.length

def spansLines (block : Block) : Bool := block.content.contains '\n'

/-- The text before the first line feed. -/
def firstLine (block : Block) : Text := block.content.takeWhile (· ≠ '\n')

/-- The text after the last line feed. -/
def lastLine (block : Block) : Text := (block.content.reverse.takeWhile (· ≠ '\n')).reverse

/-- The text between the first line feed and the last one. -/
def interior (block : Block) : Text :=
  let below := (block.content.dropWhile (· ≠ '\n')).drop 1
  ((below.reverse.dropWhile (· ≠ '\n')).drop 1).reverse

/-- Whether the block can be shown as its two tags alone; tags are in angle brackets here. -/
def folds (block : Block) : Bool :=
  block.spansLines && (foldingOpener? Line.Angle.rules block.firstLine block.lastLine).isSome

theorem unlines_lines (block : Block) : unlines block.lines = block.content :=
  Text.unlines_lines block.content

end Block

end MarkupOutline
