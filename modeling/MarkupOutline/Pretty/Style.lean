import MarkupOutline.Text.White

/-! How a formatted document is laid out: what one step of indentation is and what stands between
lines. -/
namespace MarkupOutline.Pretty

/-- One nesting level is `indentWidth` copies of `indentByte`, which need not be a character. -/
structure Style where
  indentByte : UInt8 := 32
  indentWidth : Nat := 2
  lineBreak : Text := ['\n']
deriving DecidableEq

/-- Two spaces for each level and a line feed between lines. -/
def Style.standard : Style := {}

end MarkupOutline.Pretty
