import MarkupOutline.Text.White

/-! Lines are separated by line feeds and nothing else, so a carriage return stays in its line.
Cutting a text into lines and joining them again gives the text back. -/
namespace MarkupOutline.Text

/-- The lines of a text; every text has at least one. -/
def lines (text : Text) : List Text := text.splitOn '\n'

/-- Join lines with line feeds. -/
def unlines (lines : List Text) : Text := ['\n'].intercalate lines

/-- The words of a text: the longest runs of characters that are not white. -/
def words (text : Text) : List Text := (text.splitOnP isWhite).filter (fun word => !word.isEmpty)

theorem unlines_lines (text : Text) : unlines (lines text) = text :=
  List.intercalate_splitOn '\n'

theorem lines_unlines (rows : List Text) (single : ∀ row ∈ rows, '\n' ∉ row) (nonempty : rows ≠ []) :
    lines (unlines rows) = rows :=
  List.splitOn_intercalate '\n' single nonempty

theorem lines_ne_nil (text : Text) : lines text ≠ [] := List.splitOn_ne_nil '\n' text

end MarkupOutline.Text
