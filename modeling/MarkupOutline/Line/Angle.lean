import MarkupOutline.Text.Search
import MarkupOutline.Line.Rules

/-! Tags in angle brackets, found by plain searches in the trimmed line. Quotes, namespaces and
character data mean nothing here. -/
namespace MarkupOutline.Line.Angle

open Text

/-- What cannot stand in the name of an element that a line opens. -/
def endsOpenName (letter : Char) : Bool :=
  letter == '/' || letter == '>' || letter == '!' || letter == '?' || isWhite letter

/-- The tag at the start of a trimmed line: a name, then `>` or white space and anything up to the
next `>`. -/
def openerAt? (line : Text) : Option Opener :=
  match line with
  | '<' :: body =>
    let name := body.takeWhile (fun letter => !endsOpenName letter)
    if name.isEmpty then none
    else match body.dropWhile (fun letter => !endsOpenName letter) with
      | [] => none
      | stop :: after =>
        if stop = '>' then some ⟨name, after⟩
        else if isWhite stop then
          (breakOn? ['>'] after).map fun (_, rest) => ⟨name, rest⟩
        else none
  | _ => none

/-- A line with `/>`, `<?` or `<!--` anywhere in it opens no element. -/
def opener? (line : Text) : Option Opener :=
  let trimmed := trim line
  if occursIn ['/', '>'] trimmed || occursIn ['<', '?'] trimmed ||
      occursIn ['<', '!', '-', '-'] trimmed then none
  else openerAt? trimmed

/-- A closing tag has a name, and its `>` is the last character of the line. -/
def isCloser (line : Text) : Bool :=
  match trim line with
  | '<' :: '/' :: body =>
    !(body.takeWhile (· ≠ '>')).isEmpty && body.dropWhile (· ≠ '>') == ['>']
  | _ => false

/-- The tag that starts with a `<`, told from the text after it. The name of a closing tag runs up
to `>`, that of an opening tag up to `>` or white space; neither is empty or runs to the end. -/
def tagAt? (text : Text) : Option Tag :=
  match text with
  | '/' :: body =>
    let name := body.takeWhile (· ≠ '>')
    if name.isEmpty || (body.dropWhile (· ≠ '>')).isEmpty then none else some (.closing name)
  | body =>
    let name := body.takeWhile (fun letter => letter ≠ '>' && !isWhite letter)
    if name.isEmpty || (body.dropWhile (fun letter => letter ≠ '>' && !isWhite letter)).isEmpty then
      none
    else some (.opening name)

/-- The tags that start at each `<` of a text, also inside other tags. -/
def tagsFrom : Text → List Tag
  | [] => []
  | letter :: rest => if letter = '<' then (tagAt? rest).toList ++ tagsFrom rest else tagsFrom rest

def tags (line : Text) : List Tag := tagsFrom (trim line)

def rules : Rules := { opener?, isCloser, tags }

end MarkupOutline.Line.Angle
