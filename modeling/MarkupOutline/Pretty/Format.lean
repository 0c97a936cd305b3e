import MarkupOutline.Markup.Reader
import MarkupOutline.Pretty.Error
import MarkupOutline.Pretty.Layout

/-! Formatting a text: read it, check that it is a document, lay its events out and put the line
separator of the style between the lines. -/
namespace MarkupOutline.Pretty

open Markup

/-- The names of the elements still open after some events, innermost first. -/
def openElements (names : List Text) : List Event → Except PrettyError (List Text)
  | [] => .ok names
  | .startTag content :: rest => openElements (tagName content :: names) rest
  | .endTag name :: rest =>
    match names with
    | [] => .error (.strayEnd name)
    | _ :: outer => openElements outer rest
  | _ :: rest => openElements names rest

/-- A document closes every element that it opens and has at least one. -/
def checkDocument (events : List Event) : Except PrettyError Unit :=
  match openElements [] events with
  | .error reason => .error reason
  | .ok (innermost :: _) => .error (.unclosedElement innermost)
  | .ok [] => if events.any Event.isElement then .ok () else .error .noElement

namespace Style

/-- Put the line separator in the place of every line feed. -/
def separate (style : Style) (text : Text) : Text :=
  text.flatMap fun letter => if letter = '\n' then style.lineBreak else [letter]

/-- The formatted text of some events. -/
def write (style : Style) (events : List Event) : Except PrettyError Text :=
  match decode? ((layout style events).flatMap (Piece.bytes style)) with
  | some text => .ok (style.separate text)
  | none => .error .invalidUtf8

/-- Format a text. A fault of the markup is reported before one of the document, and that before
one of the style. -/
def format (style : Style) (raw : Text) : Except PrettyError Text :=
  match read raw with
  | .error reason => .error (.markup reason)
  | .ok events =>
    match checkDocument events with
    | .error reason => .error reason
    | .ok () => style.write events

theorem separate_lineFeed (style : Style) (plain : style.lineBreak = ['\n']) (text : Text) :
    style.separate text = text := by
  induction text with
  | nil => rfl
  | cons letter rest inductionHypothesis =>
    rw [separate, List.flatMap_cons, ← separate, inductionHypothesis]
    split
    · next same => rw [plain, same]; rfl
    · rfl

end Style

end MarkupOutline.Pretty
