import MarkupOutline.Markup.Event
import MarkupOutline.Pretty.Style

/-! Where line breaks and indentation go between events. Character data stays in the line of the
markup around it, and so does an end tag right after its start tag. -/
namespace MarkupOutline.Pretty

open Markup

/-- A piece of the formatted document, before it is written out as bytes. -/
inductive Piece where
  | chars (text : Text)
  /-- So many copies of the indentation byte. -/
  | indent (count : Nat)
deriving DecidableEq

/-- Where the writer stands. -/
structure Cursor where
  /-- How many indentation bytes the next line starts with. -/
  indent : Nat := 0
  /-- Whether markup that comes next starts a new line. -/
  breakPending : Bool := false
  /-- Whether a start tag was written last. -/
  afterStart : Bool := false

namespace Cursor

/-- The line break and indentation that are due before markup. -/
def lead (cursor : Cursor) : List Piece :=
  if cursor.breakPending then [.chars ['\n'], .indent cursor.indent] else []

/-- The cursor that an event is written at: an end tag is one level further out, and in the same
line as its start tag if nothing stands between them. -/
def before (style : Style) (cursor : Cursor) : Event → Cursor
  | .endTag _ =>
    { cursor with
      indent := cursor.indent - style.indentWidth
      breakPending := cursor.breakPending && !cursor.afterStart }
  | .text _ | .cdata _ => { cursor with breakPending := false }
  | _ => cursor

/-- The cursor after an event that was written at this one. -/
def after (style : Style) (cursor : Cursor) (event : Event) : Cursor :=
  match event with
  | .startTag _ =>
    { indent := cursor.indent + style.indentWidth, breakPending := true, afterStart := true }
  | .text _ | .cdata _ => { indent := cursor.indent, breakPending := false, afterStart := false }
  | _ => { indent := cursor.indent, breakPending := true, afterStart := false }

end Cursor

/-- The layout of events from a cursor on. -/
def layoutFrom (style : Style) (cursor : Cursor) : List Event → List Piece
  | [] => []
  | event :: rest =>
    let place := cursor.before style event
    place.lead ++ .chars event.written :: layoutFrom style (place.after style event) rest

/-- The layout of a whole document. -/
def layout (style : Style) (events : List Event) : List Piece := layoutFrom style {} events

/-- The bytes of a piece: characters in UTF-8, indentation as it is. -/
def Piece.bytes (style : Style) : Piece → List UInt8
  | chars text => text.flatMap String.utf8EncodeChar
  | indent count => List.replicate count style.indentByte

/-- Read bytes as UTF-8. -/
def decode? (bytes : List UInt8) : Option Text := bytes.toByteArray.utf8Decode?.map Array.toList

theorem decode?_encode (text : Text) : decode? (text.flatMap String.utf8EncodeChar) = some text := by
  have read := List.utf8Decode?_utf8Encode (l := text)
  rw [List.utf8Encode] at read
  simp [decode?, read]

end MarkupOutline.Pretty
