import MarkupOutline.Pretty.Format
import MarkupOutline.Outline.Action
import MarkupOutline.Timing.Window

/-! A text being edited beside the outline of its formatted form. Formatting waits until the text
has been quiet for a while, and every pass makes a new outline. -/
namespace MarkupOutline

open Pretty Timing

/-- What is shown beside the text. -/
inductive Preview where
  /-- The text was blank. -/
  | blank
  | outlined (outline : Outline)
  | failed (error : PrettyError)
deriving DecidableEq

/-- One formatting pass. -/
def Preview.ofInput (style : Style) (input : Text) : Preview :=
  if Text.isBlank input then .blank
  else match style.format input with
    | .ok output => .outlined (.ofText Line.Angle.rules output)
    | .error error => .failed error

structure Editor where
  style : Style := .standard
  window : QuietWindow Text := {}
  input : Text := []
  /-- What the last pass gave. -/
  preview : Preview := .blank
  passes : Nat := 0

namespace Editor

/-- A document for readers who have none at hand. -/
def sample : Text := (
  "<?xml version=\"1.0\" encoding=\"UTF-8\"?>\n" ++
  "<bookstore>\n" ++
  "  <book id=\"1\">\n" ++
  "    <title>The Great Gatsby</title>\n" ++
  "    <author>F. Scott Fitzgerald</author>\n" ++
  "    <price currency=\"USD\">12.99</price>\n" ++
  "  </book>\n" ++
  "  <book id=\"2\">\n" ++
  "    <title>1984</title>\n" ++
  "    <author>George Orwell</author>\n" ++
  "    <price currency=\"USD\">9.99</price>\n" ++
  "  </book>\n" ++
  "</bookstore>").toList

/-- An editor with no text yet. -/
def start (style : Style) (delay : Nat) : Editor := { style, window := { delay } }

/-- Replace the text; the pass that waits gives way to a new one. -/
def edit (editor : Editor) (now : Nat) (input : Text) : Editor :=
  { editor with input, window := (editor.window.push now input).2 }

def openSample (editor : Editor) (now : Nat) : Editor := editor.edit now sample

/-- Run a pass over some text. -/
def reformat (editor : Editor) (input : Text) : Editor :=
  { editor with preview := .ofInput editor.style input, passes := editor.passes + 1 }

/-- Let the clock come to `now`: run the pass that waits if it is due, and tell whether it was. -/
def advance (editor : Editor) (now : Nat) : Bool × Editor :=
  match editor.window.poll now with
  | (some input, window) => (true, reformat { editor with window } input)
  | (none, _) => (false, editor)

/-- Format at once; no pass waits after that. -/
def refresh (editor : Editor) : Editor :=
  reformat { editor with window := editor.window.cancel.2 } editor.input

def outline? (editor : Editor) : Option Outline :=
  match editor.preview with
  | .outlined outline => some outline
  | _ => none

def error? (editor : Editor) : Option PrettyError :=
  match editor.preview with
  | .failed error => some error
  | _ => none

/-- The formatted text; empty if there is none. -/
def output (editor : Editor) : Text := (editor.outline?.map Outline.text).getD []

def deadline? (editor : Editor) : Option Nat := editor.window.deadline?

/-- Show another outline in the place of the one shown. -/
def withOutline (editor : Editor) (outline : Outline) : Editor :=
  { editor with preview := .outlined outline }

/-- Fold or unfold the outline, if there is one. -/
def fold (editor : Editor) (action : Outline.Action) : Bool × Editor :=
  match editor.outline? with
  | some outline => ((outline.perform action).1, editor.withOutline (outline.perform action).2)
  | none => (false, editor)

def toggle (editor : Editor) (path : List Nat) : Bool × Editor := editor.fold (.toggle path)

/-- What can be done in an editor. -/
inductive Action where
  | edit (now : Nat) (input : Text)
  | openSample (now : Nat)
  | advance (now : Nat)
  | refresh
  | fold (action : Outline.Action)

/-- The editor after an action. -/
def perform (editor : Editor) : Action → Editor
  | .edit now input => editor.edit now input
  | .openSample now => editor.openSample now
  | .advance now => (editor.advance now).2
  | .refresh => editor.refresh
  | .fold action => (editor.fold action).2

end Editor

end MarkupOutline
