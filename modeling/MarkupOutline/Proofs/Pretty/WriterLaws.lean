import MarkupOutline.Proofs.Markup.ReaderLaws
import MarkupOutline.Proofs.Pretty.Spelled

/-! What formatting takes from a writer of events, told as laws: character data stays in its line, an end tag joins its
start tag if there is nothing between them, and any other markup starts a line that is indented by the elements around
it. The layout of this library keeps these laws. -/
namespace MarkupOutline.Pretty

open Markup

/-- How a line starts behind another one: with a line feed and the indentation, or not at all. -/
def Style.lineStart (style : Style) (joined : Bool) (indent : Nat) : Text :=
  if joined then [] else '\n' :: List.replicate indent style.indentLetter

/-- The laws of a writer that tells from where it stands what to write before an event, and then goes on. -/
structure WriterLaws (style : Style) (lead : Cursor → Event → Text) (advance : Cursor → Event → Cursor) : Prop where
  /-- Character data stays in its line, and so does what comes right behind it. -/
  inline : ∀ cursor event, event.isInline = true →
    lead cursor event = [] ∧ advance cursor event = ⟨cursor.indent, false, false⟩
  single : ∀ cursor event, event.isTag = false → event.isInline = false →
    lead cursor event = style.lineStart (!cursor.breakPending) cursor.indent ∧
      advance cursor event = ⟨cursor.indent, true, false⟩
  opens : ∀ cursor content,
    lead cursor (.startTag content) = style.lineStart (!cursor.breakPending) cursor.indent ∧
      advance cursor (.startTag content) = ⟨cursor.indent + style.indentWidth, true, true⟩
  closes : ∀ cursor name,
    lead cursor (.endTag name) =
        style.lineStart (!cursor.breakPending || cursor.afterStart) (cursor.indent - style.indentWidth) ∧
      advance cursor (.endTag name) = ⟨cursor.indent - style.indentWidth, true, false⟩

def writtenFrom (lead : Cursor → Event → Text) (advance : Cursor → Event → Cursor) (cursor : Cursor) :
    List Event → Text
  | [] => []
  | event :: rest => lead cursor event ++ event.written ++ writtenFrom lead advance (advance cursor event) rest

namespace WriterLaws

variable {style : Style} {lead : Cursor → Event → Text} {advance : Cursor → Event → Cursor}
  (laws : WriterLaws style lead advance)

include laws

theorem lead_cases (cursor : Cursor) (event : Event) : ∃ joined indent,
    lead cursor event = style.lineStart joined indent ∧ (cursor.breakPending = false → joined = true) := by
  cases event with
  | startTag content => exact ⟨_, _, (laws.opens cursor content).1, fun settled => by rw [settled]; rfl⟩
  | endTag name => exact ⟨_, _, (laws.closes cursor name).1, fun settled => by rw [settled]; rfl⟩
  | text | cdata => exact ⟨true, 0, (laws.inline cursor _ rfl).1, fun _ => rfl⟩
  | emptyTag | comment | instruction | doctype =>
    exact ⟨_, _, (laws.single cursor _ rfl rfl).1, fun settled => by rw [settled]; rfl⟩

theorem lead_space (space : isSpace style.indentLetter = true) (cursor : Cursor) (event : Event) :
    ∀ letter ∈ lead cursor event, isSpace letter = true := by
  obtain ⟨joined, indent, same, _⟩ := laws.lead_cases cursor event
  intro letter member
  rw [same, Style.lineStart] at member
  split at member
  · cases member
  · rcases List.mem_cons.mp member with rfl | copy
    · rfl
    · rw [List.eq_of_mem_replicate copy, space]

theorem lead_settled (cursor : Cursor) (event : Event) (settled : cursor.breakPending = false) :
    lead cursor event = [] := by
  obtain ⟨joined, indent, same, none⟩ := laws.lead_cases cursor event
  rw [same, none settled]
  rfl

end WriterLaws

namespace Style

def lead (style : Style) (cursor : Cursor) (event : Event) : Text := style.spell (cursor.before style event).lead

def advance (style : Style) (cursor : Cursor) (event : Event) : Cursor :=
  (cursor.before style event).after style event

private theorem spell_lead (style : Style) (cursor : Cursor) :
    style.spell cursor.lead = style.lineStart (!cursor.breakPending) cursor.indent := by
  rw [Cursor.lead]
  cases cursor.breakPending with
  | false => rfl
  | true => simp [spell, Piece.letters, lineStart]

end Style

/-- The layout of this library keeps the laws. -/
theorem writerLaws (style : Style) : WriterLaws style style.lead style.advance where
  inline cursor event kind := by
    cases event with
    | text | cdata => exact ⟨style.spell_lead _, rfl⟩
    | startTag | endTag | emptyTag | comment | instruction | doctype => cases kind
  single cursor event kind other := by
    cases event with
    | startTag | endTag => cases kind
    | text | cdata => cases other
    | emptyTag | comment | instruction | doctype => exact ⟨style.spell_lead cursor, rfl⟩
  opens cursor content := ⟨style.spell_lead cursor, rfl⟩
  closes cursor name := by
    refine ⟨(style.spell_lead _).trans ?_, rfl⟩
    cases pending : cursor.breakPending <;> cases started : cursor.afterStart <;>
      simp [Cursor.before, pending, started]

theorem spell_cons (style : Style) (cursor : Cursor) (event : Event) (rest : List Event) :
    style.spell (layoutFrom style cursor (event :: rest)) =
      style.spell (cursor.before style event).lead ++ event.written ++
        style.spell (layoutFrom style ((cursor.before style event).after style event) rest) := by
  simp [layoutFrom, Style.spell, Piece.letters]

/-- A layout is spelled as its events are written. -/
theorem spell_layoutFrom (style : Style) (cursor : Cursor) (events : List Event) :
    style.spell (layoutFrom style cursor events) = writtenFrom style.lead style.advance cursor events := by
  induction events generalizing cursor with
  | nil => rfl
  | cons event rest inductionHypothesis =>
    rw [spell_cons, inductionHypothesis]
    rfl

end MarkupOutline.Pretty
