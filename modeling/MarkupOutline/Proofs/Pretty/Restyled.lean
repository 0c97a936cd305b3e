import MarkupOutline.Proofs.Block.Content
import MarkupOutline.Proofs.Outline.Trimmed
import MarkupOutline.Proofs.Pretty.RoundTrip
import MarkupOutline.Proofs.Pretty.SeparatedReading

/-! Formatting with another style. Indentation stands at the start of lines and line breaks at their end, where
trimming cuts both off, so the outline of a formatted text is the same for all styles that use white space. -/
namespace MarkupOutline

namespace Text

private theorem lines_behind (margin text : Text) (white : ∀ letter ∈ margin, isWhite letter = true ∧ letter ≠ '\n') :
    (lines (margin ++ text)).map trim = (lines text).map trim := by
  induction margin with
  | nil => rfl
  | cons letter margin inductionHypothesis =>
    have ⟨blank, other⟩ := white letter List.mem_cons_self
    rw [List.cons_append, lines_cons, if_neg other,
      ← inductionHypothesis fun later member => white later (List.mem_cons_of_mem letter member)]
    cases lines (margin ++ text) with
    | nil => rfl
    | cons line rest =>
      have cut : trim (letter :: line) = trim line := trim_behind [letter] line (by simpa using blank)
      rw [List.modifyHead_cons, List.map_cons, List.map_cons, cut]

/-- Texts with the same first line, and with other lines that are the same when trimmed. -/
structure Aligned (one other : Text) : Prop where
  first : (lines one).head? = (lines other).head?
  later : (lines one).tail.map trim = (lines other).tail.map trim

namespace Aligned

theorem refl (text : Text) : Aligned text text := ⟨rfl, rfl⟩

theorem lines {one other : Text} (aligned : Aligned one other) :
    (Text.lines one).map trim = (Text.lines other).map trim := by
  have first := aligned.first
  have later := aligned.later
  cases left : Text.lines one with
  | nil => exact absurd left (lines_ne_nil one)
  | cons line rest =>
    cases right : Text.lines other with
    | nil => exact absurd right (lines_ne_nil other)
    | cons line' rest' =>
      rw [left, right] at first later
      rw [List.map_cons, List.map_cons, Option.some.inj first]
      exact congrArg _ later

theorem append {one other : Text} (front : Text) (aligned : Aligned one other) :
    Aligned (front ++ one) (front ++ other) := by
  induction front with
  | nil => exact aligned
  | cons letter front inductionHypothesis =>
    rw [List.cons_append, List.cons_append]
    by_cases feed : letter = '\n'
    · constructor
      · rw [lines_cons, lines_cons, if_pos feed, if_pos feed]
        rfl
      · rw [lines_cons, lines_cons, if_pos feed, if_pos feed]
        exact inductionHypothesis.lines
    · constructor
      · rw [lines_cons, lines_cons, if_neg feed, if_neg feed, List.head?_modifyHead, List.head?_modifyHead,
          inductionHypothesis.first]
      · rw [lines_cons, lines_cons, if_neg feed, if_neg feed, List.tail_modifyHead, List.tail_modifyHead]
        exact inductionHypothesis.later

private theorem behind_feed {one other : Text} (aligned : Aligned one other) (margin padding : Text)
    (white : ∀ letter ∈ margin, isWhite letter = true ∧ letter ≠ '\n')
    (blank : ∀ letter ∈ padding, isWhite letter = true ∧ letter ≠ '\n') :
    Aligned ('\n' :: (margin ++ one)) ('\n' :: (padding ++ other)) := by
  constructor
  · rw [lines_cons, lines_cons, if_pos rfl, if_pos rfl]
    rfl
  · rw [lines_cons, lines_cons, if_pos rfl, if_pos rfl, List.tail_cons, List.tail_cons, lines_behind margin one white,
      lines_behind padding other blank, aligned.lines]

end Aligned

/-- A line that is longer by white space at its end. -/
def Trailing (long short : Text) : Prop := ∃ tail, long = short ++ tail ∧ ∀ letter ∈ tail, isWhite letter = true

theorem Trailing.trim_eq {long short : Text} (trailing : Trailing long short) : trim long = trim short := by
  obtain ⟨tail, rfl, white⟩ := trailing
  exact trim_before short tail white

private theorem trailing_cons (letter : Char) (long short : List Text) (trailing : List.Forall₂ Trailing long short) :
    List.Forall₂ Trailing (long.modifyHead (letter :: ·)) (short.modifyHead (letter :: ·)) := by
  cases trailing with
  | nil => exact .nil
  | cons first later =>
    obtain ⟨tail, rfl, white⟩ := first
    exact .cons ⟨tail, rfl, white⟩ later

private theorem map_trim_of_trailing (long short : List Text) (trailing : List.Forall₂ Trailing long short) :
    long.map trim = short.map trim := by
  induction trailing with
  | nil => rfl
  | cons first _ inductionHypothesis => rw [List.map_cons, List.map_cons, first.trim_eq, inductionHypothesis]

end Text

namespace Pretty

open Markup Text

/-- The white space that a style is made of: spaces or tabs, and line feeds with or without a carriage return. -/
structure Style.White (style : Style) : Prop where
  indent : style.indentByte ∈ ([32, 9] : List UInt8)
  lineBreak : style.lineBreak ∈ [['\n'], ['\r', '\n']]

namespace Style.White

variable {style : Style} (white : style.White)

include white

theorem letter : isWhite style.indentLetter = true ∧ style.indentLetter ≠ '\n' := by
  have indent := white.indent
  simp only [List.mem_cons, List.not_mem_nil, or_false] at indent
  rcases indent with same | same <;> rw [indentLetter, same] <;> decide

theorem ascii : style.indentByte.toNat < 128 := by
  have indent := white.indent
  simp only [List.mem_cons, List.not_mem_nil, or_false] at indent
  rcases indent with same | same <;> rw [same] <;> decide

/-- Line breaks of the style leave white space at the end of lines. -/
theorem lines_separate (text : Text) : List.Forall₂ Trailing (lines (style.separate text)) (lines text) := by
  induction text with
  | nil => exact .cons ⟨[], rfl, by simp⟩ .nil
  | cons letter rest inductionHypothesis =>
    by_cases feed : letter = '\n'
    · subst feed
      have breaks := white.lineBreak
      simp only [List.mem_cons, List.not_mem_nil, or_false] at breaks
      rw [separate_lineFeed_cons, lines_cons '\n', if_pos rfl]
      rcases breaks with same | same
      · rw [same, List.singleton_append, lines_cons '\n', if_pos rfl]
        exact .cons ⟨[], rfl, by simp⟩ inductionHypothesis
      · rw [same, List.cons_append, List.singleton_append, lines_cons '\r', if_neg (by decide), lines_cons '\n',
        if_pos rfl]
        refine .cons ⟨['\r'], rfl, fun letter member => ?_⟩ inductionHypothesis
        rw [List.mem_singleton.mp member]
        rfl
    · rw [separate_cons _ _ _ feed, lines_cons letter, lines_cons letter, if_neg feed, if_neg feed]
      exact trailing_cons letter _ _ inductionHypothesis

private theorem write (events : List Event) : ∃ out, style.write events = .ok out ∧
    (lines out).map trim = (lines (style.spell (layout style events))).map trim :=
  ⟨_, style.write_ascii white.ascii events, map_trim_of_trailing _ _ (white.lines_separate _)⟩

end Style.White

/-- Cursors that break lines at the same places. -/
structure Cursor.Alike (one other : Cursor) : Prop where
  pending : one.breakPending = other.breakPending
  start : one.afterStart = other.afterStart

namespace Cursor.Alike

variable {first second : Style} {one other : Cursor} (alike : one.Alike other)

include alike

theorem before (event : Event) : (one.before first event).Alike (other.before second event) := by
  obtain ⟨pending, start⟩ := alike
  cases event <;> exact ⟨by simp [Cursor.before, pending, start], by simp [Cursor.before, start]⟩

private theorem lead (firstWhite : first.White) (secondWhite : second.White) {tail rest : Text}
    (aligned : Aligned tail rest) : Aligned (first.spell one.lead ++ tail) (second.spell other.lead ++ rest) := by
  rw [Cursor.lead, Cursor.lead, alike.pending]
  split
  · have margin : ∀ (style : Style) (count : Nat), style.White →
        ∀ letter ∈ List.replicate count style.indentLetter, isWhite letter = true ∧ letter ≠ '\n' := by
      intro style count white letter member
      rw [List.eq_of_mem_replicate member]
      exact white.letter
    simpa [Style.spell, Piece.letters] using
      aligned.behind_feed _ _ (margin first one.indent firstWhite) (margin second other.indent secondWhite)
  · exact aligned

end Cursor.Alike

private theorem Cursor.after_alike (first second : Style) (one other : Cursor) (event : Event) :
    (one.after first event).Alike (other.after second event) := by
  cases event <;> exact ⟨rfl, rfl⟩

/-- The layouts of the same events in two styles are aligned. -/
theorem aligned_layoutFrom (first second : Style) (firstWhite : first.White) (secondWhite : second.White)
    (events : List Event) (one other : Cursor) (alike : one.Alike other) :
    Aligned (first.spell (layoutFrom first one events)) (second.spell (layoutFrom second other events)) := by
  induction events generalizing one other with
  | nil => exact Aligned.refl []
  | cons event rest inductionHypothesis =>
    have before : (one.before first event).Alike (other.before second event) := alike.before event
    have after := Cursor.after_alike first second (one.before first event) (other.before second event) event
    have later := inductionHypothesis _ _ after
    rw [spell_cons, spell_cons, List.append_assoc, List.append_assoc]
    exact before.lead firstWhite secondWhite (later.append event.written)

/-- In two styles a text is refused for the same reason, or it is formatted with outlines that are alike: the
nodes are the same but for their depth, and the lines but for the white space around them. -/
theorem format_restyled (raw : Text) (first second : Style) (firstWhite : first.White) (secondWhite : second.White) :
    (∃ reason, first.format raw = .error reason ∧ second.format raw = .error reason) ∨
      ∃ one other, first.format raw = .ok one ∧ second.format raw = .ok other ∧
        Outline.Alike (Outline.ofText Line.Angle.rules one) (Outline.ofText Line.Angle.rules other) := by
  cases known : Markup.read raw with
  | error reason => exact .inl ⟨_, by rw [Style.format, known], by rw [Style.format, known]⟩
  | ok events =>
    cases complete : checkDocument events with
    | error reason =>
      exact .inl ⟨reason, by simp only [Style.format, known, complete], by simp only [Style.format, known, complete]⟩
    | ok done =>
      obtain ⟨one, written, lines⟩ := firstWhite.write events
      obtain ⟨other, again, rows⟩ := secondWhite.write events
      have aligned := aligned_layoutFrom first second firstWhite secondWhite events {} {} ⟨rfl, rfl⟩
      refine .inr ⟨one, other, ?_, ?_, ?_⟩
      · rw [first.format_of_read raw events known complete, written]
      · rw [second.format_of_read raw events known complete, again]
      · apply Outline.alike_ofText
        rw [lines, rows]
        exact aligned.lines

/-- Text with a line feed in it, formatted with two spaces and a line feed and with a tab and both characters. -/
theorem format_restyled_lines :
    let raw := "<a><b>1\n2</b><c><d/></c></a>".toList
    let one := "<a>\n  <b>1\n2</b>\n  <c>\n    <d/>\n  </c>\n</a>".toList
    let other := "<a>\r\n\t<b>1\r\n2</b>\r\n\t<c>\r\n\t\t<d/>\r\n\t</c>\r\n</a>".toList
    let tabs : Style := ⟨9, 1, ['\r', '\n']⟩
    Style.standard.White ∧ tabs.White ∧ Style.standard.format raw = .ok one ∧ tabs.format raw = .ok other ∧
      Outline.Alike (Outline.ofText Line.Angle.rules one) (Outline.ofText Line.Angle.rules other) := by
  intro raw one other tabs
  have standard : Style.standard.White := ⟨by decide, by decide⟩
  have white : tabs.White := ⟨by decide, by decide⟩
  have formatted : Style.standard.format raw = .ok one := by decide +kernel
  have again : tabs.format raw = .ok other := by decide +kernel
  refine ⟨standard, white, formatted, again, ?_⟩
  rcases format_restyled raw Style.standard tabs standard white with ⟨reason, failed, _⟩ | ⟨_, _, first, second, alike⟩
  · cases failed.symm.trans formatted
  · cases first.symm.trans formatted
    cases second.symm.trans again
    exact alike

end Pretty

end MarkupOutline
