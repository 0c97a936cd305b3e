import MarkupOutline.Proofs.Pretty.RoundTrip
import MarkupOutline.Proofs.Pretty.SeparatedReading

/-! Formatting a document again with a separator other than the line feed. The separator takes the place of
every line feed, also of those in the contents of events. If it has a line feed itself, the next pass replaces
that one too, so just the contents without line feeds stay as they are. -/
namespace MarkupOutline.Pretty

open Markup

theorem written_map_separate (style : Style) (event : Event) :
    (event.map style.separate).written = style.separate event.written := by
  cases event with
  | text => rfl
  | startTag | endTag | emptyTag | comment | cdata | instruction | doctype =>
    rw [Event.map, Event.written, Event.written, Style.separate_append, Style.separate_append]
    rfl

private theorem isElement_map (convert : Text → Text) (event : Event) :
    (event.map convert).isElement = event.isElement := by
  cases event <;> rfl

theorem before_map (style : Style) (cursor : Cursor) (convert : Text → Text) (event : Event) :
    cursor.before style (event.map convert) = cursor.before style event := by
  cases event <;> rfl

theorem after_map (style : Style) (cursor : Cursor) (convert : Text → Text) (event : Event) :
    cursor.after style (event.map convert) = cursor.after style event := by
  cases event <;> rfl

section Document

variable {style : Style} (spaced : style.Spaced)
include spaced

private theorem openElements_separate (names open_ : List Text) (events : List Event)
    (walked : openElements names events = .ok open_) :
    openElements names (events.map (Event.map style.separate)) = .ok open_ := by
  induction events generalizing names with
  | nil => exact walked
  | cons event rest inductionHypothesis =>
    cases event with
    | startTag content =>
      rw [List.map_cons, Event.map, openElements, spaced.tagName_separate]
      exact inductionHypothesis _ walked
    | endTag name =>
      cases names with
      | nil => cases walked
      | cons innermost outer => exact inductionHypothesis outer walked
    | emptyTag | text | comment | cdata | instruction | doctype => exact inductionHypothesis names walked

/-- A document stays one when its contents are separated. -/
theorem checkDocument_separate (events : List Event) (complete : checkDocument events = .ok ()) :
    checkDocument (events.map (Event.map style.separate)) = .ok () := by
  have elements : (events.map (Event.map style.separate)).any Event.isElement = events.any Event.isElement := by
    rw [List.any_map]
    congr 1
    funext event
    exact isElement_map style.separate event
  unfold checkDocument at complete ⊢
  split at complete
  · cases complete
  · cases complete
  · next closed =>
    rw [openElements_separate spaced [] [] events closed]
    dsimp only
    rw [elements]
    exact complete

end Document

section Length

variable (style : Style)

private theorem length_separate (text : Text) : (style.separate text).length + text.count '\n' =
    text.length + style.lineBreak.length * text.count '\n' := by
  induction text with
  | nil => rfl
  | cons letter rest inductionHypothesis =>
    by_cases feed : letter = '\n'
    · subst feed
      rw [Style.separate_lineFeed_cons, List.length_append, List.count_cons_self, List.length_cons, Nat.mul_succ]
      omega
    · rw [Style.separate_cons _ _ _ feed, List.count_cons_of_ne feed, List.length_cons, List.length_cons]
      omega

/-- How many line feeds are left in the events when their contents are separated. -/
def feedsLeft (events : List Event) : Nat :=
  (events.flatMap fun event => style.separate event.written).count '\n'

private theorem length_separate_again (cursor : Cursor) (events : List Event) :
    (style.separate (style.spell (layoutFrom style cursor (events.map (Event.map style.separate))))).length +
        feedsLeft style events =
      (style.separate (style.spell (layoutFrom style cursor events))).length +
        style.lineBreak.length * feedsLeft style events := by
  induction events generalizing cursor with
  | nil => rfl
  | cons event rest inductionHypothesis =>
    have behind := inductionHypothesis ((cursor.before style event).after style event)
    have here := length_separate style (style.separate event.written)
    rw [List.map_cons, spell_cons, spell_cons, before_map, after_map, written_map_separate]
    simp only [feedsLeft, List.flatMap_cons, List.count_append, Style.separate_append, List.length_append,
      Nat.mul_add] at behind ⊢
    omega

private theorem separate_again (cursor : Cursor) (events : List Event)
    (kept : ∀ event ∈ events, '\n' ∉ style.separate event.written) :
    style.separate (style.spell (layoutFrom style cursor (events.map (Event.map style.separate)))) =
      style.separate (style.spell (layoutFrom style cursor events)) := by
  induction events generalizing cursor with
  | nil => rfl
  | cons event rest inductionHypothesis =>
    obtain ⟨here, behind⟩ := List.forall_mem_cons.mp kept
    rw [List.map_cons, spell_cons, spell_cons, before_map, after_map, written_map_separate,
      Style.separate_append, Style.separate_append, Style.separate_append, Style.separate_append,
      inductionHypothesis _ behind, style.separate_unbroken _ here]

/-- The next pass lays out the same document unless a line feed is left in a content. A separator that has a
line feed in it is longer than one, so the document grows otherwise. -/
theorem separate_again_iff (custom : style.lineBreak ≠ ['\n']) (cursor : Cursor) (events : List Event) :
    style.separate (style.spell (layoutFrom style cursor (events.map (Event.map style.separate)))) =
        style.separate (style.spell (layoutFrom style cursor events)) ↔
      ('\n' ∈ style.lineBreak → ∀ event ∈ events, '\n' ∉ event.written) := by
  constructor
  · intro same feed event member broken
    have here : '\n' ∈ style.separate event.written :=
      (style.lineFeed_mem_separate_iff event.written).mpr ⟨broken, feed⟩
    have left : 0 < feedsLeft style events :=
      List.count_pos_iff.mpr (List.mem_flatMap.mpr ⟨event, member, here⟩)
    have long : 1 < style.lineBreak.length := by
      by_contra short
      obtain ⟨letter, single⟩ := List.length_eq_one_iff.mp
        (Nat.le_antisymm (Nat.not_lt.mp short) (List.length_pos_of_mem feed))
      rw [single, List.mem_singleton] at feed
      exact custom (by rw [single, feed])
    have lengths := length_separate_again style cursor events
    rw [same] at lengths
    have more := Nat.mul_lt_mul_of_pos_right long left
    omega
  · intro kept
    apply separate_again
    intro event member left
    obtain ⟨broken, feed⟩ := (style.lineFeed_mem_separate_iff event.written).mp left
    exact kept feed event member broken

end Length

/-- Formatting with a separator of space reads back as the same events with their contents separated, and can
be repeated. The document stays as it is unless the separator has a line feed and one stands in a content. -/
theorem format_separated (style : Style) (raw out : Text)
    (blank : style.indentByte ∈ ([32, 9, 13, 10] : List UInt8)) (spaced : style.Spaced)
    (custom : style.lineBreak ≠ ['\n']) (formatted : style.format raw = .ok out)
    (unmarked : out.head? ≠ some '\uFEFF') :
    ∃ events, read raw = .ok events ∧ read out = .ok (events.map (Event.map style.separate)) ∧
      (∃ again, style.format out = .ok again) ∧
      (style.format out = .ok out ↔ ('\n' ∈ style.lineBreak → ∀ event ∈ events, '\n' ∉ event.written)) := by
  obtain ⟨ascii, space⟩ := indentLetter_space style blank
  obtain ⟨events, known, complete, written⟩ := style.format_cases raw out formatted
  have spelled : out = style.separate (style.spell (layout style events)) := by
    rw [style.write_ascii ascii] at written
    exact (Except.ok.inj written).symm
  have laidOut := readFrom_layoutFrom style space [] events (transcript_of_read raw events known) {}
  have read_ : read out = .ok (events.map (Event.map style.separate)) := by
    rw [readFrom_of_unmarked out unmarked, spelled]
    exact spaced.readFrom_separate [] (by simp) _ events laidOut
  have again : style.format out =
      .ok (style.separate (style.spell (layout style (events.map (Event.map style.separate))))) := by
    rw [style.format_of_read out _ read_ (checkDocument_separate spaced events complete), style.write_ascii ascii]
  refine ⟨events, known, read_, ⟨_, again⟩, ?_⟩
  rw [again, ← separate_again_iff style custom {} events, Except.ok.injEq, spelled]
  rfl

/-- A carriage return before each line feed: contents in one line are kept, and others grow with each pass. -/
theorem format_separated_returns :
    let style : Style := { indentByte := 9, indentWidth := 1, lineBreak := "\r\n".toList }
    let kept := "<a>\r\n\t<!--n-->\r\n\t<b c='d'>e f</b>\r\n</a>".toList
    let grown := "<a>x\r\ny</a>".toList
    style.Spaced ∧ style.lineBreak ≠ ['\n'] ∧ style.indentByte ∈ ([32, 9, 13, 10] : List UInt8) ∧
      style.format "<a><!--n--> <b c='d'>e f</b></a>".toList = .ok kept ∧ kept.head? ≠ some '\uFEFF' ∧
      style.format kept = .ok kept ∧
      style.format "<a>x\ny</a>".toList = .ok grown ∧ grown.head? ≠ some '\uFEFF' ∧
      style.format grown ≠ .ok grown := by
  intro style kept grown
  have spaced : style.Spaced := ⟨by decide, by simp [style, isSpace]⟩
  have custom : style.lineBreak ≠ ['\n'] := by decide
  have blank : style.indentByte ∈ ([32, 9, 13, 10] : List UInt8) := by decide
  have first : style.format "<a><!--n--> <b c='d'>e f</b></a>".toList = .ok kept := by decide +kernel
  have second : style.format "<a>x\ny</a>".toList = .ok grown := by decide +kernel
  have plain : kept.head? ≠ some '\uFEFF' ∧ grown.head? ≠ some '\uFEFF' := by decide +kernel
  refine ⟨spaced, custom, blank, first, plain.1, ?_, second, plain.2, ?_⟩
  · obtain ⟨events, known, _, _, stable⟩ := format_separated style _ kept blank spaced custom first plain.1
    have same : read "<a><!--n--> <b c='d'>e f</b></a>".toList = .ok [.startTag ['a'], .comment ['n'],
        .startTag "b c='d'".toList, .text "e f".toList, .endTag ['b'], .endTag ['a']] := by decide +kernel
    rw [same, Except.ok.injEq] at known
    subst known
    exact stable.mpr fun _ => by decide +kernel
  · obtain ⟨events, known, _, _, stable⟩ := format_separated style _ grown blank spaced custom second plain.2
    have same : read "<a>x\ny</a>".toList = .ok [.startTag ['a'], .text ['x', '\n', 'y'], .endTag ['a']] := by
      decide +kernel
    rw [same, Except.ok.injEq] at known
    subst known
    intro again
    exact stable.mp again (by decide) (.text ['x', '\n', 'y']) (by decide) (by decide)

end MarkupOutline.Pretty
