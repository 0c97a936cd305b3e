import MarkupOutline.Proofs.Markup.Transcript
import MarkupOutline.Proofs.Pretty.WriterLaws

/-! Formatting loses nothing. A lawful writer breaks lines before markup only, where a lawful reader passes over space,
so the formatted text reads as the same events and formatting it again changes nothing. -/
namespace MarkupOutline.Pretty

open Markup

theorem readFrom_of_unmarked (text : Text) (unmarked : text.head? ≠ some '\uFEFF') :
    read text = readFrom [] text := by
  unfold Markup.read
  split
  · next rest => exact absurd rfl unmarked
  · rfl

theorem transcript_of_read (text : Text) (events : List Event) (known : read text = .ok events) :
    Transcript next? follow [] events := by
  unfold Markup.read at known
  split at known <;> exact readerLaws.transcript ((readFrom_eq_ok_iff _ _ _).mp known)

section Laws

variable {next : Text → Except ReadError (Option (Event × Text))}
  {follow : List Text → Event → Except ReadError (List Text)} {style : Style} {lead : Cursor → Event → Text}
  {advance : Cursor → Event → Cursor} (reads : ReaderLaws next follow) (writes : WriterLaws style lead advance)

include writes

private theorem atMarkup_written (cursor : Cursor) (settled : cursor.breakPending = false) (events : List Event)
    (apart : ∀ event ∈ events.head?, Reread next event) : AtMarkup (writtenFrom lead advance cursor events) := by
  cases events with
  | nil => exact .inl rfl
  | cons event rest =>
    obtain ⟨spelling, written⟩ := (apart event rfl).marked
    rw [writtenFrom, writes.lead_settled cursor event settled, written]
    exact .inr ⟨_, rfl⟩

include reads

/-- A reader gives the events of a transcript as a writer has written them, wherever the writer has started. -/
theorem gives_written (space : isSpace style.indentLetter = true) (names : List Text) (events : List Event)
    (transcript : Transcript next follow names events) (cursor : Cursor) :
    Gives next follow names (writtenFrom lead advance cursor events) events := by
  induction transcript generalizing cursor with
  | done names => exact .ended reads.ended
  | markup event reread followed rest inductionHypothesis =>
    exact .more (reread.again _ _ (writes.lead_space space cursor event)) followed (inductionHypothesis _)
  | text content trimmed apart rest inductionHypothesis =>
    obtain ⟨joined, onward⟩ := writes.inline cursor (.text content) rfl
    have ends := atMarkup_written writes (advance cursor (.text content)) (by rw [onward]) _ apart
    rw [writtenFrom, joined, List.nil_append]
    exact .more (reads.text content _ trimmed ends) (reads.keeps _ _ rfl) (inductionHypothesis _)

end Laws

/-- A transcript is read back from its layout, wherever the layout starts. -/
theorem readFrom_layoutFrom (style : Style) (space : isSpace style.indentLetter = true)
    (names : List Text) (events : List Event) (transcript : Transcript next? follow names events) (cursor : Cursor) :
    readFrom names (style.spell (layoutFrom style cursor events)) = .ok events := by
  rw [readFrom_eq_ok_iff, spell_layoutFrom]
  exact gives_written readerLaws (writerLaws style) space names events transcript cursor

theorem indentLetter_space (style : Style) (blank : style.indentByte ∈ ([32, 9, 13, 10] : List UInt8)) :
    style.indentByte.toNat < 128 ∧ isSpace style.indentLetter = true := by
  unfold Style.indentLetter
  simp only [List.mem_cons, List.not_mem_nil, or_false] at blank
  rcases blank with same | same | same | same <;> rw [same] <;> decide

/-- The formatted text reads as the events of the original, and formatting it again changes nothing. -/
theorem format_lossless (style : Style) (raw out : Text)
    (blank : style.indentByte ∈ ([32, 9, 13, 10] : List UInt8)) (plain : style.lineBreak = ['\n'])
    (formatted : style.format raw = .ok out) (unmarked : out.head? ≠ some '\uFEFF') :
    (∃ events, read raw = .ok events ∧ read out = .ok events) ∧ style.format out = .ok out := by
  obtain ⟨ascii, space⟩ := indentLetter_space style blank
  obtain ⟨events, known, complete, written⟩ := style.format_cases raw out formatted
  have spelled : out = style.spell (layout style events) := by
    rw [style.write_ascii ascii, style.separate_lineFeed plain] at written
    exact (Except.ok.inj written).symm
  have again : read out = .ok events := by
    rw [readFrom_of_unmarked out unmarked, spelled]
    exact readFrom_layoutFrom style space [] events (transcript_of_read raw events known) {}
  refine ⟨⟨events, known, again⟩, ?_⟩
  rw [style.format_of_read out events again complete, written]

/-- Quoted and nested brackets, joined and separate lines, with one tab for each level. -/
theorem format_lossless_mixed :
    (9 : UInt8) ∈ ([32, 9, 13, 10] : List UInt8) ∧
      Style.format { indentByte := 9, indentWidth := 1 }
          "<!doctype  a [<!ENTITY b>]> <a q='>'> x <b></b >\n<!--n--><![CDATA[ z ]]> w <c/></a>".toList =
        .ok "<!DOCTYPE a [<!ENTITY b>]>\n<a q='>'>x<b></b>\n\t<!--n--><![CDATA[ z ]]>w<c/>\n</a>".toList ∧
      (∃ events,
        Markup.read
            "<!doctype  a [<!ENTITY b>]> <a q='>'> x <b></b >\n<!--n--><![CDATA[ z ]]> w <c/></a>".toList =
          .ok events ∧
        Markup.read
            "<!DOCTYPE a [<!ENTITY b>]>\n<a q='>'>x<b></b>\n\t<!--n--><![CDATA[ z ]]>w<c/>\n</a>".toList =
          .ok events) ∧
      Style.format { indentByte := 9, indentWidth := 1 }
          "<!DOCTYPE a [<!ENTITY b>]>\n<a q='>'>x<b></b>\n\t<!--n--><![CDATA[ z ]]>w<c/>\n</a>".toList =
        .ok "<!DOCTYPE a [<!ENTITY b>]>\n<a q='>'>x<b></b>\n\t<!--n--><![CDATA[ z ]]>w<c/>\n</a>".toList := by
  have formatted : Style.format { indentByte := 9, indentWidth := 1 }
      "<!doctype  a [<!ENTITY b>]> <a q='>'> x <b></b >\n<!--n--><![CDATA[ z ]]> w <c/></a>".toList =
      .ok "<!DOCTYPE a [<!ENTITY b>]>\n<a q='>'>x<b></b>\n\t<!--n--><![CDATA[ z ]]>w<c/>\n</a>".toList := by
    decide +kernel
  have lossless := format_lossless { indentByte := 9, indentWidth := 1 } _ _ (by decide) rfl formatted
    (by decide +kernel)
  exact ⟨by decide, formatted, lossless⟩

end MarkupOutline.Pretty
