import MarkupOutline.Proofs.Pretty.Breaks
import MarkupOutline.Proofs.Pretty.Streamed

/-! What formatting comes to, told from the text alone: a fault of the markup, an element that is not closed, no element
at all, an indentation that is no piece of a text, or a formatted text. -/
namespace MarkupOutline.Pretty

open Markup

/-- The named element is open behind some events: behind its start tag stand only whole elements. -/
def Unclosed (events : List Event) (name : Text) : Prop :=
  ∃ front content tree, events = front ++ .startTag content :: ElementTree.events tree ∧ tagName content = name

section Outcomes

variable {raw : Text} {events : List Event} {tree : ElementTree}

theorem unclosed_iff (known : ReadsAs raw events) (name : Text) :
    Unclosed events name ↔ ∃ outer, openElements [] events = .ok (name :: outer) := by
  obtain ⟨later, reads, _⟩ := known
  have opened := openElements_of_reads reads
  have nested := reads.nested (Reader.names_start raw)
  constructor
  · rintro ⟨front, content, tree, rfl, rfl⟩
    obtain ⟨between, _, behind⟩ := openElements_front [] later.names front _ opened
    have whole := tree.openElements_events (tagName content :: between) []
    rw [List.append_nil] at whole
    exact ⟨between, opened.trans (behind.symm.trans whole)⟩
  · rintro ⟨outer, same⟩
    rw [Except.ok.inj (opened.symm.trans same)] at nested
    cases nested with
    | inside around content tree => exact ⟨_, content, tree, rfl, rfl⟩

theorem closed_cases (known : ReadsAs raw events) :
    (∃ name, Unclosed events name) ∨ ∃ tree : ElementTree, tree.events = events := by
  have transcript := transcript_of_read raw events ((read_eq_ok_iff raw events).mpr known)
  obtain ⟨later, reads, ended⟩ := known
  have opened := openElements_of_reads reads
  cases names : later.names with
  | nil => exact .inr (ElementTree.exists_events readerLaws events transcript (names ▸ opened))
  | cons name outer =>
    exact .inl ⟨name, (unclosed_iff ⟨later, reads, ended⟩ name).mpr ⟨outer, names ▸ opened⟩⟩

theorem checkDocument_tree (tree : ElementTree) :
    checkDocument tree.events = if tree.events.any Event.isElement then .ok () else .error .noElement := by
  have whole := tree.openElements_events [] []
  rw [List.append_nil] at whole
  rw [checkDocument, whole]
  rfl

variable {style : Style}

theorem format_fault {reason : ReadError} (fault : FaultsWith raw reason) :
    style.format raw = .error (.markup reason) := by
  rw [Style.format, (read_eq_error_iff raw reason).mpr fault]

theorem format_unclosed {name : Text} (known : ReadsAs raw events) (unclosed : Unclosed events name) :
    style.format raw = .error (.unclosedElement name) := by
  obtain ⟨outer, opened⟩ := (unclosed_iff known name).mp unclosed
  rw [Style.format, (read_eq_ok_iff raw events).mpr known]
  dsimp only
  rw [checkDocument, opened]

theorem format_bare (known : ReadsAs raw events) (bare : ∀ event ∈ events, event.isElement = false) :
    style.format raw = .error .noElement := by
  rcases closed_cases known with ⟨name, front, content, tree, rfl, _⟩ | ⟨tree, rfl⟩
  · cases bare (.startTag content) (by simp)
  · have none : tree.events.any Event.isElement = false := List.any_eq_false.mpr (by simpa using bare)
    rw [Style.format, (read_eq_ok_iff raw _).mpr known]
    dsimp only
    rw [checkDocument_tree, none]
    rfl

theorem format_tree (known : ReadsAs raw tree.events) (rooted : ∃ event ∈ tree.events, event.isElement = true) :
    style.format raw = style.write tree.events := by
  apply style.format_of_read raw _ ((read_eq_ok_iff raw _).mpr known)
  rw [checkDocument_tree, List.any_eq_true.mpr rooted]
  rfl

/-- The outcomes of formatting a text, one for each kind. -/
inductive Outcome (style : Style) (raw : Text) : Except PrettyError Text → Prop where
  | fault (reason : ReadError) (fault : FaultsWith raw reason) : Outcome style raw (.error (.markup reason))
  | unclosed (events : List Event) (name : Text) (known : ReadsAs raw events) (unclosed : Unclosed events name) :
      Outcome style raw (.error (.unclosedElement name))
  | bare (events : List Event) (known : ReadsAs raw events) (bare : ∀ event ∈ events, event.isElement = false) :
      Outcome style raw (.error .noElement)
  | garbled (tree : ElementTree) (known : ReadsAs raw tree.events)
      (rooted : ∃ event ∈ tree.events, event.isElement = true) (garbles : style.Garbles tree) :
      Outcome style raw (.error .invalidUtf8)
  | formatted (tree : ElementTree) (known : ReadsAs raw tree.events)
      (rooted : ∃ event ∈ tree.events, event.isElement = true) (plain : ¬ style.Garbles tree) (out : Text) :
      Outcome style raw (.ok out)

/-- Formatting a text always has one of these outcomes. -/
theorem outcome_format (style : Style) (raw : Text) : Outcome style raw (style.format raw) := by
  cases known : read raw with
  | error reason =>
    have fault := (read_eq_error_iff raw reason).mp known
    rw [format_fault fault]
    exact .fault reason fault
  | ok events =>
    have known := (read_eq_ok_iff raw events).mp known
    rcases closed_cases known with ⟨name, unclosed⟩ | ⟨tree, rfl⟩
    · rw [format_unclosed known unclosed]
      exact .unclosed events name known unclosed
    · by_cases rooted : ∃ event ∈ tree.events, event.isElement = true
      · rw [format_tree known rooted]
        by_cases garbles : style.Garbles tree
        · rw [Style.write_garbled garbles]
          exact .garbled tree known rooted garbles
        · obtain ⟨out, written⟩ := Style.write_plain garbles
          rw [written]
          exact .formatted tree known rooted garbles out
      · have bare : ∀ event ∈ tree.events, event.isElement = false := by simpa using rooted
        rw [format_bare known bare]
        exact .bare _ known bare

end Outcomes

/-- What formatting comes to, for every style and every text. A fault of the markup is reported as the reader finds it
before the end of the text; then the innermost element that is not closed; then that there is no element; then that
indentation which is no piece of a text was written for a break inside an element; and else there is a formatted
text. No other error is ever reported, since a pass over the text keeps the same open elements as its reader. -/
theorem format_outcomes (style : Style) (raw : Text) :
    (∀ reason, style.format raw = .error (.markup reason) ↔ FaultsWith raw reason) ∧
      (∀ name, style.format raw = .error (.unclosedElement name) ↔
        ∃ events, ReadsAs raw events ∧ Unclosed events name) ∧
      (style.format raw = .error .noElement ↔
        ∃ events, ReadsAs raw events ∧ ∀ event ∈ events, event.isElement = false) ∧
      (style.format raw = .error .invalidUtf8 ↔
        ∃ tree : ElementTree, ReadsAs raw tree.events ∧ (∃ event ∈ tree.events, event.isElement = true) ∧
          128 ≤ style.indentByte.toNat ∧ 0 < style.indentWidth ∧ BreaksInside tree) ∧
      ((∃ out, style.format raw = .ok out) ↔
        ∃ tree : ElementTree, ReadsAs raw tree.events ∧ (∃ event ∈ tree.events, event.isElement = true) ∧
          ¬ (128 ≤ style.indentByte.toNat ∧ 0 < style.indentWidth ∧ BreaksInside tree)) ∧
      (∀ name, style.format raw ≠ .error (.strayEnd name)) ∧
      (∀ reason, style.format raw ≠ .error (.writeFailure reason)) ∧
      style.format raw = (Pass.start raw).run style ∧
      ∀ pass, Pass.Reached style raw pass → pass.elements = pass.reader.names ∧
        ∀ name later, pass.reader.next = .ok (some (.endTag name, later)) → ∃ outer, pass.elements = name :: outer := by
  have outcome := outcome_format style raw
  refine ⟨fun reason => ⟨fun failed => ?_, format_fault⟩, fun name => ⟨fun failed => ?_, ?_⟩, ⟨fun failed => ?_, ?_⟩,
    ⟨fun failed => ?_, ?_⟩, ⟨?_, ?_⟩, fun name failed => ?_, fun reason failed => ?_, style.format_streamed raw,
    fun pass reached => reached.lockstep⟩
  · rw [failed] at outcome
    cases outcome with
    | fault _ fault => exact fault
  · rw [failed] at outcome
    cases outcome with
    | unclosed events _ known unclosed => exact ⟨events, known, unclosed⟩
  · rintro ⟨events, known, unclosed⟩
    exact format_unclosed known unclosed
  · rw [failed] at outcome
    cases outcome with
    | bare events known bare => exact ⟨events, known, bare⟩
  · rintro ⟨events, known, bare⟩
    exact format_bare known bare
  · rw [failed] at outcome
    cases outcome with
    | garbled tree known rooted garbles => exact ⟨tree, known, rooted, garbles.high, garbles.wide, garbles.inside⟩
  · rintro ⟨tree, known, rooted, high, wide, inside⟩
    rw [format_tree known rooted, Style.write_garbled ⟨high, wide, inside⟩]
  · rintro ⟨out, formatted⟩
    rw [formatted] at outcome
    cases outcome with
    | formatted tree known rooted plain =>
      exact ⟨tree, known, rooted, fun ⟨high, wide, inside⟩ => plain ⟨high, wide, inside⟩⟩
  · rintro ⟨tree, known, rooted, plain⟩
    rw [format_tree known rooted]
    exact Style.write_plain fun garbles => plain ⟨garbles.high, garbles.wide, garbles.inside⟩
  · rw [failed] at outcome
    cases outcome
  · rw [failed] at outcome
    cases outcome

/-- Half a character for each level is no text, unless every break is outside all elements. -/
example : Style.format { indentByte := 0xC3, indentWidth := 1 } "<a><b/></a>".toList = .error .invalidUtf8 ∧
    Style.format { indentByte := 0xC3, indentWidth := 1 } "<!--n--><a>x</a>".toList =
      .ok "<!--n-->\n<a>x</a>".toList := by
  decide +kernel

end MarkupOutline.Pretty
