import MarkupOutline.Pretty.Format
import MarkupOutline.Proofs.Line.Written
import MarkupOutline.Proofs.Markup.Transcript

/-! The events of a complete document are those of a tree, in which everything between the two tags of an
element is inside that element. In a tidy tree a search for tags line by line sees the same elements. -/
namespace MarkupOutline.Markup

open Line.Angle Pretty

/-- Elements and other events in order. An element has a tree inside it. -/
inductive ElementTree where
  | nil
  | leaf (event : Event) (single : event.isTag = false) (rest : ElementTree)
  | element (content : Text) (inside rest : ElementTree)

namespace ElementTree

/-- The events of a tree as they follow each other in the document. -/
def events : ElementTree → List Event
  | nil => []
  | leaf event _ rest => event :: rest.events
  | element content inside rest =>
    .startTag content :: (inside.events ++ .endTag (tagName content) :: rest.events)

/-- The events of a tree that stands inside elements not closed yet, each with what follows it. -/
def eventsWithin (tree : ElementTree) : List (Text × ElementTree) → List Event
  | [] => tree.events
  | (name, behind) :: outer => tree.events ++ .endTag name :: behind.eventsWithin outer

private theorem exists_leaf (names : List Text) (event : Event) (events : List Event)
    (single : event.isTag = false)
    (known : ∃ (tree : ElementTree) (outer : List (Text × ElementTree)),
      outer.map Prod.fst = names ∧ tree.eventsWithin outer = events) :
    ∃ (tree : ElementTree) (outer : List (Text × ElementTree)),
      outer.map Prod.fst = names ∧ tree.eventsWithin outer = event :: events := by
  obtain ⟨tree, outer, same, spelled⟩ := known
  refine ⟨leaf event single tree, outer, same, ?_⟩
  rw [← spelled]
  cases outer <;> rfl

section Laws

variable {next : Text → Except ReadError (Option (Event × Text))}
  {follow : List Text → Event → Except ReadError (List Text)} (laws : ReaderLaws next follow)

include laws

private theorem exists_eventsWithin (names : List Text) (events : List Event)
    (transcript : Transcript next follow names events) (complete : openElements names events = .ok []) :
    ∃ (tree : ElementTree) (outer : List (Text × ElementTree)),
      outer.map Prod.fst = names ∧ tree.eventsWithin outer = events := by
  induction transcript with
  | done names =>
    cases complete
    exact ⟨nil, [], rfl, rfl⟩
  | @markup names inside events event reread followed rest inductionHypothesis =>
    cases event with
    | startTag content =>
      cases (laws.opens names content).symm.trans followed
      obtain ⟨tree, outer, same, spelled⟩ := inductionHypothesis complete
      obtain ⟨⟨name, behind⟩, outer, rfl⟩ := List.exists_cons_of_length_pos
        (show 0 < outer.length by rw [← List.length_map Prod.fst, same]; exact Nat.zero_lt_succ _)
      obtain ⟨rfl, rfl⟩ := List.cons.inj same
      refine ⟨element content tree behind, outer, rfl, ?_⟩
      rw [← spelled]
      cases outer <;> simp [eventsWithin, ElementTree.events]
    | endTag name =>
      obtain rfl := (laws.closes names inside name).mp followed
      obtain ⟨tree, outer, same, spelled⟩ := inductionHypothesis complete
      refine ⟨nil, (name, tree) :: outer, by rw [List.map_cons, same], ?_⟩
      rw [eventsWithin, spelled]
      rfl
    | text | comment | cdata | instruction | doctype | emptyTag =>
      cases (laws.keeps names _ rfl).symm.trans followed
      exact exists_leaf _ _ _ rfl (inductionHypothesis complete)
  | text content trimmed apart rest inductionHypothesis =>
    exact exists_leaf _ _ _ rfl (inductionHypothesis complete)

/-- A complete document has an element tree. -/
theorem exists_events (events : List Event) (transcript : Transcript next follow [] events)
    (complete : openElements [] events = .ok []) : ∃ tree : ElementTree, tree.events = events := by
  obtain ⟨tree, outer, same, spelled⟩ := exists_eventsWithin laws [] events transcript complete
  rw [List.map_eq_nil_iff.mp same] at spelled
  exact ⟨tree, spelled⟩

end Laws

theorem openElements_events (tree : ElementTree) (names : List Text) (more : List Event) :
    openElements names (tree.events ++ more) = openElements names more := by
  induction tree generalizing names more with
  | nil => rfl
  | leaf event single rest restHypothesis =>
    cases event with
    | startTag | endTag => cases single
    | text | comment | cdata | instruction | doctype | emptyTag => exact restHypothesis names more
  | element content inside rest insideHypothesis restHypothesis =>
    have spelled : (element content inside rest).events ++ more =
        .startTag content :: (inside.events ++ .endTag (tagName content) :: (rest.events ++ more)) := by
      simp [events]
    rw [spelled, openElements, insideHypothesis, openElements, restHypothesis]

end ElementTree

theorem openElements_append (names : List Text) (front more : List Event) (inside : List Text)
    (known : openElements names front = .ok inside) :
    openElements names (front ++ more) = openElements inside more := by
  induction front generalizing names with
  | nil =>
    cases known
    rfl
  | cons event front inductionHypothesis =>
    cases event with
    | startTag content => exact inductionHypothesis _ known
    | endTag name =>
      cases names with
      | nil => cases known
      | cons innermost outer => exact inductionHypothesis _ known
    | text | comment | cdata | instruction | doctype | emptyTag => exact inductionHypothesis _ known

def openNames (events : List Event) : List Text := (openElements [] events).toOption.getD []

/-- What an event between others must be like. Text stands alone between the two tags of an element, and
an empty tag with something behind its name does not have the name of an element around it. -/
def Event.FitsBetween (before after : List Event) : Event → Prop
  | startTag content => PlainTag content
  | endTag _ => True
  | emptyTag content =>
    PlainTag content ∧ (content ≠ tagName content → tagName content ∉ openNames before)
  | text content => '\n' ∉ content ∧ before.getLast?.any isStart = true ∧ after.head?.any isEnd = true
  | cdata _ => False
  | comment content | instruction content | doctype content => '<' ∉ content ∧ '\n' ∉ content

instance (before after : List Event) : (event : Event) → Decidable (event.FitsBetween before after)
  | .startTag content => inferInstanceAs (Decidable (PlainTag content))
  | .endTag _ => inferInstanceAs (Decidable True)
  | .emptyTag content => inferInstanceAs (Decidable (PlainTag content ∧
      (content ≠ tagName content → tagName content ∉ openNames before)))
  | .text content => inferInstanceAs (Decidable ('\n' ∉ content ∧
      before.getLast?.any Event.isStart = true ∧ after.head?.any Event.isEnd = true))
  | .cdata _ => inferInstanceAs (Decidable False)
  | .comment content | .instruction content | .doctype content =>
    inferInstanceAs (Decidable ('<' ∉ content ∧ '\n' ∉ content))

/-- A document in which a search for tags line by line sees what a reader sees. -/
def Regular (events : List Event) : Prop :=
  ∀ before event after, events = before ++ event :: after → event.FitsBetween before after

theorem regular_iff (events : List Event) : Regular events ↔
    ∀ place ∈ List.range events.length, ∀ event ∈ events[place]?,
      event.FitsBetween (events.take place) (events.drop (place + 1)) := by
  constructor
  · intro regular place _ event here
    obtain ⟨inside, rfl⟩ := List.getElem?_eq_some_iff.mp here
    apply regular
    rw [List.getElem_cons_drop, List.take_append_drop]
  · intro fits before event after split
    subst split
    have here := fits before.length (by simp) event (by simp)
    simpa using here

instance (events : List Event) : Decidable (Regular events) := decidable_of_iff _ (regular_iff events).symm

namespace ElementTree

/-- The text of an element in which there is nothing else. -/
def inline? : ElementTree → Option Text
  | nil => some []
  | leaf (.text content) _ nil => some content
  | _ => none

/-- Trees of regular documents, inside elements with certain names. An element is written in one line if
there is nothing or only text in it. -/
inductive Tidy : List Text → ElementTree → Prop where
  | nil (around : List Text) : Tidy around .nil
  | mark {around : List Text} {rest : ElementTree} (event : Event) (single : event.isTag = false)
      (plain : PlainMark event)
      (apart : ∀ content, event = .emptyTag content → content ≠ tagName content → tagName content ∉ around)
      (behind : Tidy around rest) : Tidy around (.leaf event single rest)
  | line {around : List Text} {inside rest : ElementTree} (content text : Text) (plain : PlainTag content)
      (sole : inside.inline? = some text) (unmarked : '<' ∉ text) (unbroken : '\n' ∉ text)
      (behind : Tidy around rest) : Tidy around (.element content inside rest)
  | block {around : List Text} {inside rest : ElementTree} (content : Text) (plain : PlainTag content)
      (unslashed : content.getLast? ≠ some '/') (filled : inside ≠ .nil)
      (within : Tidy (tagName content :: around) inside) (behind : Tidy around rest) :
      Tidy around (.element content inside rest)

end ElementTree

namespace ElementTree

theorem no_text_first (whole before after : List Event) (tree : ElementTree) (regular : Regular whole)
    (split : whole = before ++ (tree.events ++ after)) (last : before.getLast?.any Event.isStart = false)
    (content : Text) : tree.events.head? ≠ some (.text content) := by
  intro first
  obtain ⟨more, same⟩ := List.head?_eq_some_iff.mp first
  rw [same] at split
  have fits := regular before (.text content) (more ++ after) split
  rw [fits.2.1] at last
  cases last

/-- An element of a regular document has nothing in it, or one text, or it does not begin with text. -/
theorem inside_cases (whole before after : List Event) (content name : Text) (inside : ElementTree)
    (regular : Regular whole)
    (split : whole = before ++ .startTag content :: (inside.events ++ .endTag name :: after)) :
    inside.inline? = some [] ∨
      (∃ text, inside.inline? = some text ∧ .text text ∈ whole ∧ '\n' ∉ text) ∨
        (inside ≠ .nil ∧ ∀ text, inside.events.head? ≠ some (.text text)) := by
  cases inside with
  | nil => exact .inl rfl
  | element => exact .inr (.inr ⟨by simp, by simp [events]⟩)
  | leaf event single rest =>
    cases event with
    | startTag | endTag => cases single
    | comment | cdata | instruction | doctype | emptyTag => exact .inr (.inr ⟨by simp, by simp [events]⟩)
    | text text =>
      have fits := regular (before ++ [.startTag content]) (.text text) (rest.events ++ .endTag name :: after)
        (by rw [split]; simp [events])
      cases rest with
      | nil => exact .inr (.inl ⟨text, rfl, by rw [split]; simp [events], fits.1⟩)
      | leaf other alone =>
        have ends : other.isEnd = true := fits.2.2
        rw [Event.isTag, ends, Bool.or_true] at alone
        cases alone
      | element => cases fits.2.2

/-- The tree of a regular document is tidy, and so is every tree inside it. -/
theorem tidy_of_regular (whole before after : List Event) (tree : ElementTree) (around : List Text)
    (regular : Regular whole) (readable : ∀ event ∈ whole, Readable event)
    (split : whole = before ++ (tree.events ++ after)) (known : openElements [] before = .ok around)
    (first : ∀ content, tree.events.head? ≠ some (.text content)) : tree.Tidy around := by
  induction tree generalizing before after around with
  | nil => exact .nil around
  | leaf event single rest restHypothesis =>
    have onward : whole = (before ++ [event]) ++ (rest.events ++ after) := by
      rw [split]
      simp [events]
    have fits := regular before event (rest.events ++ after) split
    have started : event.isStart = false := (Bool.or_eq_false_iff.mp single).1
    have behind : rest.Tidy around := by
      apply restHypothesis (before ++ [event]) after around onward
      · rw [openElements_append _ _ _ _ known]
        exact openElements_events (leaf event single nil) around []
      · exact no_text_first whole _ after rest regular onward (by simp [started])
    cases event with
    | startTag | endTag => cases single
    | cdata => exact fits.elim
    | text content => exact absurd rfl (first content)
    | comment | instruction | doctype =>
      refine .mark _ single fits ?_ behind
      rintro content ⟨⟩
    | emptyTag content =>
      refine .mark _ single fits.1 ?_ behind
      rintro _ ⟨⟩ filled
      have apart := fits.2 filled
      rw [openNames, known] at apart
      exact apart
  | element content inside rest insideHypothesis restHypothesis =>
    have onward : whole = before ++ .startTag content ::
        (inside.events ++ .endTag (tagName content) :: (rest.events ++ after)) := by
      rw [split]
      simp [events]
    have beyond : whole = ((before ++ .startTag content :: inside.events) ++ [.endTag (tagName content)]) ++
        (rest.events ++ after) := by
      rw [onward]
      simp
    have plain : PlainTag content := regular before _ _ onward
    have behind : rest.Tidy around := by
      apply restHypothesis _ after around beyond
      · rw [List.append_assoc, openElements_append _ _ _ _ known, List.cons_append, openElements,
          openElements_events]
        rfl
      · exact no_text_first whole _ after rest regular beyond (by rw [List.getLast?_concat]; rfl)
    rcases inside_cases whole before _ content _ inside regular onward with
      sole | ⟨text, sole, member, unbroken⟩ | ⟨filled, textless⟩
    · exact .line content [] plain sole (by simp) (by simp) behind
    · have trimmed := (readable _ member).trimmed text rfl
      exact .line content text plain sole trimmed.unmarked unbroken behind
    · have unslashed := (readable (.startTag content) (by rw [onward]; simp)).unslashed content rfl
      refine .block content plain unslashed filled ?_ behind
      apply insideHypothesis (before ++ [.startTag content]) (.endTag (tagName content) :: (rest.events ++ after))
      · rw [onward]
        simp
      · rw [openElements_append _ _ _ _ known]
        rfl
      · exact textless

end ElementTree

end MarkupOutline.Markup
