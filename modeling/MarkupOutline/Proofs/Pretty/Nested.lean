import MarkupOutline.Proofs.Markup.ElementTree
import MarkupOutline.Proofs.Pretty.RoundTrip

/-! The layout of a document follows its element tree. The writer keeps no tree, only how far it is indented
and whether a break is due, and yet it writes what a recursion over the tree prints. -/
namespace MarkupOutline.Pretty

open Markup

/-- What stands between two events: a line feed and the indentation of a level, or nothing. -/
def Style.gap (style : Style) (joined : Bool) (level : Nat) : Text :=
  if joined then [] else '\n' :: List.replicate (style.indentWidth * level) style.indentLetter

/-- Whether an event stays in the line that ends with the event before it. The first event does, character
data does together with all that follows it, and so does an end tag right behind a start tag. -/
def joins (previous : Option Event) (event : Event) : Bool :=
  previous.all Event.isInline || event.isInline || (previous.any Event.isStart && event.isEnd)

/-- Events written one after the other, each with the number of elements around it. -/
def Style.spaced (style : Style) (previous : Option Event) : List (Nat × Event) → Text
  | [] => []
  | (level, event) :: rest =>
    style.gap (joins previous event) level ++ event.written ++ style.spaced (some event) rest

end MarkupOutline.Pretty

namespace MarkupOutline.Markup.ElementTree

open Pretty

/-- The events of a tree, each with the number of elements around it. Neither tag of an element is inside
that element. -/
def levels (level : Nat) : ElementTree → List (Nat × Event)
  | nil => []
  | leaf event _ rest => (level, event) :: rest.levels level
  | element content inside rest =>
    (level, .startTag content) ::
      (inside.levels (level + 1) ++ (level, .endTag (tagName content)) :: rest.levels level)

def isNil : ElementTree → Bool
  | nil => true
  | _ => false

/-- The last event of a tree, or the one before the tree if it has none. -/
def lastEvent (previous : Option Event) : ElementTree → Option Event
  | nil => previous
  | leaf event _ rest => rest.lastEvent (some event)
  | element content _ rest => rest.lastEvent (some (.endTag (tagName content)))

/-- Whether markup behind a tree stays in the line, if it did so with no tree before it or not. -/
def endsJoined (joined : Bool) : ElementTree → Bool
  | nil => joined
  | leaf event _ rest => rest.endsJoined event.isInline
  | element _ _ rest => rest.endsJoined false

/-- A tree printed at a level, its first item behind a break or not. -/
def printed (style : Style) (level : Nat) (joined : Bool) : ElementTree → Text
  | nil => []
  | leaf event _ rest =>
    style.gap (joined || event.isInline) level ++ event.written ++ rest.printed style level event.isInline
  | element content inside rest =>
    style.gap joined level ++ (Event.startTag content).written ++ inside.printed style (level + 1) false ++
      style.gap (inside.endsJoined true) level ++ (Event.endTag (tagName content)).written ++
        rest.printed style level false

theorem levels_events (tree : ElementTree) (level : Nat) : (tree.levels level).map Prod.snd = tree.events := by
  induction tree generalizing level with
  | nil => rfl
  | leaf event single rest restHypothesis => simp [levels, events, restHypothesis]
  | element content inside rest insideHypothesis restHypothesis =>
    simp [levels, events, insideHypothesis, restHypothesis]

theorem endsJoined_true (tree : ElementTree) : tree.endsJoined true = (tree.endsJoined false || tree.isNil) := by
  cases tree with
  | nil => rfl
  | leaf | element => exact (Bool.or_false _).symm

private theorem lastEvent_inline (tree : ElementTree) (previous : Option Event) :
    (tree.lastEvent previous).all Event.isInline = tree.endsJoined (previous.all Event.isInline) := by
  induction tree generalizing previous with
  | nil => rfl
  | leaf event single rest restHypothesis => exact restHypothesis (some event)
  | element content inside rest _ restHypothesis => exact restHypothesis (some (.endTag (tagName content)))

private theorem lastEvent_start (tree : ElementTree) (previous : Option Event) :
    (tree.lastEvent previous).any Event.isStart = (tree.isNil && previous.any Event.isStart) := by
  induction tree generalizing previous with
  | nil => rfl
  | leaf event single rest restHypothesis =>
    have other : event.isStart = false := (Bool.or_eq_false_iff.mp single).1
    simp [lastEvent, isNil, restHypothesis, other]
  | element content inside rest _ restHypothesis =>
    simp [lastEvent, isNil, restHypothesis, Event.isStart]

/-- Each event of a tree is written behind the gap that its neighbour and its level call for. -/
theorem spaced_levels (style : Style) (tree : ElementTree) (level : Nat) (previous : Option Event)
    (more : List (Nat × Event)) : style.spaced previous (tree.levels level ++ more) =
      tree.printed style level (previous.all Event.isInline) ++ style.spaced (tree.lastEvent previous) more := by
  induction tree generalizing level previous more with
  | nil => rfl
  | leaf event single rest restHypothesis =>
    have other : event.isEnd = false := (Bool.or_eq_false_iff.mp single).2
    simp [levels, Style.spaced, printed, lastEvent, restHypothesis, joins, other]
  | element content inside rest insideHypothesis restHypothesis =>
    have opens : joins previous (.startTag content) = previous.all Event.isInline := by
      simp [joins, Event.isInline, Event.isEnd]
    have closes : joins (inside.lastEvent (some (.startTag content))) (.endTag (tagName content)) =
        inside.endsJoined true := by
      rw [endsJoined_true, joins, lastEvent_inline, lastEvent_start]
      simp [Event.isInline, Event.isStart, Event.isEnd]
    simp [levels, Style.spaced, printed, lastEvent, insideHypothesis, restHypothesis, opens, closes,
      Event.isInline]

end MarkupOutline.Markup.ElementTree

namespace MarkupOutline.Pretty

open Markup

namespace Cursor

def through (style : Style) (cursor : Cursor) (events : List Event) : Cursor :=
  events.foldl (fun cursor event => (cursor.before style event).after style event) cursor

theorem layoutFrom_append (style : Style) (cursor : Cursor) (front back : List Event) :
    layoutFrom style cursor (front ++ back) =
      layoutFrom style cursor front ++ layoutFrom style (cursor.through style front) back := by
  induction front generalizing cursor with
  | nil => rfl
  | cons event rest inductionHypothesis =>
    simp only [List.cons_append, layoutFrom, inductionHypothesis, through, List.foldl_cons, List.append_assoc]

/-- Among events that close only what is open, the writer is indented by the elements that are open. -/
theorem indent_through (style : Style) (cursor : Cursor) (names inside : List Text) (events : List Event)
    (known : openElements names events = .ok inside)
    (indented : cursor.indent = style.indentWidth * names.length) :
    (cursor.through style events).indent = style.indentWidth * inside.length := by
  induction events generalizing cursor names with
  | nil =>
    cases known
    exact indented
  | cons event rest inductionHypothesis =>
    cases event with
    | startTag content =>
      apply inductionHypothesis _ (tagName content :: names) known
      rw [List.length_cons, Nat.mul_succ, ← indented]
      rfl
    | endTag name =>
      cases names with
      | nil => cases known
      | cons innermost outer =>
        apply inductionHypothesis _ outer known
        rw [List.length_cons, Nat.mul_succ] at indented
        exact Nat.sub_eq_of_eq_add indented
    | text | comment | cdata | instruction | doctype | emptyTag => exact inductionHypothesis _ names known indented

end Cursor

theorem openElements_front (names inside : List Text) (front back : List Event)
    (known : openElements names (front ++ back) = .ok inside) :
    ∃ between, openElements names front = .ok between ∧ openElements between back = .ok inside := by
  induction front generalizing names with
  | nil => exact ⟨names, rfl, known⟩
  | cons event rest inductionHypothesis =>
    cases event with
    | startTag content => exact inductionHypothesis (tagName content :: names) known
    | endTag name =>
      cases names with
      | nil => cases known
      | cons innermost outer => exact inductionHypothesis outer known
    | text | comment | cdata | instruction | doctype | emptyTag => exact inductionHypothesis names known

/-- What a writer makes of the events of a tree is the tree printed. -/
theorem WriterLaws.tree {style : Style} {lead : Cursor → Event → Text} {advance : Cursor → Event → Cursor}
    (laws : WriterLaws style lead advance) (tree : ElementTree) (level : Nat) (pending afterStart : Bool)
    (more : List Event) :
    writtenFrom lead advance ⟨style.indentWidth * level, pending, afterStart⟩ (tree.events ++ more) =
      tree.printed style level (!pending) ++ writtenFrom lead advance
        ⟨style.indentWidth * level, !tree.endsJoined (!pending), afterStart && tree.isNil⟩ more := by
  induction tree generalizing level pending afterStart more with
  | nil => simp [ElementTree.events, ElementTree.printed, ElementTree.endsJoined, ElementTree.isNil]
  | leaf event single rest restHypothesis =>
    -- Whether the event is inline or not, the next one is written as behind it alone.
    have written : writtenFrom lead advance ⟨style.indentWidth * level, pending, afterStart⟩
        (event :: (rest.events ++ more)) =
          style.gap (!pending || event.isInline) level ++ event.written ++ writtenFrom lead advance
            ⟨style.indentWidth * level, !event.isInline, false⟩ (rest.events ++ more) := by
      cases kind : event.isInline with
      | true =>
        obtain ⟨joined, onward⟩ := laws.inline ⟨style.indentWidth * level, pending, afterStart⟩ event kind
        rw [writtenFrom, joined, onward, Bool.or_true]
        rfl
      | false =>
        obtain ⟨starts, onward⟩ := laws.single ⟨style.indentWidth * level, pending, afterStart⟩ event single kind
        rw [writtenFrom, starts, onward, Bool.or_false]
        rfl
    rw [ElementTree.events, List.cons_append, written, restHypothesis]
    simp only [ElementTree.printed, ElementTree.endsJoined, ElementTree.isNil, Bool.not_not, Bool.false_and,
      Bool.and_false, List.append_assoc]
  | element content inside rest insideHypothesis restHypothesis =>
    obtain ⟨starts, within⟩ := laws.opens ⟨style.indentWidth * level, pending, afterStart⟩ content
    -- Behind the end tag the writer is back at the level of the start tag.
    have closed (pending afterStart : Bool) : writtenFrom lead advance
        ⟨style.indentWidth * (level + 1), pending, afterStart⟩ (.endTag (tagName content) :: (rest.events ++ more)) =
          style.gap (!pending || afterStart) level ++ (Event.endTag (tagName content)).written ++
            writtenFrom lead advance ⟨style.indentWidth * level, true, false⟩ (rest.events ++ more) := by
      obtain ⟨ends, behind⟩ := laws.closes ⟨style.indentWidth * (level + 1), pending, afterStart⟩ (tagName content)
      have back : style.indentWidth * (level + 1) - style.indentWidth = style.indentWidth * level :=
        Nat.add_sub_cancel _ _
      rw [writtenFrom, ends, behind, back]
      rfl
    have deeper : style.indentWidth * level + style.indentWidth = style.indentWidth * (level + 1) := rfl
    rw [ElementTree.events, List.cons_append, List.append_assoc, List.cons_append, writtenFrom, starts, within, deeper,
      insideHypothesis, closed, restHypothesis]
    simp only [ElementTree.printed, ElementTree.endsJoined, ElementTree.isNil, ElementTree.endsJoined_true inside,
      Bool.not_not, Bool.not_true, Bool.true_and, Bool.false_and, Bool.and_false, List.append_assoc]
    rfl

/-- What is written of a document with an ASCII byte for the indentation is its element tree printed: each
event behind a gap that is told by the event before it and by the elements around it. The writer comes to
every event indented by the elements that are open, so an end tag always has an indentation to take back. -/
theorem format_nested (style : Style) (raw out : Text) (ascii : style.indentByte.toNat < 128)
    (plain : style.lineBreak = ['\n']) (formatted : style.format raw = .ok out) :
    ∃ tree : ElementTree, read raw = .ok tree.events ∧ out = tree.printed style 0 true ∧
      (tree.levels 0).map Prod.snd = tree.events ∧ out = style.spaced none (tree.levels 0) ∧
        ∀ front event back, tree.events = front ++ event :: back →
          ∃ names cursor, openElements [] front = .ok names ∧
            layout style tree.events = layoutFrom style {} front ++ layoutFrom style cursor (event :: back) ∧
              cursor.indent = style.indentWidth * names.length ∧
                (event.isEnd = true → style.indentWidth ≤ cursor.indent) := by
  obtain ⟨events, known, complete, written⟩ := style.format_cases raw out formatted
  have closed := openElements_of_checkDocument events complete
  obtain ⟨tree, rfl⟩ := ElementTree.exists_events readerLaws events (transcript_of_read raw events known) closed
  have spelled : out = tree.printed style 0 true := by
    rw [style.write_ascii ascii, style.separate_lineFeed plain] at written
    have printed := (writerLaws style).tree tree 0 false false []
    rw [List.append_nil, writtenFrom, List.append_nil] at printed
    exact (Except.ok.inj written).symm.trans ((spell_layoutFrom style {} tree.events).trans printed)
  refine ⟨tree, known, spelled, tree.levels_events 0, ?_, ?_⟩
  · have gaps := tree.spaced_levels style 0 none []
    rw [List.append_nil] at gaps
    exact spelled.trans ((List.append_nil _).symm.trans gaps.symm)
  · intro front event back split
    rw [split] at closed ⊢
    obtain ⟨names, open_, ending⟩ := openElements_front [] [] front (event :: back) closed
    have indent := Cursor.indent_through style {} [] names front open_ rfl
    refine ⟨names, Cursor.through style {} front, open_, Cursor.layoutFrom_append style {} front _, indent, ?_⟩
    intro isEnd
    cases event with
    | endTag name =>
      cases names with
      | nil => cases ending
      | cons innermost outer =>
        rw [indent]
        exact Nat.le_mul_of_pos_right _ (Nat.succ_pos _)
    | startTag | text | comment | cdata | instruction | doctype | emptyTag => cases isEnd

/-- Text beside elements, an empty element and one with two levels inside, three dots for each level. -/
theorem format_nested_mixed :
    let style : Style := { indentByte := 46, indentWidth := 3 }
    let raw := "<!--n--><a> x <b></b><c><d>y</d><e/></c><![CDATA[z]]></a>".toList
    let out := "<!--n-->\n<a>x<b></b>\n...<c>\n......<d>y</d>\n......<e/>\n...</c><![CDATA[z]]></a>".toList
    style.indentByte.toNat < 128 ∧ style.lineBreak = ['\n'] ∧ style.format raw = .ok out ∧
      ∃ tree : ElementTree, read raw = .ok tree.events ∧ out = tree.printed style 0 true ∧
        out = style.spaced none (tree.levels 0) := by
  intro style raw out
  have formatted : style.format raw = .ok out := by decide +kernel
  obtain ⟨tree, known, printed, _, spaced, _⟩ := format_nested style raw out (by decide) rfl formatted
  exact ⟨by decide, rfl, formatted, tree, known, printed, spaced⟩

end MarkupOutline.Pretty
