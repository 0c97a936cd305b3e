import MarkupOutline.Proofs.Markup.ElementTree
import MarkupOutline.Proofs.Pretty.RoundTrip

/-! The lines of a formatted document, told from its element tree. An element with nothing or only text
in it has a line of its own, and any other has its two tags in lines of their own. -/
namespace MarkupOutline.Markup

open Pretty

/-- The indentation of the lines at a level. -/
def margin (level : Nat) : Text := List.replicate (2 * level) ' '

namespace ElementTree

def lines (level : Nat) : ElementTree → List Text
  | nil => []
  | leaf event _ rest => (margin level ++ event.written) :: rest.lines level
  | element content inside rest =>
    match inside.inline? with
    | some text =>
      (margin level ++ (Event.startTag content).written ++ text ++
        (Event.endTag (tagName content)).written) :: rest.lines level
    | none =>
      (margin level ++ (Event.startTag content).written) ::
        (inside.lines (level + 1) ++
          (margin level ++ (Event.endTag (tagName content)).written) :: rest.lines level)

theorem lines_line (level : Nat) (content text : Text) (inside rest : ElementTree)
    (sole : inside.inline? = some text) : (element content inside rest).lines level =
      (margin level ++ (Event.startTag content).written ++ text ++
        (Event.endTag (tagName content)).written) :: rest.lines level := by
  rw [lines, sole]

theorem lines_block (level : Nat) (content : Text) (inside rest : ElementTree)
    (several : inside.inline? = none) : (element content inside rest).lines level =
      (margin level ++ (Event.startTag content).written) ::
        (inside.lines (level + 1) ++
          (margin level ++ (Event.endTag (tagName content)).written) :: rest.lines level) := by
  rw [lines, several]

/-- A tidy tree that is not empty is more than text. -/
theorem Tidy.several {around : List Text} {tree : ElementTree} (tidy : tree.Tidy around)
    (filled : tree ≠ .nil) : tree.inline? = none := by
  cases tidy with
  | nil => exact absurd rfl filled
  | mark event single plain apart behind =>
    cases event with
    | text => exact plain.elim
    | startTag | endTag | comment | cdata | instruction | doctype | emptyTag => rfl
  | line | block => rfl

end ElementTree

end MarkupOutline.Markup

namespace MarkupOutline.Pretty

open Markup

def Cursor.settled (level : Nat) : Cursor := { indent := 2 * level, breakPending := true }

def spellFrom (cursor : Cursor) (events : List Event) : Text :=
  Style.standard.spell (layoutFrom .standard cursor events)

private theorem spellFrom_settled (indent : Nat) (afterStart : Bool) (events : List Event)
    (opens : events.head?.any Event.isEnd = false) :
    spellFrom ⟨indent, true, afterStart⟩ events = spellFrom ⟨indent, true, false⟩ events := by
  cases events with
  | nil => rfl
  | cons event rest =>
    rw [spellFrom, spellFrom, spell_cons, spell_cons]
    cases event with
    | endTag => cases opens
    | startTag | emptyTag | text | comment | cdata | instruction | doctype => rfl

theorem spell_lead (indent : Nat) (afterStart : Bool) :
    Style.standard.spell (Cursor.lead ⟨indent, true, afterStart⟩) = '\n' :: List.replicate indent ' ' := by
  simp [Cursor.lead, Style.spell, Piece.letters, Style.standard, Style.indentLetter]

theorem spell_joined (indent : Nat) (afterStart : Bool) :
    Style.standard.spell (Cursor.lead ⟨indent, false, afterStart⟩) = [] := rfl

theorem spellFrom_mark (level : Nat) (event : Event) (rest : List Event) (plain : Line.Angle.PlainMark event) :
    spellFrom (.settled level) (event :: rest) =
      '\n' :: (margin level ++ event.written) ++ spellFrom (.settled level) rest := by
  rw [spellFrom, spell_cons]
  cases event with
  | startTag | endTag | text | cdata => exact plain.elim
  | emptyTag | comment | instruction | doctype => exact congrArg (· ++ _ ++ _) (spell_lead (2 * level) false)

theorem spellFrom_startTag (level : Nat) (content : Text) (rest : List Event) :
    spellFrom (.settled level) (.startTag content :: rest) =
      '\n' :: (margin level ++ (Event.startTag content).written) ++
        spellFrom ⟨2 * (level + 1), true, true⟩ rest := by
  rw [spellFrom, spell_cons]
  exact congrArg (· ++ _ ++ _) (spell_lead (2 * level) false)

private theorem spellFrom_endTag (level : Nat) (name : Text) (rest : List Event) :
    spellFrom (.settled (level + 1)) (.endTag name :: rest) =
      '\n' :: (margin level ++ (Event.endTag name).written) ++ spellFrom (.settled level) rest := by
  rw [spellFrom, spell_cons, Cursor.before, Cursor.settled]
  have back : 2 * (level + 1) - Style.standard.indentWidth = 2 * level := Nat.add_sub_cancel _ 2
  rw [back]
  exact congrArg (· ++ _ ++ _) (spell_lead (2 * level) false)

private theorem spellFrom_inline (level : Nat) (text name : Text) (inside : ElementTree) (rest : List Event)
    (sole : inside.inline? = some text) :
    spellFrom ⟨2 * (level + 1), true, true⟩ (inside.events ++ .endTag name :: rest) =
      text ++ (Event.endTag name).written ++ spellFrom (.settled level) rest := by
  have back : 2 * (level + 1) - Style.standard.indentWidth = 2 * level := Nat.add_sub_cancel _ 2
  cases inside with
  | element => cases sole
  | nil =>
    cases sole
    rw [ElementTree.events, List.nil_append, spellFrom, spell_cons, Cursor.before]
    dsimp only
    rw [back]
    rfl
  | leaf event single behind =>
    cases event with
    | startTag | endTag | emptyTag | comment | cdata | instruction | doctype => cases sole
    | text content =>
      cases behind with
      | leaf | element => cases sole
      | nil =>
        cases sole
        have spelled : (ElementTree.leaf (.text text) single .nil).events ++ .endTag name :: rest =
            .text text :: .endTag name :: rest := rfl
        rw [spelled, spellFrom, spell_cons, spell_cons, Cursor.before, Cursor.after, Cursor.before]
        dsimp only
        rw [back]
        simp [spell_joined, Event.written, spellFrom, Cursor.after, Cursor.settled]

/-- The lines of a tree, each with the line feed before it. -/
theorem spellFrom_tidy (around : List Text) (tree : ElementTree) (tidy : tree.Tidy around) (level : Nat)
    (more : List Event) : spellFrom (.settled level) (tree.events ++ more) =
      (tree.lines level).flatMap ('\n' :: ·) ++ spellFrom (.settled level) more := by
  induction tidy generalizing level more with
  | nil => rfl
  | @mark around rest event single plain apart behind behindHypothesis =>
    have spelled : (ElementTree.leaf event single rest).events ++ more = event :: (rest.events ++ more) := rfl
    rw [spelled, spellFrom_mark level event _ plain, behindHypothesis, ElementTree.lines]
    simp
  | @line around inside rest content text plain sole unmarked unbroken behind behindHypothesis =>
    have spelled : (ElementTree.element content inside rest).events ++ more =
        .startTag content :: (inside.events ++ .endTag (tagName content) :: (rest.events ++ more)) := by
      simp [ElementTree.events]
    rw [spelled, spellFrom_startTag, spellFrom_inline level text _ inside _ sole, behindHypothesis,
      ElementTree.lines_line level content text inside rest sole]
    simp
  | @block around inside rest content plain unslashed filled within behind withinHypothesis behindHypothesis =>
    have spelled : (ElementTree.element content inside rest).events ++ more =
        .startTag content :: (inside.events ++ .endTag (tagName content) :: (rest.events ++ more)) := by
      simp [ElementTree.events]
    have opens : (inside.events ++ .endTag (tagName content) :: (rest.events ++ more)).head?.any
        Event.isEnd = false := by
      cases within with
      | nil => exact absurd rfl filled
      | mark event single => exact (Bool.or_eq_false_iff.mp single).2
      | line | block => rfl
    rw [spelled, spellFrom_startTag, spellFrom_settled _ _ _ opens]
    change _ ++ spellFrom (.settled (level + 1)) _ = _
    rw [withinHypothesis, spellFrom_endTag, behindHypothesis,
      ElementTree.lines_block level content inside rest (within.several filled)]
    simp

private theorem cons_unlines (rows : List Text) (several : rows ≠ []) :
    '\n' :: Text.unlines rows = rows.flatMap ('\n' :: ·) := by
  induction rows with
  | nil => exact absurd rfl several
  | cons row rest inductionHypothesis =>
    cases rest with
    | nil => simp [Text.unlines]
    | cons next later =>
      rw [List.flatMap_cons, ← inductionHypothesis (by simp), Text.unlines, List.intercalate_cons_cons]
      simp [Text.unlines]

private theorem spellFrom_start (around : List Text) (tree : ElementTree) (tidy : tree.Tidy around)
    (filled : tree ≠ .nil) : '\n' :: spellFrom {} tree.events = spellFrom (.settled 0) tree.events := by
  cases tidy with
  | nil => exact absurd rfl filled
  | mark event single plain apart behind =>
    rw [ElementTree.events, spellFrom_mark 0 event _ plain, spellFrom, spell_cons]
    cases event with
    | startTag | endTag | text | cdata => exact plain.elim
    | emptyTag | comment | instruction | doctype => rfl
  | line content | block content =>
    rw [ElementTree.events, spellFrom_startTag, spellFrom, spell_cons]
    rfl

private theorem unbroken_written (event : Event) (plain : Line.Angle.PlainMark event) : '\n' ∉ event.written := by
  cases event with
  | startTag | endTag | text | cdata => exact plain.elim
  | emptyTag content => simp [Event.written, plain.unbroken]
  | comment content | instruction content | doctype content => simp [Event.written, plain.2]

private theorem unbroken_margin (level : Nat) : '\n' ∉ margin level := by
  simp [margin]

private theorem unbroken_tags (content : Text) (plain : Line.Angle.PlainTag content) :
    '\n' ∉ (Event.startTag content).written ∧ '\n' ∉ (Event.endTag (tagName content)).written := by
  have inside : '\n' ∉ tagName content := fun membership =>
    plain.unbroken ((List.takeWhile_sublist _).subset membership)
  simp [Event.written, plain.unbroken, inside]

private theorem unbroken_lines (around : List Text) (tree : ElementTree) (tidy : tree.Tidy around) (level : Nat) :
    ∀ line ∈ tree.lines level, '\n' ∉ line := by
  induction tidy generalizing level with
  | nil => simp [ElementTree.lines]
  | mark event single plain apart behind behindHypothesis =>
    rw [ElementTree.lines, List.forall_mem_cons, List.mem_append, not_or]
    exact ⟨⟨unbroken_margin level, unbroken_written event plain⟩, behindHypothesis level⟩
  | @line around inside rest content text plain sole unmarked unbroken behind behindHypothesis =>
    have tags := unbroken_tags content plain
    rw [ElementTree.lines_line level content text inside rest sole, List.forall_mem_cons]
    simp only [List.mem_append, not_or]
    exact ⟨⟨⟨⟨unbroken_margin level, tags.1⟩, unbroken⟩, tags.2⟩, behindHypothesis level⟩
  | @block around inside rest content plain unslashed filled within behind withinHypothesis behindHypothesis =>
    have tags := unbroken_tags content plain
    rw [ElementTree.lines_block level content inside rest (within.several filled), List.forall_mem_cons,
      List.forall_mem_append, List.forall_mem_cons, List.mem_append, List.mem_append, not_or, not_or]
    exact ⟨⟨unbroken_margin level, tags.1⟩, withinHypothesis (level + 1),
      ⟨unbroken_margin level, tags.2⟩, behindHypothesis level⟩

/-- The lines of a formatted document are those of its tree. -/
theorem lines_spellFrom (around : List Text) (tree : ElementTree) (tidy : tree.Tidy around)
    (filled : tree ≠ .nil) : Text.lines (spellFrom {} tree.events) = tree.lines 0 := by
  have several : tree.lines 0 ≠ [] := by
    cases tidy with
    | nil => exact absurd rfl filled
    | mark => simp [ElementTree.lines]
    | line content text plain sole => simp [ElementTree.lines, sole]
    | block content plain unslashed inner within => simp [ElementTree.lines, within.several inner]
  have spelled : '\n' :: spellFrom {} tree.events = (tree.lines 0).flatMap ('\n' :: ·) := by
    have settled := spellFrom_tidy around tree tidy 0 []
    rw [List.append_nil] at settled
    rw [spellFrom_start around tree tidy filled, settled]
    exact List.append_nil _
  rw [← cons_unlines _ several, List.cons.injEq] at spelled
  rw [spelled.2, Text.lines_unlines _ (unbroken_lines around tree tidy 0) several]

end MarkupOutline.Pretty
