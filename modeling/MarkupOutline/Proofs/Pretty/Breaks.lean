import MarkupOutline.Proofs.Text.Utf8
import MarkupOutline.Proofs.Pretty.Nested

/-! Which bytes a layout can be read back from. A style whose indentation byte is no character of its own writes a
text as long as no break falls inside an element: the copies of the byte stand between a line feed and the start of a
tag, where no character has them. -/
namespace MarkupOutline.Markup.ElementTree

open Pretty

/-- The level of an event in a tree counts the elements that are open around it. -/
theorem openElements_levels (tree : ElementTree) (names : List Text) (front back : List (Nat × Event)) (level : Nat)
    (event : Event) (split : tree.levels names.length = front ++ (level, event) :: back) :
    ∃ inside, openElements names (front.map Prod.snd) = .ok inside ∧
      inside.length = if event.isEnd then level + 1 else level := by
  induction tree generalizing names front back with
  | nil => simp [levels] at split
  | leaf first single rest restHypothesis =>
    rw [levels] at split
    rcases List.cons_eq_append_iff.mp split with ⟨rfl, same⟩ | ⟨later, rfl, onward⟩
    · cases same
      have other : event.isEnd = false := (Bool.or_eq_false_iff.mp single).2
      exact ⟨names, rfl, by rw [other]; rfl⟩
    · obtain ⟨inside, known, depth⟩ := restHypothesis names later back onward
      refine ⟨inside, ?_, depth⟩
      rw [← known]
      exact openElements_events (leaf first single nil) names _
  | element content inner rest innerHypothesis restHypothesis =>
    rw [levels] at split
    rcases List.cons_eq_append_iff.mp split with ⟨rfl, same⟩ | ⟨later, rfl, onward⟩
    · cases same
      exact ⟨names, rfl, rfl⟩
    · have through : openElements names (.startTag content :: inner.events) = .ok (tagName content :: names) := by
        have whole := inner.openElements_events (tagName content :: names) []
        rwa [List.append_nil] at whole
      rw [List.map_cons]
      rcases List.append_eq_append_iff.mp onward with ⟨more, rfl, behind⟩ | ⟨more, within, behind⟩
      · rw [List.map_append, levels_events, ← List.cons_append, openElements_append _ _ _ _ through]
        rcases List.cons_eq_append_iff.mp behind with ⟨rfl, same⟩ | ⟨others, rfl, following⟩
        · cases same
          exact ⟨_, rfl, rfl⟩
        · exact restHypothesis names others back following
      · rcases List.cons_eq_append_iff.mp behind with ⟨rfl, same⟩ | ⟨others, rfl, _⟩
        · cases same
          rw [List.append_nil] at within
          rw [← within, levels_events]
          exact ⟨_, through, rfl⟩
        · exact innerHypothesis (tagName content :: names) later others within

end MarkupOutline.Markup.ElementTree

namespace MarkupOutline.Pretty

open Markup

namespace Cursor

variable (style : Style)

private theorem through_pending (front : List Event) :
    (through style {} front).breakPending = !front.getLast?.all Event.isInline ∧
      (through style {} front).afterStart = front.getLast?.any Event.isStart := by
  rcases List.eq_nil_or_concat front with rfl | ⟨init, last, rfl⟩
  · exact ⟨rfl, rfl⟩
  · rw [List.concat_eq_append, through, List.foldl_append, List.getLast?_concat]
    cases last <;> exact ⟨rfl, rfl⟩

private theorem before_pending (front : List Event) (event : Event) :
    ((through style {} front).before style event).breakPending = !joins front.getLast? event := by
  obtain ⟨pending, started⟩ := through_pending style front
  cases event <;> simp [before, joins, pending, started, Event.isInline, Event.isEnd]

private theorem exists_lead_of_mem (cursor : Cursor) (events : List Event) (count : Nat)
    (written : Piece.indent count ∈ layoutFrom style cursor events) : ∃ front event back,
      events = front ++ event :: back ∧
        Piece.indent count ∈ ((cursor.through style front).before style event).lead := by
  induction events generalizing cursor with
  | nil => cases written
  | cons first rest restHypothesis =>
    simp only [layoutFrom, List.mem_append, List.mem_cons, reduceCtorEq, false_or] at written
    rcases written with here | later
    · exact ⟨[], first, rest, rfl, here⟩
    · obtain ⟨front, event, back, rfl, found⟩ := restHypothesis _ later
      exact ⟨first :: front, event, back, rfl, found⟩

/-- Among the events of a tree, the writer comes to each one indented by its level. -/
theorem indent_before (tree : ElementTree) (front back : List (Nat × Event)) (level : Nat) (event : Event)
    (split : tree.levels 0 = front ++ (level, event) :: back) :
    ((through style {} (front.map Prod.snd)).before style event).indent = style.indentWidth * level := by
  obtain ⟨inside, known, depth⟩ := tree.openElements_levels [] front back level event split
  have indent := indent_through style {} [] inside _ known rfl
  cases event with
  | endTag name =>
    have deeper : inside.length = level + 1 := depth
    rw [deeper, Nat.mul_succ] at indent
    exact Nat.sub_eq_of_eq_add indent
  | startTag | emptyTag | text | comment | cdata | instruction | doctype =>
    have same : inside.length = level := depth
    rw [same] at indent
    exact indent

/-- What is written before an event of a tree: a break with the indentation of its level, unless it joins. -/
theorem lead_levels (tree : ElementTree) (front back : List (Nat × Event)) (level : Nat) (event : Event)
    (split : tree.levels 0 = front ++ (level, event) :: back) :
    ((through style {} (front.map Prod.snd)).before style event).lead =
      if joins (front.getLast?.map Prod.snd) event then []
      else [.chars ['\n'], .indent (style.indentWidth * level)] := by
  rw [lead, before_pending, indent_before style tree front back level event split, List.getLast?_map]
  cases joins (front.getLast?.map Prod.snd) event <;> rfl

end Cursor

/-- Some break is written inside at least one element. -/
def BreaksInside (tree : ElementTree) : Prop :=
  ∃ front level event back, tree.levels 0 = front ++ (level, event) :: back ∧ 0 < level ∧
    joins (front.getLast?.map Prod.snd) event = false

/-- Some indentation is written that is no piece of a text. -/
structure Style.Garbles (style : Style) (tree : ElementTree) : Prop where
  high : 128 ≤ style.indentByte.toNat
  wide : 0 < style.indentWidth
  inside : BreaksInside tree

private theorem indent_mem_layout (style : Style) (tree : ElementTree) (count : Nat) (positive : 0 < count)
    (written : Piece.indent count ∈ layout style tree.events) : 0 < style.indentWidth ∧ BreaksInside tree := by
  obtain ⟨front, event, back, split, here⟩ := Cursor.exists_lead_of_mem style {} _ count written
  rw [← tree.levels_events 0] at split
  obtain ⟨before, behind, levels, rfl, following⟩ := List.map_eq_append_iff.mp split
  obtain ⟨⟨level, found⟩, others, rfl, rfl, rfl⟩ := List.map_eq_cons_iff.mp following
  rw [Cursor.lead_levels style tree before others level found levels] at here
  split at here
  · cases here
  · next apart =>
    have same : count = style.indentWidth * level := by simpa using here
    rw [same] at positive
    exact ⟨Nat.pos_of_mul_pos_right positive, before, level, found, others, levels, Nat.pos_of_mul_pos_left positive,
      Bool.not_eq_true _ ▸ apart⟩

/-- A line feed with copies of a byte behind it that is no character, up to the start of a tag, is no text. -/
theorem decode?_garbled (front back : List UInt8) (byte : UInt8) (high : 128 ≤ byte.toNat) (count : Nat)
    (positive : 0 < count) : decode? (front ++ 10 :: (List.replicate count byte ++ 60 :: back)) = none := by
  cases read : decode? (front ++ 10 :: (List.replicate count byte ++ 60 :: back)) with
  | none => rfl
  | some text =>
    obtain ⟨more, rfl⟩ := Nat.exists_eq_succ_of_ne_zero (Nat.ne_of_gt positive)
    have chain := Text.isChain_encode text
    rw [encode_of_decode? _ text read, List.replicate_succ, List.cons_append] at chain
    obtain ⟨_, ⟨single, _⟩, behind⟩ := List.isChain_append_cons_cons.mp chain
    -- The byte does not go on with the line feed, so it begins a character; but nothing goes on with it.
    have begins : 192 ≤ byte.toNat := by
      have apart := single (by decide)
      rw [Text.Continues] at apart
      omega
    cases more with
    | zero =>
      have next := (List.isChain_cons_cons.mp behind).1.2 begins
      exact absurd next.1 (by decide)
    | succ more =>
      have next := (List.isChain_cons_cons.mp behind).1.2 begins
      exact absurd next.2 (Nat.not_lt.mpr begins)

private theorem decode?_break (style : Style) (front back : List Piece) (rest : Text) (count : Nat)
    (high : 128 ≤ style.indentByte.toNat) (positive : 0 < count) :
    decode? ((front ++ .chars ['\n'] :: .indent count :: .chars ('<' :: rest) :: back).flatMap (Piece.bytes style)) =
      none := by
  have garbled := decode?_garbled (front.flatMap (Piece.bytes style))
    (rest.flatMap String.utf8EncodeChar ++ back.flatMap (Piece.bytes style)) style.indentByte high count positive
  rw [List.flatMap_append]
  exact garbled

private theorem decode?_flat (style : Style) (pieces : List Piece)
    (flat : ∀ count, .indent count ∈ pieces → count = 0) :
    ∃ text, decode? (pieces.flatMap (Piece.bytes style)) = some text := by
  have same : pieces.flatMap (Piece.bytes style) = (style.spell pieces).flatMap String.utf8EncodeChar := by
    rw [Style.spell, List.flatMap_assoc]
    apply List.flatMap_congr
    intro piece member
    cases piece with
    | chars text => rfl
    | indent count =>
      rw [flat count member]
      rfl
  exact ⟨_, by rw [same, decode?_encode]⟩

private theorem written_mark (event : Event) (markup : event.isInline = false) :
    ∃ rest, event.written = '<' :: rest := by
  cases event with
  | text | cdata => cases markup
  | startTag | endTag | emptyTag | comment | instruction | doctype => exact ⟨_, rfl⟩

namespace Style

variable {style : Style} {tree : ElementTree}

theorem write_garbled (garbles : style.Garbles tree) : style.write tree.events = .error .invalidUtf8 := by
  obtain ⟨high, wide, front, level, event, back, levels, deep, apart⟩ := garbles
  have lead := Cursor.lead_levels style tree front back level event levels
  rw [if_neg (by rw [apart]; exact Bool.false_ne_true)] at lead
  have markup : event.isInline = false := by
    rw [joins, Bool.or_eq_false_iff, Bool.or_eq_false_iff] at apart
    exact apart.1.2
  obtain ⟨rest, mark⟩ := written_mark event markup
  have split : tree.events = front.map Prod.snd ++ event :: back.map Prod.snd := by
    rw [← tree.levels_events 0, levels, List.map_append, List.map_cons]
  rw [write, layout, split, Cursor.layoutFrom_append, layoutFrom, lead, mark]
  dsimp only [List.cons_append, List.nil_append]
  rw [decode?_break style _ _ rest _ high (Nat.mul_pos wide deep)]

theorem write_plain (plain : ¬ style.Garbles tree) : ∃ out, style.write tree.events = .ok out := by
  by_cases ascii : style.indentByte.toNat < 128
  · exact ⟨_, style.write_ascii ascii tree.events⟩
  · have flat : ∀ count, .indent count ∈ layout style tree.events → count = 0 := by
      intro count written
      by_contra positive
      obtain ⟨wide, inside⟩ := indent_mem_layout style tree count (Nat.pos_of_ne_zero positive) written
      exact plain ⟨Nat.not_lt.mp ascii, wide, inside⟩
    obtain ⟨text, read⟩ := decode?_flat style _ flat
    exact ⟨_, by rw [write, read]⟩

end Style

end MarkupOutline.Pretty
