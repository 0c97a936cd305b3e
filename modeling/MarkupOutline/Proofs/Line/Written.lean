import Mathlib.Data.List.Infix
import MarkupOutline.Markup.Event
import MarkupOutline.Proofs.Block.Plain
import MarkupOutline.Proofs.Line.Opening

/-! What the rules for tags say about a line on which markup was written. Where names are plain and
nothing else is mistaken for a tag, they find the tags that the markup has. -/
namespace MarkupOutline.Line.Angle

open Text Markup

/-- The content of a start tag or an empty one in which a search finds the name that a reader finds. -/
structure PlainTag (content : Text) : Prop where
  unmarked : '<' ∉ content
  unclosed : '>' ∉ content
  unbroken : '\n' ∉ content
  named : tagName content ≠ []
  letters : ∀ letter ∈ tagName content, isWhite letter = false ∧ letter ∉ ['/', '!', '?']

theorem plainTag_iff (content : Text) : PlainTag content ↔
    '<' ∉ content ∧ '>' ∉ content ∧ '\n' ∉ content ∧ tagName content ≠ [] ∧
      (tagName content).all (fun letter => !isWhite letter && letter ∉ ['/', '!', '?']) = true := by
  constructor
  · intro plain
    refine ⟨plain.unmarked, plain.unclosed, plain.unbroken, plain.named, List.all_eq_true.mpr ?_⟩
    intro letter membership
    simp only [plain.letters letter membership, Bool.not_false, Bool.true_and, decide_not, decide_false]
  · intro ⟨unmarked, unclosed, unbroken, named, letters⟩
    refine ⟨unmarked, unclosed, unbroken, named, ?_⟩
    intro letter membership
    have chosen := List.all_eq_true.mp letters letter membership
    rw [Bool.and_eq_true, Bool.not_eq_true', decide_eq_true_eq] at chosen
    exact chosen

instance (content : Text) : Decidable (PlainTag content) := decidable_of_iff _ (plainTag_iff content).symm

theorem tagAt?_name (name rest : Text) (stop : Char)
    (solid : ∀ letter ∈ name, letter ≠ '>' ∧ isWhite letter = false) (named : name ≠ [])
    (unslashed : name.head? ≠ some '/') (ends : stop = '>' ∨ isWhite stop = true) :
    tagAt? (name ++ stop :: rest) = some (.opening name) := by
  have taken : ∀ letter ∈ name, (letter ≠ '>' && !isWhite letter) = true := by
    intro letter membership
    simp [solid letter membership]
  have stopped : (stop ≠ '>' && !isWhite stop) = false := by
    rcases ends with rfl | white
    · decide
    · simp [white]
  have filled : name.isEmpty = false := by simpa using named
  unfold tagAt?
  split
  · next body slashed =>
    cases name with
    | nil => exact absurd rfl named
    | cons first others =>
      rw [List.cons_append, List.cons.injEq] at slashed
      exact absurd (congrArg some slashed.1) unslashed
  · simp only [takeWhile_stop _ _ _ _ taken stopped, dropWhile_stop _ _ _ _ taken stopped, filled]
    rfl

private theorem isWhite_of_isSpace (letter : Char) (space : isSpace letter = true) : isWhite letter = true := by
  simp only [isSpace, Bool.or_eq_true, beq_iff_eq] at space
  rcases space with ((rfl | rfl) | rfl) | rfl <;> decide

theorem tagName_split (content : Text) : content = tagName content ∨
    ∃ space rest, content = tagName content ++ space :: rest ∧ isWhite space = true := by
  have whole := List.takeWhile_append_dropWhile (p := fun letter => !isSpace letter) (l := content)
  have stopped := List.head?_dropWhile_not (fun letter : Char => !isSpace letter) content
  cases rest : content.dropWhile (fun letter => !isSpace letter) with
  | nil =>
    rw [rest, List.append_nil] at whole
    exact .inl whole.symm
  | cons space tail =>
    rw [rest] at whole stopped
    exact .inr ⟨space, tail, whole.symm, isWhite_of_isSpace space (by simpa using stopped)⟩

theorem written_startTag (content : Text) :
    ∃ rest, (Event.startTag content).written = '<' :: (tagName content ++ rest) := by
  have whole := List.takeWhile_append_dropWhile (p := fun letter => !isSpace letter) (l := content)
  refine ⟨content.dropWhile (fun letter => !isSpace letter) ++ ['>'], ?_⟩
  rw [← List.append_assoc, tagName, whole]
  rfl

namespace PlainTag

variable {content : Text} (plain : PlainTag content)
include plain

private theorem openName (letter : Char) (membership : letter ∈ tagName content) : endsOpenName letter = false := by
  have inside : letter ∈ content := (List.takeWhile_sublist _).subset membership
  obtain ⟨solid, others⟩ := plain.letters letter membership
  have open_ : letter ≠ '>' := fun same => plain.unclosed (same ▸ inside)
  simp only [List.mem_cons, List.not_mem_nil, or_false, not_or] at others
  simp [endsOpenName, solid, open_, others]

theorem opening (more : Text) : ∃ middle, Opening ('<' :: (content ++ '>' :: more)) (tagName content) middle more := by
  have letters : ∀ letter ∈ tagName content, isWhite letter = false ∧ letter ∉ ['/', '>', '!', '?'] :=
    fun letter membership => (endsOpenName_eq_false_iff letter).mp (plain.openName letter membership)
  rcases tagName_split content with same | ⟨space, rest, same, white⟩
  · exact ⟨[], by rw [List.nil_append, ← same], plain.named, letters, by simp, by simp⟩
  · have spelled : content ++ '>' :: more = tagName content ++ ((space :: rest) ++ '>' :: more) := by
      rw [← List.append_assoc, ← same]
    have behind : space :: rest ⊆ content := by
      rw [same]
      exact List.subset_append_right _ _
    exact ⟨space :: rest, congrArg ('<' :: ·) spelled, plain.named, letters, by simpa using white,
      fun membership => plain.unclosed (behind membership)⟩

theorem openerAt?_startTag (more : Text) :
    openerAt? ('<' :: (content ++ '>' :: more)) = some ⟨tagName content, more⟩ := by
  obtain ⟨_, opening⟩ := plain.opening more
  exact opening.openerAt?_eq

theorem solid (letter : Char) (membership : letter ∈ tagName content) :
    letter ≠ '>' ∧ isWhite letter = false := by
  have inside : letter ∈ content := (List.takeWhile_sublist _).subset membership
  exact ⟨fun same => plain.unclosed (same ▸ inside), (plain.letters letter membership).1⟩

theorem unclosedName : '>' ∉ tagName content := fun membership => (plain.solid _ membership).1 rfl

theorem unmarkedName : '<' ∉ tagName content := fun membership =>
  plain.unmarked ((List.takeWhile_sublist _).subset membership)

private theorem head?_eq : content.head? = (tagName content).head? := by
  rcases tagName_split content with same | ⟨space, rest, same, _⟩
  · rw [← same]
  · rw [← List.head?_append_of_ne_nil _ plain.named, ← same]

private theorem nonempty : content ≠ [] := by
  intro same
  subst same
  exact plain.named rfl

theorem unslashed : (tagName content).head? ≠ some '/' := by
  intro slash
  have letters := (plain.letters '/' (List.mem_of_head? slash)).2
  simp at letters

theorem tagAt?_startTag (more : Text) : tagAt? (content ++ '>' :: more) = some (.opening (tagName content)) := by
  obtain ⟨middle, opening⟩ := plain.opening more
  obtain ⟨stop, tail, split, _, ends⟩ := opening.stop
  rw [(List.cons.inj opening.spelled).2, split]
  apply tagAt?_name _ _ _ plain.solid plain.named plain.unslashed
  exact ends.imp And.left fun white => white.2.1

/-- The slash of an empty tag goes into its name, unless something stands between the two. -/
theorem tagAt?_emptyTag : tagAt? (content ++ ['/', '>']) =
    some (.opening (if content = tagName content then tagName content ++ ['/'] else tagName content)) := by
  rcases tagName_split content with same | ⟨space, rest, split, white⟩
  · rw [if_pos same, ← same]
    have name := tagAt?_name (content ++ ['/']) [] '>'
    rw [List.append_assoc] at name
    apply name
    · intro letter membership
      rcases List.mem_append.mp membership with inside | last
      · exact plain.solid letter (same ▸ inside)
      · rw [List.mem_singleton.mp last]
        decide
    · simp
    · rw [List.head?_append_of_ne_nil _ (same ▸ plain.named), same]
      exact plain.unslashed
    · exact .inl rfl
  · have other : content ≠ tagName content := by
      intro same
      have longer := congrArg List.length split
      rw [← same] at longer
      simp at longer
    have whole : content ++ ['/', '>'] = tagName content ++ space :: (rest ++ ['/', '>']) := by
      rw [← List.cons_append, ← List.append_assoc, ← split]
    rw [if_neg other, whole]
    exact tagAt?_name _ _ _ plain.solid plain.named plain.unslashed (.inr white)

end PlainTag

/-- Markup that stands for itself and is not mistaken for the tag of another element. -/
def PlainMark : Event → Prop
  | .emptyTag content => PlainTag content
  | .comment content | .instruction content | .doctype content => '<' ∉ content ∧ '\n' ∉ content
  | _ => False

theorem trim_tagged (front body : Text) :
    trim (front ++ '<' :: (body ++ ['>'])) = trimStart front ++ '<' :: (body ++ ['>']) := by
  have start : trimStart (front ++ '<' :: (body ++ ['>'])) = trimStart front ++ '<' :: (body ++ ['>']) := by
    have solid : trimStart ('<' :: (body ++ ['>'])) = '<' :: (body ++ ['>']) := by
      rw [trimStart, List.dropWhile_cons_of_neg (by decide)]
    rw [trimStart, trimStart, List.dropWhile_append]
    split
    · next none =>
      rw [List.isEmpty_iff.mp none]
      exact solid
    · rfl
  have stop : ∀ text, dropEndWhile isWhite (text ++ ['>']) = text ++ ['>'] := by
    intro text
    rw [dropEndWhile, List.reverse_append, List.reverse_singleton, List.singleton_append,
      List.dropWhile_cons_of_neg (by decide)]
    simp
  rw [trim, start, ← List.cons_append, ← List.append_assoc, stop]

theorem tagsFrom_append (front rest : Text) (unmarked : '<' ∉ front) :
    tagsFrom (front ++ rest) = tagsFrom rest := by
  induction front with
  | nil => rfl
  | cons letter front inductionHypothesis =>
    have other : letter ≠ '<' := fun same => unmarked (by simp [same])
    rw [List.cons_append, tagsFrom, if_neg other, inductionHypothesis fun later => unmarked (by simp [later])]

theorem tagsFrom_mark (rest : Text) : tagsFrom ('<' :: rest) = (tagAt? rest).toList ++ tagsFrom rest := by
  rw [tagsFrom, if_pos rfl]

theorem tagsFrom_unmarked (text : Text) (unmarked : '<' ∉ text) : tagsFrom text = [] := by
  have none := tagsFrom_append text [] unmarked
  rwa [List.append_nil] at none

theorem tags_tagged (front body : Text) (unmarked : '<' ∉ front) :
    tags (front ++ '<' :: (body ++ ['>'])) = (tagAt? (body ++ ['>'])).toList ++ tagsFrom (body ++ ['>']) := by
  have kept : '<' ∉ trimStart front := fun membership =>
    unmarked ((List.dropWhile_sublist isWhite).subset membership)
  rw [tags, trim_tagged, tagsFrom_append _ _ kept, tagsFrom_mark]

private theorem before_close (name more : Text) (unclosed : '>' ∉ name) :
    (name ++ '>' :: more).takeWhile (· ≠ '>') = name ∧
      (name ++ '>' :: more).dropWhile (· ≠ '>') = '>' :: more := by
  have taken : ∀ letter ∈ name, decide (letter ≠ '>') = true := by
    intro letter membership
    apply decide_eq_true
    intro same
    subst same
    exact unclosed membership
  exact ⟨takeWhile_stop _ name more '>' taken (by decide), dropWhile_stop _ name more '>' taken (by decide)⟩

theorem tagAt?_endTag (name more : Text) (named : name ≠ []) (unclosed : '>' ∉ name) :
    tagAt? ('/' :: (name ++ '>' :: more)) = some (.closing name) := by
  have filled : name.isEmpty = false := by simpa using named
  obtain ⟨before, behind⟩ := before_close name more unclosed
  simp only [tagAt?, before, behind, filled]
  rfl

private theorem tagAt?_first (first : Char) (rest : Text) (tag : Tag) (other : first ≠ '/')
    (found : tagAt? (first :: rest) = some tag) (chosen : first ≠ '>' ∧ isWhite first = false) :
    tag.name.head? = some first := by
  unfold tagAt? at found
  split at found
  · next same => exact absurd (List.cons.inj same).1 other
  · dsimp only at found
    split at found
    · cases found
    · cases found
      rw [Tag.name, List.takeWhile_cons, if_pos (by simp [chosen])]
      rfl

section Lines

variable {margin : Text} (blank : isBlank margin = true)
include blank

theorem unmarked_margin : '<' ∉ margin := by
  intro membership
  have white := List.all_eq_true.mp blank '<' membership
  exact absurd white (by decide)

theorem trim_line (body : Text) : trim (margin ++ '<' :: (body ++ ['>'])) = '<' :: (body ++ ['>']) := by
  have none : trimStart margin = [] := List.dropWhile_eq_nil_iff.mpr (List.all_eq_true.mp blank)
  rw [trim_tagged, none, List.nil_append]

theorem tags_startTag (content : Text) (plain : PlainTag content) :
    tags (margin ++ (Event.startTag content).written) = [.opening (tagName content)] := by
  have unmarked : '<' ∉ content ++ ['>'] := by simp [plain.unmarked]
  change tags (margin ++ '<' :: (content ++ ['>'])) = _
  rw [tags_tagged _ _ (unmarked_margin blank), plain.tagAt?_startTag, tagsFrom_unmarked _ unmarked]
  rfl

theorem tags_endTag (name : Text) (named : name ≠ []) (unmarked : '<' ∉ name) (unclosed : '>' ∉ name) :
    tags (margin ++ (Event.endTag name).written) = [.closing name] := by
  have unmarked : '<' ∉ '/' :: (name ++ ['>']) := by simp [unmarked]
  change tags (margin ++ '<' :: ('/' :: name ++ ['>'])) = _
  rw [tags_tagged _ _ (unmarked_margin blank), List.cons_append, tagAt?_endTag _ _ named unclosed,
    tagsFrom_unmarked _ unmarked]
  rfl

theorem tags_element (content text : Text) (plain : PlainTag content) (unmarked : '<' ∉ text) :
    tags (margin ++ (Event.startTag content).written ++ text ++ (Event.endTag (tagName content)).written) =
      [.opening (tagName content), .closing (tagName content)] := by
  have letters : ∀ letter ∈ tagName content, letter ∈ content := (List.takeWhile_sublist _).subset
  have unclosed : '>' ∉ tagName content := fun membership => (plain.solid _ membership).1 rfl
  have closing : '<' ∉ '/' :: (tagName content ++ ['>']) := by
    simp only [List.mem_cons, List.mem_append, List.not_mem_nil, or_false, not_or]
    exact ⟨by decide, fun membership => plain.unmarked (letters _ membership), by decide⟩
  have front : '<' ∉ content ++ '>' :: text := by simp [plain.unmarked, unmarked]
  have whole : margin ++ (Event.startTag content).written ++ text ++
      (Event.endTag (tagName content)).written =
      margin ++ '<' :: ((content ++ '>' :: text) ++ '<' :: '/' :: tagName content ++ ['>']) := by
    simp [Event.written]
  have rest : (content ++ '>' :: text) ++ '<' :: '/' :: tagName content ++ ['>'] =
      content ++ '>' :: (text ++ '<' :: '/' :: (tagName content ++ ['>'])) := by simp
  rw [whole, tags_tagged _ _ (unmarked_margin blank), rest, plain.tagAt?_startTag, ← List.cons_append,
    ← List.append_assoc, tagsFrom_append _ _ front, tagsFrom_mark, tagAt?_endTag _ _ plain.named unclosed,
    tagsFrom_unmarked _ closing]
  rfl

private theorem tags_single (body : Text) (unmarked : '<' ∉ body) :
    tags (margin ++ '<' :: (body ++ ['>'])) = (tagAt? (body ++ ['>'])).toList := by
  have rest : '<' ∉ body ++ ['>'] := by simp [unmarked]
  rw [tags_tagged _ _ (unmarked_margin blank), tagsFrom_unmarked _ rest, List.append_nil]

/-- No tag of such a line is taken for one of an element with a plain name, unless an empty tag with
something behind its name has that name. -/
theorem tags_mark (event : Event) (plain : PlainMark event) (name : Text)
    (letters : ∀ letter ∈ name, letter ∉ ['/', '!', '?'])
    (apart : ∀ content, event = .emptyTag content → content ≠ tagName content → tagName content ≠ name) :
    ∀ tag ∈ tags (margin ++ event.written), tag.name ≠ name := by
  intro tag membership same
  -- A name that starts with `!` or `?` is none of an element.
  have first : ∀ letter, letter ∈ ['!', '?'] → tag.name.head? ≠ some letter := by
    intro letter chosen head
    have none := letters letter (same ▸ List.mem_of_head? head)
    simp only [List.mem_cons, List.not_mem_nil, or_false] at chosen none
    tauto
  cases event with
  | startTag | endTag | text | cdata => exact plain.elim
  | emptyTag content =>
    have plain : PlainTag content := plain
    have unmarked : '<' ∉ content ++ ['/'] := by simp [plain.unmarked]
    have whole : margin ++ (Event.emptyTag content).written =
        margin ++ '<' :: ((content ++ ['/']) ++ ['>']) := by simp [Event.written]
    rw [whole, tags_single blank _ unmarked, List.append_assoc, List.singleton_append, plain.tagAt?_emptyTag,
      Option.toList_some, List.mem_singleton] at membership
    subst membership
    by_cases bare : content = tagName content
    · rw [Tag.name, if_pos bare] at same
      have none := letters '/' (by rw [← same]; simp)
      simp at none
    · rw [Tag.name, if_neg bare] at same
      exact apart content rfl bare same
  | comment content =>
    have unmarked : '<' ∉ '!' :: '-' :: '-' :: (content ++ ['-', '-']) := by simp [plain.1]
    have whole : margin ++ (Event.comment content).written =
        margin ++ '<' :: ('!' :: '-' :: '-' :: (content ++ ['-', '-']) ++ ['>']) := by simp [Event.written]
    rw [whole, tags_single blank _ unmarked, Option.mem_toList] at membership
    exact first '!' (by simp) (tagAt?_first _ _ tag (by decide) membership (by decide))
  | instruction content =>
    have unmarked : '<' ∉ '?' :: (content ++ ['?']) := by simp [plain.1]
    have whole : margin ++ (Event.instruction content).written =
        margin ++ '<' :: ('?' :: (content ++ ['?']) ++ ['>']) := by simp [Event.written]
    rw [whole, tags_single blank _ unmarked, Option.mem_toList] at membership
    exact first '?' (by simp) (tagAt?_first _ _ tag (by decide) membership (by decide))
  | doctype content =>
    have unmarked : '<' ∉ '!' :: 'D' :: 'O' :: 'C' :: 'T' :: 'Y' :: 'P' :: 'E' :: ' ' :: content := by
      simp [plain.1]
    have whole : margin ++ (Event.doctype content).written =
        margin ++ '<' :: ('!' :: 'D' :: 'O' :: 'C' :: 'T' :: 'Y' :: 'P' :: 'E' :: ' ' :: content ++ ['>']) := by
      simp [Event.written]
    rw [whole, tags_single blank _ unmarked, Option.mem_toList] at membership
    exact first '!' (by simp) (tagAt?_first _ _ tag (by decide) membership (by decide))

theorem opener?_tagged (body : Text) : opener? (margin ++ '<' :: (body ++ ['>'])) = none ∨
    opener? (margin ++ '<' :: (body ++ ['>'])) = openerAt? ('<' :: (body ++ ['>'])) := by
  rw [opener?, trim_line blank]
  split
  · exact .inl rfl
  · exact .inr rfl

private theorem opener?_forbidden (part body : Text) (forbidden : part ∈ foreignMarks)
    (occurs : part <:+: '<' :: (body ++ ['>'])) : opener? (margin ++ '<' :: (body ++ ['>'])) = none := by
  apply Option.eq_none_iff_forall_ne_some.mpr
  intro tag opens
  have clear := ((opener?_eq_some_iff _ tag).mp opens).1 part forbidden
  rw [trim_line blank] at clear
  exact clear occurs

theorem opener?_mark (event : Event) (plain : PlainMark event) : opener? (margin ++ event.written) = none := by
  cases event with
  | startTag | endTag | text | cdata => exact plain.elim
  | emptyTag content =>
    have whole : (Event.emptyTag content).written = '<' :: ((content ++ ['/']) ++ ['>']) := by
      simp [Event.written]
    rw [whole]
    exact opener?_forbidden blank ['/', '>'] _ (by decide) ⟨'<' :: content, [], by simp⟩
  | comment content =>
    have whole : (Event.comment content).written =
        '<' :: ('!' :: '-' :: '-' :: (content ++ ['-', '-']) ++ ['>']) := by simp [Event.written]
    rw [whole]
    exact opener?_forbidden blank ['<', '!', '-', '-'] _ (by decide) ⟨[], content ++ ['-', '-', '>'], by simp⟩
  | instruction content =>
    have whole : (Event.instruction content).written = '<' :: ('?' :: (content ++ ['?']) ++ ['>']) := by
      simp [Event.written]
    rw [whole]
    exact opener?_forbidden blank ['<', '?'] _ (by decide) ⟨[], content ++ ['?', '>'], by simp⟩
  | doctype content =>
    have whole : (Event.doctype content).written =
        '<' :: ('!' :: 'D' :: 'O' :: 'C' :: 'T' :: 'Y' :: 'P' :: 'E' :: ' ' :: content ++ ['>']) := by
      simp [Event.written]
    rw [whole]
    rcases opener?_tagged blank ('!' :: 'D' :: 'O' :: 'C' :: 'T' :: 'Y' :: 'P' :: 'E' :: ' ' :: content) with
      none | nameless
    · exact none
    · rw [nameless]
      simp [openerAt?, endsOpenName]

/-- A start tag alone in its line opens its element. -/
theorem opener?_startTag (content : Text) (plain : PlainTag content) (open_ : content.getLast? ≠ some '/') :
    opener? (margin ++ (Event.startTag content).written) = some ⟨tagName content, []⟩ := by
  have opened : occursIn ['/', '>'] ('<' :: (content ++ ['>'])) = false := by
    rw [← Bool.not_eq_true, occursIn_iff, ← List.cons_append]
    intro occurs
    rcases List.infix_concat_iff.mp occurs with ends | inside
    · obtain none | ⟨front, same, tail⟩ := List.suffix_concat_iff.mp ends
      · cases none
      · have whole : ['/'] ++ ['>'] = front ++ ['>'] := same
        have last : ['/'] = front := List.append_cancel_right whole
        obtain ⟨before, split⟩ := last ▸ tail
        have slash : ('<' :: content).getLast? = some '/' := by
          rw [← split]
          simp
        rw [List.getLast?_cons_of_ne_nil plain.nonempty] at slash
        exact open_ slash
    · have membership := inside.subset (show '>' ∈ ['/', '>'] by simp)
      simp [plain.unclosed] at membership
  have first : ∀ letter rest, letter ∈ ['!', '?'] →
      occursIn ('<' :: letter :: rest) ('<' :: (content ++ ['>'])) = false := by
    intro letter rest chosen
    rw [← Bool.not_eq_true, occursIn_iff]
    intro occurs
    rcases List.infix_cons_iff.mp occurs with starts | inside
    · obtain ⟨behind, same⟩ := (List.cons_prefix_cons.mp starts).2
      have head : (content ++ ['>']).head? = some letter := by
        rw [← same]
        rfl
      rw [List.head?_append_of_ne_nil _ plain.nonempty, plain.head?_eq] at head
      have others := (plain.letters letter (List.mem_of_head? head)).2
      simp only [List.mem_cons, List.not_mem_nil, or_false] at chosen others
      tauto
    · have membership := inside.subset (show '<' ∈ '<' :: letter :: rest by simp)
      simp [plain.unmarked] at membership
  change opener? (margin ++ '<' :: (content ++ ['>'])) = _
  rw [opener?, trim_line blank]
  rw [opened, first '?' [] (by simp), first '!' ['-', '-'] (by simp)]
  exact plain.openerAt?_startTag []

/-- An element in a line of its own closes there. -/
theorem openName?_element (content text : Text) (plain : PlainTag content) (unmarked : '<' ∉ text) :
    Block.openName? rules (margin ++ (Event.startTag content).written ++ text ++
      (Event.endTag (tagName content)).written) = none := by
  have whole : margin ++ (Event.startTag content).written ++ text ++
      (Event.endTag (tagName content)).written =
      margin ++ '<' :: (content ++ '>' :: (text ++ '<' :: '/' :: tagName content) ++ ['>']) := by
    simp [Event.written]
  have rest : '<' :: (content ++ '>' :: (text ++ '<' :: '/' :: tagName content) ++ ['>']) =
      '<' :: (content ++ '>' :: (text ++ '<' :: ('/' :: tagName content ++ ['>']))) := by simp
  rw [whole, Block.openName?]
  rcases opener?_tagged blank (content ++ '>' :: (text ++ '<' :: '/' :: tagName content)) with none | opened
  · change (opener? _).bind _ = _
    rw [none]
    rfl
  · change (opener? _).bind _ = _
    rw [opened, rest, plain.openerAt?_startTag]
    have unclosed : '>' ∉ tagName content := fun membership => (plain.solid _ membership).1 rfl
    have closed : Tag.closing (tagName content) ∈ tags (text ++ '<' :: ('/' :: tagName content ++ ['>'])) := by
      rw [tags_tagged _ _ unmarked, List.cons_append, tagAt?_endTag _ _ plain.named unclosed]
      simp
    exact if_neg (List.count_pos_iff.mpr closed).ne'

theorem isCloser_endTag (name : Text) (named : name ≠ []) (unclosed : '>' ∉ name) :
    isCloser (margin ++ (Event.endTag name).written) = true := by
  have filled : name.isEmpty = false := by simpa using named
  obtain ⟨before, behind⟩ := before_close name [] unclosed
  have whole : margin ++ (Event.endTag name).written = margin ++ '<' :: ('/' :: name ++ ['>']) := rfl
  rw [whole, isCloser, trim_line blank, List.cons_append]
  simp only [before, behind, filled]
  rfl

end Lines

end MarkupOutline.Line.Angle
