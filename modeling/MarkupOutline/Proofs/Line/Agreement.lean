import MarkupOutline.Proofs.Line.Written

/-! A line is looked at in three ways: as an opening tag, as a closing tag, and as a row of tags wherever they start.
The three agree. The tag that a line opens or closes with is the first of its tags, and behind an opening tag the row
goes on as if the line started there. -/
namespace MarkupOutline

namespace Text

private theorem dropEndWhile_suffix (chosen : Char → Bool) (whole part : Text) (suffix : part <:+ whole)
    (clean : dropEndWhile chosen whole = whole) : dropEndWhile chosen part = part := by
  obtain ⟨front, rfl⟩ := suffix
  apply List.rdropWhile_eq_self_iff.mpr
  intro filled
  have last := List.rdropWhile_eq_self_iff.mp clean (List.append_ne_nil_of_right_ne_nil front filled)
  rwa [List.getLast_append_of_ne_nil _ filled] at last

private theorem trim_suffix (text part : Text) (suffix : part <:+ trim text) : trim part = trimStart part :=
  dropEndWhile_suffix isWhite (trim text) (trimStart part) ((List.dropWhile_suffix isWhite).trans suffix)
    (dropEndWhile_idempotent isWhite (trimStart text))

end Text

namespace Line.Angle

open Text

def tagStarting? (text : Text) (place : Nat) : Option Tag :=
  if text[place]? = some '<' then tagAt? (text.drop (place + 1)) else none

/-- The tags that start at the places from `start` up to but without `stop`. -/
def tagsBetween (text : Text) (start stop : Nat) : List Tag :=
  (List.range' start (stop - start)).filterMap (tagStarting? text)

private theorem tagsBetween_cons (letter : Char) (rest : Text) (start stop : Nat) :
    tagsBetween (letter :: rest) (start + 1) (stop + 1) = tagsBetween rest start stop := by
  have shifted : List.range' (start + 1) (stop - start) = (List.range' start (stop - start)).map (· + 1) := by
    simp_rw [Nat.add_comm _ 1, List.map_add_range']
  rw [tagsBetween, Nat.add_sub_add_right, shifted, List.filterMap_map, tagsBetween]
  rfl

theorem tagsBetween_append (text : Text) (start middle stop : Nat) (before : start ≤ middle) (behind : middle ≤ stop) :
    tagsBetween text start middle ++ tagsBetween text middle stop = tagsBetween text start stop := by
  have joined : List.range' start (middle - start) ++ List.range' middle (stop - middle) =
      List.range' start (stop - start) := by
    obtain ⟨first, rfl⟩ := Nat.exists_eq_add_of_le before
    obtain ⟨second, rfl⟩ := Nat.exists_eq_add_of_le behind
    rw [Nat.add_sub_cancel_left, Nat.add_sub_cancel_left, Nat.add_assoc, Nat.add_sub_cancel_left]
    exact List.range'_append_1
  rw [tagsBetween, tagsBetween, ← List.filterMap_append, joined, tagsBetween]

/-- From any place on, the tags are those that start there or behind. -/
theorem tagsFrom_drop (text : Text) (start : Nat) :
    tagsFrom (text.drop start) = tagsBetween text start text.length := by
  induction text generalizing start with
  | nil => simp [tagsFrom, tagsBetween]
  | cons letter rest inductionHypothesis =>
    cases start with
    | succ start =>
      rw [List.drop_succ_cons, inductionHypothesis, List.length_cons, tagsBetween_cons]
    | zero =>
      have behind : tagsBetween (letter :: rest) 1 (rest.length + 1) = tagsFrom rest := by
        rw [tagsBetween_cons, ← inductionHypothesis, List.drop_zero]
      have here : tagsBetween (letter :: rest) 0 1 = if letter = '<' then (tagAt? rest).toList else [] := by
        rw [tagsBetween, List.range'_one, List.filterMap_cons, List.filterMap_nil, tagStarting?]
        by_cases marked : letter = '<'
        · simp only [marked, List.getElem?_cons_zero, if_true, List.drop_succ_cons, List.drop_zero]
          cases tagAt? rest <;> rfl
        · simp [marked]
      rw [List.drop_zero, tagsFrom, List.length_cons,
        ← tagsBetween_append _ 0 1 _ (Nat.zero_le 1) (Nat.le_add_left 1 _),
        behind, here]
      split <;> rfl

private theorem tagsFrom_split (text : Text) (start : Nat) (inside : start ≤ text.length) :
    tagsFrom text = tagsBetween text 0 start ++ tagsFrom (text.drop start) := by
  have whole := tagsFrom_drop text 0
  rw [List.drop_zero] at whole
  rw [whole, tagsFrom_drop, tagsBetween_append text 0 start text.length (Nat.zero_le start) inside]

private theorem tagsFrom_trimStart (text : Text) : tagsFrom (trimStart text) = tagsFrom text := by
  have margin : '<' ∉ text.takeWhile isWhite := by
    intro member
    cases List.mem_takeWhile_imp member
  have split : text.takeWhile isWhite ++ trimStart text = text := List.takeWhile_append_dropWhile
  rw [← tagsFrom_append _ (trimStart text) margin, split]

/-- The end of a trimmed line has the tags that the line has there, although it is trimmed again. -/
theorem tags_suffix (line part : Text) (suffix : part <:+ trim line) : tags part = tagsFrom part := by
  rw [tags, trim_suffix line part suffix, tagsFrom_trimStart]

/-- A line is a closing tag exactly if, trimmed, it is a name between the two brackets of one. -/
theorem isCloser_iff (line : Text) : isCloser line = true ↔
    ∃ name, trim line = '<' :: '/' :: (name ++ ['>']) ∧ name ≠ [] ∧ '>' ∉ name := by
  have parts (body name : Text) : body.takeWhile (· ≠ '>') = name ∧ body.dropWhile (· ≠ '>') = ['>'] ↔
      body = name ++ ['>'] ∧ '>' ∉ name := by
    rw [cut_iff]
    simp only [decide_eq_true_eq, ne_eq, not_true_eq_false, decide_false, and_true]
    exact and_congr_right fun _ => ⟨fun other member => other '>' member rfl, fun absent _ member =>
      ne_of_mem_of_not_mem member absent⟩
  unfold isCloser
  split
  · next body spelled =>
    rw [Bool.and_eq_true, Bool.not_eq_true', List.isEmpty_eq_false_iff, beq_iff_eq, spelled]
    constructor
    · rintro ⟨named, behind⟩
      obtain ⟨split, unclosed⟩ := (parts body _).mp ⟨rfl, behind⟩
      exact ⟨_, by rw [← split], named, unclosed⟩
    · rintro ⟨name, same, named, unclosed⟩
      obtain ⟨before, behind⟩ := (parts body name).mpr ⟨by simpa using same, unclosed⟩
      exact ⟨by rwa [before], behind⟩
  · next other =>
    refine iff_of_false Bool.false_ne_true ?_
    rintro ⟨name, spelled, _⟩
    exact other _ spelled

namespace Opening

variable {line name middle rest : Text} (opening : Opening line name middle rest)

include opening

theorem unslashed : name.head? ≠ some '/' := by
  intro slashed
  exact (opening.letters '/' (List.mem_of_mem_head? slashed)).2 (by decide)

private theorem head?_tagsFrom : (tagsFrom line).head? = some (.opening name) := by
  obtain ⟨stop, tail, split, ends, cases⟩ := opening.stop
  have solid : ∀ letter ∈ name, letter ≠ '>' ∧ isWhite letter = false := by
    intro letter member
    have ⟨solid, other⟩ := opening.letters letter member
    refine ⟨fun same => other (by simp [same]), solid⟩
  have stops : stop = '>' ∨ isWhite stop = true := by
    rcases cases with ⟨bracket, _⟩ | ⟨_, white, _⟩
    · exact .inl bracket
    · exact .inr white
  rw [opening.spelled, split, tagsFrom_mark, tagAt?_name name tail stop solid opening.named opening.unslashed stops]
  rfl

theorem not_closer (other : Text) : line ≠ '<' :: '/' :: other := by
  intro same
  have spelled := opening.spelled.symm.trans same
  cases letters : name with
  | nil => exact opening.named letters
  | cons first tail =>
    rw [letters, List.cons_append, List.cons.injEq, List.cons.injEq] at spelled
    exact opening.unslashed (by rw [letters, spelled.2.1]; rfl)

theorem suffix : rest <:+ line := by
  refine ⟨'<' :: (name ++ (middle ++ ['>'])), ?_⟩
  rw [opening.spelled]
  simp

end Opening

def startOf (line rest : Text) : Nat := (trim line).length - rest.length

/-- What the other two views say of a line that opens an element. -/
structure OpensWith (line name rest : Text) : Prop where
  notCloser : isCloser line = false
  first : (tags line).head? = some (.opening name)
  suffix : (trim line).drop (startOf line rest) = rest
  /-- What follows the opening tag has the tags that start there in the line, and only these. -/
  behind : tags rest = tagsBetween (trim line) (startOf line rest) (trim line).length
  whole : tags line = tagsBetween (trim line) 0 (startOf line rest) ++ tags rest
  closings : rules.closingCount rest name =
    (tagsBetween (trim line) (startOf line rest) (trim line).length).count (.closing name)

/-- What the other two views say of a line that is a closing tag. -/
structure ClosesWith (line name : Text) : Prop where
  notOpener : opener? line = none
  spelled : trim line = '<' :: '/' :: (name ++ ['>'])
  first : (tags line).head? = some (.closing name)

theorem opensWith (line : Text) (tag : Opener) (opens : opener? line = some tag) :
    OpensWith line tag.name tag.rest := by
  obtain ⟨middle, opening⟩ := opening_of_opener? line tag opens
  have cut : (trim line).drop (startOf line tag.rest) = tag.rest := (List.suffix_iff_eq_drop.mp opening.suffix).symm
  have behind : tags tag.rest = tagsFrom ((trim line).drop (startOf line tag.rest)) := by
    rw [cut, tags_suffix line tag.rest opening.suffix]
  have placed := behind.trans (tagsFrom_drop (trim line) (startOf line tag.rest))
  refine ⟨?_, opening.head?_tagsFrom, cut, placed, ?_, congrArg (List.count _) placed⟩
  · by_contra closes
    obtain ⟨name, spelled, _⟩ := (isCloser_iff line).mp (eq_true_of_ne_false closes)
    exact opening.not_closer _ spelled
  · rw [behind]
    exact tagsFrom_split (trim line) _ (Nat.sub_le _ _)

theorem closesWith (line : Text) (closes : isCloser line = true) : ∃ name, ClosesWith line name := by
  obtain ⟨name, spelled, named, unclosed⟩ := (isCloser_iff line).mp closes
  refine ⟨name, ?_, spelled, ?_⟩
  · cases opens : opener? line with
    | none => rfl
    | some tag =>
      obtain ⟨middle, opening⟩ := opening_of_opener? line tag opens
      exact absurd spelled (opening.not_closer _)
  · rw [tags, spelled, tagsFrom_mark, tagAt?_endTag name [] named unclosed]
    rfl

/-- A line that opens an element is no closing tag; its first tag is the opening one, and what follows that tag has,
as a line of its own, the tags that start there in the line. A line that is a closing tag opens nothing, and its
first tag is the closing one. -/
theorem views_agree (line : Text) :
    (∀ name rest, opener? line = some ⟨name, rest⟩ → OpensWith line name rest) ∧
      (isCloser line = true → ∃ name, ClosesWith line name) :=
  ⟨fun name rest => opensWith line ⟨name, rest⟩, closesWith line⟩

/-- Tags in the attributes of an opening tag are not behind it, and the name of a closing tag may have a tag in it. -/
theorem views_agree_crossed :
    let line := " <a x='<b' >\u2003<c></a> <d\u3000".toList
    let rest := "\u2003<c></a> <d".toList
    let closer := "\u00A0</a<b c>\t".toList
    opener? line = some ⟨['a'], rest⟩ ∧ OpensWith line ['a'] rest ∧
      tagsBetween (trim line) 0 (startOf line rest) = [.opening ['a'], .opening ['b', '\x27']] ∧
        tags rest = [.opening ['c'], .closing ['a']] ∧
          isCloser closer = true ∧ ∃ name, ClosesWith closer name := by
  intro line rest closer
  have opens : opener? line = some ⟨['a'], rest⟩ := by decide +kernel
  have closes : isCloser closer = true := by decide +kernel
  have ⟨opening, _⟩ := views_agree line
  have ⟨_, closing⟩ := views_agree closer
  exact ⟨opens, opening _ _ opens, by decide +kernel, by decide +kernel, closes, closing closes⟩

end Line.Angle

end MarkupOutline
