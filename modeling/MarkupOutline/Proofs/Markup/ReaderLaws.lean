import MarkupOutline.Proofs.Markup.Spelling

/-! What formatting takes from a reader of markup, told as laws: markup is read again from its written form, text has no
space around it, and the names of the open elements go with the tags. The reader of this library keeps these laws, and
what its events are like follows from them alone. -/
namespace MarkupOutline.Markup

open Text

namespace Event

def isStart : Event → Bool
  | startTag _ => true
  | _ => false

def isEnd : Event → Bool
  | endTag _ => true
  | _ => false

def isTag (event : Event) : Bool := event.isStart || event.isEnd

end Event

/-- Text as it is read: not empty, without space around it and without markup in it. -/
structure Trimmed (content : Text) : Prop where
  nonempty : content ≠ []
  start : content.dropWhile isSpace = content
  stop : dropEndWhile isSpace content = content
  unmarked : '<' ∉ content

/-- The text ends here, or markup begins. -/
def AtMarkup (text : Text) : Prop := text = [] ∨ ∃ tail, text = '<' :: tail

/-- Markup that a reader gives again from its written form, whatever space is before it and whatever text behind it. -/
structure Reread (next : Text → Except ReadError (Option (Event × Text))) (event : Event) : Prop where
  marked : ∃ spelling, event.written = '<' :: spelling
  again : ∀ space more, (∀ letter ∈ space, isSpace letter = true) →
    next (space ++ event.written ++ more) = .ok (some (event, more))

/-- The laws of a reader that gives the next event of a text together with the rest of it, and that checks an event
against the names of the open elements. -/
structure ReaderLaws (next : Text → Except ReadError (Option (Event × Text)))
    (follow : List Text → Event → Except ReadError (List Text)) : Prop where
  ended : next [] = .ok none
  shorter : ∀ text rest event, next text = .ok (some (event, rest)) → rest.length < text.length
  markup : ∀ text rest event, next text = .ok (some (event, rest)) → (∀ content, event ≠ .text content) →
    Reread next event
  trimmed : ∀ text rest content, next text = .ok (some (.text content, rest)) → Trimmed content ∧ AtMarkup rest
  text : ∀ content rest, Trimmed content → AtMarkup rest → next (content ++ rest) = .ok (some (.text content, rest))
  /-- Where markup begins there is no text. -/
  textless : ∀ text rest content, AtMarkup text → next text ≠ .ok (some (.text content, rest))
  /-- A tag that ends in a slash is an empty one. -/
  unslashed : ∀ text rest content, next text = .ok (some (.startTag content, rest)) → content.getLast? ≠ some '/'
  opens : ∀ names content, follow names (.startTag content) = .ok (tagName content :: names)
  closes : ∀ names inside name, follow names (.endTag name) = .ok inside ↔ names = name :: inside
  keeps : ∀ names event, event.isTag = false → follow names event = .ok names

theorem map_eq_ok {First Second : Type} (convert : First → Second) (outcome : Except ReadError First)
    (result : Second) (mapped : outcome.map convert = .ok result) :
    ∃ value, outcome = .ok value ∧ convert value = result := by
  cases outcome with
  | error reason => cases mapped
  | ok value =>
    cases mapped
    exact ⟨value, rfl, rfl⟩

private theorem atMarkup_dropWhile (text : Text) : AtMarkup (text.dropWhile (· ≠ '<')) := by
  have stopped := List.head?_dropWhile_not (fun letter : Char => decide (letter ≠ '<')) text
  cases rest : text.dropWhile (· ≠ '<') with
  | nil => exact .inl rfl
  | cons letter tail =>
    rw [rest] at stopped
    have same : letter = '<' := by simpa using stopped
    exact .inr ⟨tail, by rw [same]⟩

private theorem trimmed_front (first : Char) (tail : Text) (solid : isSpace first = false)
    (plain : first ≠ '<') : Trimmed (dropEndWhile isSpace ((first :: tail).takeWhile (· ≠ '<'))) := by
  obtain ⟨front, taken⟩ : ∃ front, (first :: tail).takeWhile (· ≠ '<') = first :: front :=
    ⟨tail.takeWhile (· ≠ '<'), by simp [plain]⟩
  have unmarked : '<' ∉ first :: front := by
    intro membership
    rw [← taken] at membership
    simpa using List.mem_takeWhile_imp membership
  rw [taken]
  obtain ⟨spaces, split, blank⟩ := dropEndWhile_append isSpace (first :: front)
  have nonempty : dropEndWhile isSpace (first :: front) ≠ [] := by
    intro empty
    have all := (dropEndWhile_eq_nil_iff isSpace (first :: front)).mp empty first (by simp)
    rw [solid] at all
    cases all
  refine ⟨nonempty, ?_, dropEndWhile_idempotent isSpace _, ?_⟩
  · cases content : dropEndWhile isSpace (first :: front) with
    | nil => rfl
    | cons letter rest =>
      rw [content, List.cons_append, List.cons.injEq] at split
      rw [List.dropWhile_cons, ← split.1, solid]
      rfl
  · intro membership
    apply unmarked
    rw [split]
    exact List.mem_append_left _ membership

private theorem next?_cases (text rest : Text) (event : Event) (found : next? text = .ok (some (event, rest))) :
    (∃ tail, readMarkup tail = .ok (event, rest)) ∨
      ∃ content, event = .text content ∧ Trimmed content ∧ AtMarkup rest := by
  unfold next? at found
  split at found
  · cases found
  · next tail same =>
    obtain ⟨outcome, read, same⟩ := map_eq_ok _ _ _ found
    cases same
    exact .inl ⟨tail, read⟩
  · next nonempty unmarked =>
    cases found
    have stopped := List.head?_dropWhile_not isSpace text
    cases body : text.dropWhile isSpace with
    | nil => exact absurd body nonempty
    | cons first tail =>
      rw [body] at stopped
      have plain : first ≠ '<' := by
        intro same
        subst same
        exact unmarked tail body
      exact .inr ⟨_, rfl, trimmed_front first tail stopped plain, atMarkup_dropWhile _⟩

private theorem reread_of_recalled (event : Event) (recalled : Recalled event) : Reread next? event := by
  obtain ⟨spelling, written, reads⟩ := recalled
  refine ⟨⟨spelling, written⟩, fun space more blank => ?_⟩
  have skipped : (space ++ event.written ++ more).dropWhile isSpace = '<' :: (spelling ++ more) := by
    rw [List.append_assoc, List.dropWhile_append_of_pos blank, written]
    rfl
  unfold next?
  simp only [skipped, reads]
  rfl

private theorem next?_text (content more : Text) (trimmed : Trimmed content) (ends : AtMarkup more) :
    next? (content ++ more) = .ok (some (.text content, more)) := by
  obtain ⟨nonempty, start, stop, unmarked⟩ := trimmed
  cases content with
  | nil => exact absurd rfl nonempty
  | cons first tail =>
    have solid : isSpace first = false := by
      by_contra space
      rw [Bool.not_eq_false] at space
      have shorter := (List.dropWhile_sublist isSpace (l := tail)).length_le
      rw [List.dropWhile_cons, if_pos space] at start
      rw [start, List.length_cons] at shorter
      omega
    have plain : first ≠ '<' := by
      intro same
      subst same
      exact unmarked (by simp)
    have all : ∀ letter ∈ first :: tail, decide (letter ≠ '<') = true := by
      intro letter membership
      apply decide_eq_true
      intro same
      subst same
      exact unmarked membership
    have behind : more.takeWhile (· ≠ '<') = [] ∧ more.dropWhile (· ≠ '<') = more := by
      rcases ends with rfl | ⟨rest, rfl⟩
      · exact ⟨rfl, rfl⟩
      · simp
    unfold next?
    have skipped : (first :: tail ++ more).dropWhile isSpace = first :: (tail ++ more) := by
      rw [List.cons_append, List.dropWhile_cons, solid]
      rfl
    rw [skipped]
    split
    · next same => cases same
    · next rest same =>
      cases same
      exact absurd rfl plain
    · rw [← List.cons_append, List.takeWhile_append_of_pos all, List.dropWhile_append_of_pos all,
        behind.1, behind.2, List.append_nil, stop]

private theorem readBang_kind (text rest : Text) (event : Event) (found : readBang text = .ok (event, rest)) :
    event.isTag = false ∧ ∀ content, event ≠ .text content := by
  unfold readBang readComment readCData readDoctype at found
  repeat' split at found
  all_goals
    cases found
    try exact ⟨rfl, nofun⟩

/-- Markup is never read as text, and a start tag does not end in a slash. -/
private theorem readMarkup_kind (text rest : Text) (event : Event) (found : readMarkup text = .ok (event, rest)) :
    (∀ content, event ≠ .text content) ∧
      ∀ content, event = .startTag content → content.getLast? ≠ some '/' := by
  unfold readMarkup at found
  split at found
  · cases found
  · obtain ⟨single, textless⟩ := readBang_kind _ _ _ found
    refine ⟨textless, ?_⟩
    intro content same
    subst same
    cases single
  · unfold readEnd at found
    repeat' split at found
    all_goals
      cases found
      try exact ⟨nofun, nofun⟩
  · unfold readInstruction at found
    repeat' split at found
    all_goals
      cases found
      try exact ⟨nofun, nofun⟩
  · unfold readStart at found
    split at found
    · cases found
    · split at found
      · cases found
        exact ⟨nofun, nofun⟩
      · next unslashed =>
        cases found
        refine ⟨nofun, ?_⟩
        rintro content ⟨⟩
        exact unslashed

private theorem next?_textless (text rest content : Text) (begins : AtMarkup text) :
    next? text ≠ .ok (some (.text content, rest)) := by
  intro found
  rcases begins with rfl | ⟨tail, rfl⟩
  · cases found
  · obtain ⟨outcome, read, same⟩ := map_eq_ok some (readMarkup tail) _ found
    cases same
    exact (readMarkup_kind tail rest _ read).1 content rfl

private theorem follow_closes (names inside : List Text) (name : Text) :
    follow names (.endTag name) = .ok inside ↔ names = name :: inside := by
  cases names with
  | nil => exact ⟨nofun, nofun⟩
  | cons innermost outer =>
    rw [follow, List.cons.injEq]
    split
    · next same => exact ⟨fun closed => ⟨same, Except.ok.inj closed⟩, fun closed => congrArg Except.ok closed.2⟩
    · next other => exact ⟨nofun, fun closed => absurd closed.1 other⟩

/-- The reader of this library keeps the laws. -/
theorem readerLaws : ReaderLaws next? follow where
  ended := rfl
  shorter := next?_shorter
  markup text rest event found kind := by
    rcases next?_cases text rest event found with ⟨tail, read⟩ | ⟨content, same, _⟩
    · exact reread_of_recalled event (recalled_of_readMarkup tail rest event read)
    · exact absurd same (kind content)
  trimmed text rest content found := by
    rcases next?_cases text rest _ found with ⟨tail, read⟩ | ⟨_, ⟨⟩, trimmed, ends⟩
    · exact absurd rfl ((readMarkup_kind tail rest _ read).1 content)
    · exact ⟨trimmed, ends⟩
  text := next?_text
  textless := next?_textless
  unslashed text rest content found := by
    rcases next?_cases text rest _ found with ⟨tail, read⟩ | ⟨_, ⟨⟩, _⟩
    exact (readMarkup_kind tail rest _ read).2 content rfl
  opens _ _ := rfl
  closes := follow_closes
  keeps names event single := by
    cases event with
    | startTag | endTag => cases single
    | text | comment | cdata | instruction | doctype | emptyTag => rfl

end MarkupOutline.Markup
