import MarkupOutline.Text.Search
import MarkupOutline.Markup.Event
import MarkupOutline.Markup.ReadError

/-! Reading a text into events, one at a time. Each event leaves a shorter rest, and the names of
the open elements decide whether an end tag may stand where it does. -/
namespace MarkupOutline.Markup

open Text

/-- A tag ends at the first `>` outside quotes; the state is the quote that is open. -/
def tagStep : Option Char → Char → Option (Option Char)
  | none, letter =>
    if letter = '>' then none
    else if letter = '\x22' ∨ letter = '\x27' then some (some letter)
    else some none
  | some quote, letter => some (if letter = quote then none else some quote)

/-- A document type ends at the first `>` before which every `<` has been closed; the state counts
those that have not. -/
def doctypeStep (unclosed : Nat) (letter : Char) : Option Nat :=
  if letter = '>' then (if unclosed = 0 then none else some (unclosed - 1))
  else if letter = '<' then some (unclosed + 1)
  else some unclosed

/-- A comment, after `<!`. -/
def readComment (text : Text) : Except ReadError (Event × Text) :=
  match text with
  | '-' :: '-' :: body =>
    match breakOn? ['-', '-', '>'] body with
    | some (content, rest) => .ok (.comment content, rest)
    | none => .error .unclosedComment
  | _ => .error .unclosedComment

/-- Character data, after `<!`. -/
def readCData (text : Text) : Except ReadError (Event × Text) :=
  match text with
  | '[' :: 'C' :: 'D' :: 'A' :: 'T' :: 'A' :: '[' :: body =>
    match breakOn? [']', ']', '>'] body with
    | some (content, rest) => .ok (.cdata content, rest)
    | none => .error .unclosedCData
  | _ => .error .unclosedCData

/-- A document type, after `<!`. The keyword may be in either case and a name must follow it. -/
def readDoctype (text : Text) : Except ReadError (Event × Text) :=
  match breakScan? doctypeStep 0 text with
  | none => .error .unclosedDoctype
  | some (body, rest) =>
    if (body.take 7).map Char.toUpper = ['D', 'O', 'C', 'T', 'Y', 'P', 'E'] then
      match (body.drop 7).dropWhile isSpace with
      | [] => .error .namelessDoctype
      | content => .ok (.doctype content, rest)
    else .error .unclosedDoctype

/-- What follows `<!`, told apart by its first character. -/
def readBang (text : Text) : Except ReadError (Event × Text) :=
  match text with
  | '-' :: _ => readComment text
  | '[' :: _ => readCData text
  | 'D' :: _ | 'd' :: _ => readDoctype text
  | _ => .error .unknownBang

/-- An end tag, after `</`. Space after the name is dropped unless there is nothing else. -/
def readEnd (text : Text) : Except ReadError (Event × Text) :=
  match breakScan? tagStep none text with
  | none => .error .unclosedTag
  | some (body, rest) =>
    match dropEndWhile isSpace body with
    | [] => .ok (.endTag body, rest)
    | name => .ok (.endTag name, rest)

/-- An instruction, after `<?`. The question mark that opens it cannot close it too. -/
def readInstruction (text : Text) : Except ReadError (Event × Text) :=
  match text with
  | '>' :: _ => .error .unclosedInstruction
  | _ =>
    match breakOn? ['?', '>'] text with
    | some (content, rest) => .ok (.instruction content, rest)
    | none => .error .unclosedInstruction

/-- A start tag or an empty one, after `<`. -/
def readStart (text : Text) : Except ReadError (Event × Text) :=
  match breakScan? tagStep none text with
  | none => .error .unclosedTag
  | some (body, rest) =>
    if body.getLast? = some '/' then .ok (.emptyTag body.dropLast, rest)
    else .ok (.startTag body, rest)

/-- One piece of markup, after `<`. -/
def readMarkup (text : Text) : Except ReadError (Event × Text) :=
  match text with
  | [] => .error .unclosedTag
  | '!' :: rest => readBang rest
  | '/' :: rest => readEnd rest
  | '?' :: rest => readInstruction rest
  | _ => readStart text

/-- The next event and the text after it; `none` at the end of the text. Space around text is no
part of it. -/
def next? (text : Text) : Except ReadError (Option (Event × Text)) :=
  match text.dropWhile isSpace with
  | [] => .ok none
  | '<' :: rest => (readMarkup rest).map some
  | body =>
    .ok (some (.text (dropEndWhile isSpace (body.takeWhile (· ≠ '<'))), body.dropWhile (· ≠ '<')))

/-- The names of the open elements after an event, innermost first. -/
def follow (names : List Text) : Event → Except ReadError (List Text)
  | .startTag content => .ok (tagName content :: names)
  | .endTag name =>
    match names with
    | [] => .error (.endWithoutStart name)
    | innermost :: outer =>
      if innermost = name then .ok outer else .error (.crossedEnd innermost name)
  | _ => .ok names

private theorem readComment_shorter (text rest : Text) (event : Event)
    (found : readComment text = .ok (event, rest)) : rest.length < text.length := by
  unfold readComment at found
  split at found
  · split at found
    · next content tail broken =>
      have bound := length_after_breakOn? _ _ _ _ broken
      simp only [Except.ok.injEq, Prod.mk.injEq] at found
      simp only [List.length_cons, List.length_nil, ← found.2] at bound ⊢
      omega
    · simp at found
  · simp at found

private theorem readCData_shorter (text rest : Text) (event : Event)
    (found : readCData text = .ok (event, rest)) : rest.length < text.length := by
  unfold readCData at found
  split at found
  · split at found
    · next content tail broken =>
      have bound := length_after_breakOn? _ _ _ _ broken
      simp only [Except.ok.injEq, Prod.mk.injEq] at found
      simp only [List.length_cons, List.length_nil, ← found.2] at bound ⊢
      omega
    · simp at found
  · simp at found

private theorem readDoctype_shorter (text rest : Text) (event : Event)
    (found : readDoctype text = .ok (event, rest)) : rest.length < text.length := by
  unfold readDoctype at found
  split at found
  · simp at found
  · next body tail broken =>
    have bound := length_after_breakScan? _ _ _ _ _ broken
    split at found
    · split at found
      · simp at found
      · simp only [Except.ok.injEq, Prod.mk.injEq] at found
        exact found.2 ▸ bound
    · simp at found

private theorem readBang_shorter (text rest : Text) (event : Event)
    (found : readBang text = .ok (event, rest)) : rest.length < text.length := by
  unfold readBang at found
  split at found
  · exact readComment_shorter _ _ _ found
  · exact readCData_shorter _ _ _ found
  · exact readDoctype_shorter _ _ _ found
  · exact readDoctype_shorter _ _ _ found
  · simp at found

private theorem readEnd_shorter (text rest : Text) (event : Event)
    (found : readEnd text = .ok (event, rest)) : rest.length < text.length := by
  unfold readEnd at found
  split at found
  · simp at found
  · next body tail broken =>
    have bound := length_after_breakScan? _ _ _ _ _ broken
    split at found <;> simp only [Except.ok.injEq, Prod.mk.injEq] at found <;> exact found.2 ▸ bound

private theorem readInstruction_shorter (text rest : Text) (event : Event)
    (found : readInstruction text = .ok (event, rest)) : rest.length < text.length := by
  unfold readInstruction at found
  split at found
  · simp at found
  · split at found
    · next content tail broken =>
      have bound := length_after_breakOn? _ _ _ _ broken
      simp only [Except.ok.injEq, Prod.mk.injEq] at found
      simp only [List.length_cons, List.length_nil, ← found.2] at bound ⊢
      omega
    · simp at found

private theorem readStart_shorter (text rest : Text) (event : Event)
    (found : readStart text = .ok (event, rest)) : rest.length < text.length := by
  unfold readStart at found
  split at found
  · simp at found
  · next body tail broken =>
    have bound := length_after_breakScan? _ _ _ _ _ broken
    split at found <;> simp only [Except.ok.injEq, Prod.mk.injEq] at found <;> exact found.2 ▸ bound

private theorem readMarkup_shorter (text rest : Text) (event : Event)
    (found : readMarkup text = .ok (event, rest)) : rest.length < text.length := by
  unfold readMarkup at found
  split at found
  · simp at found
  · exact Nat.lt_succ_of_lt (readBang_shorter _ _ _ found)
  · exact Nat.lt_succ_of_lt (readEnd_shorter _ _ _ found)
  · exact Nat.lt_succ_of_lt (readInstruction_shorter _ _ _ found)
  · exact readStart_shorter _ _ _ found

/-- Every event uses up some of the text, so reading ends. -/
theorem next?_shorter (text rest : Text) (event : Event)
    (found : next? text = .ok (some (event, rest))) : rest.length < text.length := by
  have bound : (text.dropWhile isSpace).length ≤ text.length :=
    (List.dropWhile_sublist isSpace).length_le
  unfold next? at found
  split at found
  · simp at found
  · next tail same =>
    cases read : readMarkup tail with
    | error reason => simp [read, Except.map] at found
    | ok outcome =>
      simp only [read, Except.map, Except.ok.injEq, Option.some.injEq] at found
      have shorter := readMarkup_shorter tail rest event (found ▸ read)
      simp only [same, List.length_cons] at bound
      omega
  · next nonempty unmarked =>
    simp only [Except.ok.injEq, Option.some.injEq, Prod.mk.injEq] at found
    rw [← found.2]
    cases body : text.dropWhile isSpace with
    | nil => exact absurd body nonempty
    | cons letter tail =>
      have other : letter ≠ '<' := fun same => unmarked tail (same ▸ body)
      have inner : (tail.dropWhile (· ≠ '<')).length ≤ tail.length :=
        (List.dropWhile_sublist _).length_le
      simp only [body, List.length_cons] at bound
      rw [List.dropWhile_cons, if_pos (by simpa using other)]
      omega

/-- The events of a text that stands inside the named open elements. -/
def readFrom (names : List Text) (text : Text) : Except ReadError (List Event) :=
  match _found : next? text with
  | .error reason => .error reason
  | .ok none => .ok []
  | .ok (some (event, rest)) =>
    match follow names event with
    | .error reason => .error reason
    | .ok inner => (readFrom inner rest).map (event :: ·)
termination_by text.length
decreasing_by exact next?_shorter text rest event _found

/-- The events of a document; one byte order mark before them is no part of it. -/
def read : Text → Except ReadError (List Event)
  | '\uFEFF' :: text => readFrom [] text
  | text => readFrom [] text

end MarkupOutline.Markup
