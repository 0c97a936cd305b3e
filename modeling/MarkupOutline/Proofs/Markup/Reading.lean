import MarkupOutline.Proofs.Markup.ElementTree

/-! A text is read one event at a time by a reader that keeps the names of the open elements itself. Whatever it has
read so far, the events open just these elements, each with a tree of whole elements behind its start tag. -/
namespace MarkupOutline.Markup

open Pretty

/-- Where a reader stands in a text, and the names of the elements that it takes to be open, innermost first. -/
structure Reader where
  names : List Text
  rest : Text

namespace Reader

/-- One byte order mark before a document is no part of it. -/
def start : Text → Reader
  | '\uFEFF' :: text => ⟨[], text⟩
  | text => ⟨[], text⟩

/-- The next event and where the reader stands behind it; `none` at the end of the text. -/
def next (reader : Reader) : Except ReadError (Option (Event × Reader)) :=
  match next? reader.rest with
  | .error reason => .error reason
  | .ok none => .ok none
  | .ok (some (event, rest)) =>
    match follow reader.names event with
    | .error reason => .error reason
    | .ok names => .ok (some (event, ⟨names, rest⟩))

/-- A reader gives some events in turn and stands behind them then. -/
inductive Reads (reader : Reader) : List Event → Reader → Prop where
  | none : Reads reader [] reader
  | more {events : List Event} {middle later : Reader} {event : Event} (front : Reads reader events middle)
      (given : middle.next = .ok (some (event, later))) : Reads reader (events ++ [event]) later

theorem readFrom_eq (reader : Reader) : readFrom reader.names reader.rest =
    match reader.next with
    | .error reason => .error reason
    | .ok none => .ok []
    | .ok (some (event, later)) => (readFrom later.names later.rest).map (event :: ·) := by
  rw [readFrom, next]
  split
  · next reason failed => rw [failed]
  · next ended => rw [ended]
  · next event rest found =>
    rw [found]
    dsimp only
    cases follow reader.names event <;> rfl

theorem read_eq (text : Text) : read text = readFrom (start text).names (start text).rest := by
  cases text with
  | nil => rfl
  | cons letter rest =>
    by_cases marked : letter = '\uFEFF'
    · rw [marked]
      rfl
    · simp [Markup.read, start, marked]

theorem next_cases {reader later : Reader} {event : Event} (given : reader.next = .ok (some (event, later))) :
    next? reader.rest = .ok (some (event, later.rest)) ∧ follow reader.names event = .ok later.names := by
  rw [next] at given
  split at given
  · cases given
  · cases given
  · next found rest known =>
    split at given
    · cases given
    · next names followed =>
      cases given
      exact ⟨known, followed⟩

variable {reader middle later : Reader} {events : List Event} {event : Event}

theorem Reads.cons (given : reader.next = .ok (some (event, middle))) (reads : middle.Reads events later) :
    reader.Reads (event :: events) later := by
  induction reads with
  | none => exact .more .none given
  | more front given inductionHypothesis => exact .more inductionHypothesis given

theorem Reads.readFrom_eq (reads : reader.Reads events later) :
    readFrom reader.names reader.rest = (readFrom later.names later.rest).map (events ++ ·) := by
  induction reads with
  | none => cases readFrom reader.names reader.rest <;> rfl
  | @more events middle later event front given inductionHypothesis =>
    rw [inductionHypothesis, middle.readFrom_eq, given]
    dsimp only
    cases readFrom later.names later.rest with
    | error reason => rfl
    | ok more => exact congrArg Except.ok (List.append_cons events event more)

/-- A reader comes to the end of its text or to a fault. -/
theorem exists_reads (reader : Reader) : ∃ events later, reader.Reads events later ∧
    (later.next = .ok none ∨ ∃ reason, later.next = .error reason) := by
  induction size : reader.rest.length using Nat.strongRecOn generalizing reader with
  | ind size inductionHypothesis =>
    cases outcome : reader.next with
    | error reason => exact ⟨[], reader, .none, .inr ⟨reason, outcome⟩⟩
    | ok given =>
      cases given with
      | none => exact ⟨[], reader, .none, .inl outcome⟩
      | some given =>
        obtain ⟨event, middle⟩ := given
        have shorter := readerLaws.shorter _ _ _ (next_cases outcome).1
        obtain ⟨events, later, reads, stopped⟩ := inductionHypothesis _ (size ▸ shorter) middle rfl
        exact ⟨event :: events, later, reads.cons outcome, stopped⟩

theorem readFrom_of_ended (reads : reader.Reads events later) (ended : later.next = .ok none) :
    readFrom reader.names reader.rest = .ok events := by
  rw [reads.readFrom_eq, later.readFrom_eq, ended]
  exact congrArg Except.ok (List.append_nil events)

theorem readFrom_of_fault {reason : ReadError} (reads : reader.Reads events later)
    (fault : later.next = .error reason) :
    readFrom reader.names reader.rest = .error reason := by
  rw [reads.readFrom_eq, later.readFrom_eq, fault]
  rfl

end Reader

/-- A text is read to its end, and these are its events. -/
def ReadsAs (text : Text) (events : List Event) : Prop :=
  ∃ later, (Reader.start text).Reads events later ∧ later.next = .ok none

/-- Reading comes to a fault before the end of a text. -/
def FaultsWith (text : Text) (reason : ReadError) : Prop :=
  ∃ events later, (Reader.start text).Reads events later ∧ later.next = .error reason

theorem read_eq_ok_iff (text : Text) (events : List Event) : read text = .ok events ↔ ReadsAs text events := by
  rw [Reader.read_eq]
  constructor
  · intro known
    obtain ⟨found, later, reads, ended | ⟨reason, fault⟩⟩ := (Reader.start text).exists_reads
    · cases known.symm.trans (Reader.readFrom_of_ended reads ended)
      exact ⟨later, reads, ended⟩
    · cases known.symm.trans (Reader.readFrom_of_fault reads fault)
  · rintro ⟨later, reads, ended⟩
    exact Reader.readFrom_of_ended reads ended

theorem read_eq_error_iff (text : Text) (reason : ReadError) : read text = .error reason ↔ FaultsWith text reason := by
  rw [Reader.read_eq]
  constructor
  · intro known
    obtain ⟨found, later, reads, ended | ⟨other, fault⟩⟩ := (Reader.start text).exists_reads
    · cases known.symm.trans (Reader.readFrom_of_ended reads ended)
    · cases known.symm.trans (Reader.readFrom_of_fault reads fault)
      exact ⟨found, later, reads, fault⟩
  · rintro ⟨found, later, reads, fault⟩
    exact Reader.readFrom_of_fault reads fault

theorem openElements_follow {names inside : List Text} {event : Event} (followed : follow names event = .ok inside) :
    openElements names [event] = .ok inside := by
  cases event with
  | startTag | emptyTag | text | comment | cdata | instruction | doctype =>
    cases followed
    rfl
  | endTag name =>
    obtain rfl := (readerLaws.closes names inside name).mp followed
    rfl

/-- The events read so far leave just those elements open that the reader takes to be open. -/
theorem Reader.Reads.openElements_eq {reader later : Reader} {events : List Event} (reads : reader.Reads events later) :
    openElements reader.names events = .ok later.names := by
  induction reads with
  | none => rfl
  | more front given inductionHypothesis =>
    rw [openElements_append _ _ _ _ inductionHypothesis]
    exact openElements_follow (next_cases given).2

namespace ElementTree

def append : ElementTree → ElementTree → ElementTree
  | nil, behind => behind
  | leaf event single rest, behind => leaf event single (rest.append behind)
  | element content inside rest, behind => element content inside (rest.append behind)

theorem events_append (tree behind : ElementTree) : (tree.append behind).events = tree.events ++ behind.events := by
  induction tree with
  | nil => rfl
  | leaf event single rest restHypothesis => simp [append, events, restHypothesis]
  | element content inside rest _ restHypothesis => simp [append, events, restHypothesis]

end ElementTree

/-- Events that leave the named elements open: behind the start tag of each of them stand whole elements up to the
start tag of the next one. -/
inductive Nested : List Text → List Event → Prop where
  | whole (tree : ElementTree) : Nested [] tree.events
  | inside {names : List Text} {front : List Event} (outer : Nested names front) (content : Text) (tree : ElementTree) :
      Nested (tagName content :: names) (front ++ .startTag content :: tree.events)

theorem Nested.append {names : List Text} {events : List Event} (nested : Nested names events) (more : ElementTree) :
    Nested names (events ++ more.events) := by
  cases nested with
  | whole tree =>
    rw [← ElementTree.events_append]
    exact .whole _
  | inside outer content tree =>
    rw [List.append_assoc, List.cons_append, ← ElementTree.events_append]
    exact .inside outer content _

theorem Nested.follow {names inside : List Text} {events : List Event} {event : Event} (nested : Nested names events)
    (followed : follow names event = .ok inside) : Nested inside (events ++ [event]) := by
  cases event with
  | startTag content =>
    cases followed
    exact .inside nested content .nil
  | endTag name =>
    cases nested with
    | whole tree => cases followed
    | @inside outside front outer content tree =>
      obtain ⟨rfl, rfl⟩ := List.cons.inj ((readerLaws.closes _ inside name).mp followed)
      -- The end tag makes a whole element of the start tag and all that stands behind it.
      have closed := outer.append (.element content tree .nil)
      simpa [ElementTree.events] using closed
  | text | comment | cdata | instruction | doctype | emptyTag =>
    cases followed
    exact nested.append (.leaf _ rfl .nil)

theorem Reader.Reads.nested {reader later : Reader} {events : List Event} (reads : reader.Reads events later)
    (outermost : reader.names = []) : Nested later.names events := by
  induction reads with
  | none =>
    rw [outermost]
    exact .whole .nil
  | more front given inductionHypothesis => exact inductionHypothesis.follow (next_cases given).2

theorem Reader.names_start (text : Text) : (start text).names = [] := by
  unfold start
  split <;> rfl

theorem openElements_of_reads {text : Text} {later : Reader} {events : List Event}
    (reads : (Reader.start text).Reads events later) : openElements [] events = .ok later.names :=
  Reader.names_start text ▸ reads.openElements_eq

end MarkupOutline.Markup
