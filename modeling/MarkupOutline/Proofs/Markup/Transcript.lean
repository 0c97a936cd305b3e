import MarkupOutline.Proofs.Markup.ReaderLaws

/-! A transcript is a list of events that reading can give, with the names of the elements open before each. What a
lawful reader gives is a transcript, and so is what is read here. -/
namespace MarkupOutline.Markup

section Laws

variable (next : Text → Except ReadError (Option (Event × Text)))
  (follow : List Text → Event → Except ReadError (List Text))

/-- A reader gives some events of a text inside the named elements, and then it is at the end of the text. -/
inductive Gives : List Text → Text → List Event → Prop where
  | ended {names : List Text} {text : Text} (finished : next text = .ok none) : Gives names text []
  | more {names inside : List Text} {text rest : Text} {events : List Event} {event : Event}
      (given : next text = .ok (some (event, rest))) (followed : follow names event = .ok inside)
      (onward : Gives inside rest events) : Gives names text (event :: events)

/-- What reading inside the named elements can give. -/
inductive Transcript : List Text → List Event → Prop where
  | done (names : List Text) : Transcript names []
  | markup {names inside : List Text} {events : List Event} (event : Event) (reread : Reread next event)
      (followed : follow names event = .ok inside) (rest : Transcript inside events) :
      Transcript names (event :: events)
  /-- No text follows text. -/
  | text {names : List Text} {events : List Event} (content : Text) (trimmed : Trimmed content)
      (apart : ∀ later ∈ events.head?, Reread next later) (rest : Transcript names events) :
      Transcript names (.text content :: events)

/-- Text that is read is trimmed, and a start tag does not end in a slash. -/
structure Readable (event : Event) : Prop where
  trimmed : ∀ content, event = .text content → Trimmed content
  unslashed : ∀ content, event = .startTag content → content.getLast? ≠ some '/'

variable {next follow} {names : List Text} {text : Text} {events : List Event} (laws : ReaderLaws next follow)

include laws

private theorem ReaderLaws.reread_first (begins : AtMarkup text) (gives : Gives next follow names text events) :
    ∀ event ∈ events.head?, Reread next event := by
  intro event member
  cases gives with
  | ended => cases member
  | more given followed onward =>
    cases member
    exact laws.markup _ _ _ given fun content same => laws.textless _ _ content begins (same ▸ given)

theorem ReaderLaws.transcript (gives : Gives next follow names text events) :
    Transcript next follow names events := by
  induction gives with
  | ended => exact .done _
  | @more names inside text rest events event given followed onward inductionHypothesis =>
    by_cases kind : ∀ content, event ≠ .text content
    · exact .markup event (laws.markup _ _ _ given kind) followed inductionHypothesis
    · obtain ⟨content, same⟩ := not_forall_not.mp kind
      subst same
      obtain ⟨trimmed, ends⟩ := laws.trimmed _ _ _ given
      cases (laws.keeps names (.text content) rfl).symm.trans followed
      exact .text content trimmed (laws.reread_first ends onward) inductionHypothesis

theorem Transcript.readable (transcript : Transcript next follow names events) :
    ∀ event ∈ events, Readable event := by
  intro event member
  induction transcript with
  | done => cases member
  | markup first reread followed rest inductionHypothesis =>
    rcases List.mem_cons.mp member with rfl | later
    · have given := reread.again [] [] nofun
      refine ⟨?_, ?_⟩
      · rintro content rfl
        exact (laws.trimmed _ _ _ given).1
      · rintro content rfl
        exact laws.unslashed _ _ _ given
    · exact inductionHypothesis later
  | text content trimmed apart rest inductionHypothesis =>
    rcases List.mem_cons.mp member with rfl | later
    · refine ⟨?_, nofun⟩
      rintro _ ⟨⟩
      exact trimmed
    · exact inductionHypothesis later

end Laws

/-- What is read of a text is what its reader gives, up to the end of the text. -/
theorem readFrom_eq_ok_iff (names : List Text) (text : Text) (events : List Event) :
    readFrom names text = .ok events ↔ Gives next? follow names text events := by
  constructor
  · intro read
    induction events generalizing names text with
    | nil =>
      rw [readFrom] at read
      split at read
      · cases read
      · next finished => exact .ended finished
      · split at read
        · cases read
        · obtain ⟨_, _, same⟩ := map_eq_ok _ _ _ read
          cases same
    | cons event others inductionHypothesis =>
      rw [readFrom] at read
      split at read
      · cases read
      · cases read
      · next first rest given =>
        split at read
        · cases read
        · next inside followed =>
          obtain ⟨later, onward, same⟩ := map_eq_ok _ _ _ read
          cases same
          exact .more given followed (inductionHypothesis inside rest onward)
  · intro gives
    induction gives with
    | ended finished =>
      rw [readFrom]
      split
      · next failed => cases failed.symm.trans finished
      · rfl
      · next found => cases found.symm.trans finished
    | more given followed onward inductionHypothesis =>
      rw [readFrom]
      split
      · next failed => cases failed.symm.trans given
      · next finished => cases finished.symm.trans given
      · next other rest found =>
        cases found.symm.trans given
        rw [followed]
        dsimp only
        rw [inductionHypothesis]
        rfl

end MarkupOutline.Markup
