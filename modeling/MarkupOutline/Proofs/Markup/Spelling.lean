import MarkupOutline.Markup.Reader
import MarkupOutline.Proofs.Text.Scan

/-! Every event that was read has a written form that reads as the same event. This holds for each kind
of markup apart, since each kind ends in its own way. -/
namespace MarkupOutline.Markup

open Text

/-- Markup is recalled if its written form reads as itself, whatever follows. -/
def Recalled (event : Event) : Prop :=
  ∃ spelling, event.written = '<' :: spelling ∧
    ∀ more, readMarkup (spelling ++ more) = .ok (event, more)

private theorem recalled_of_readComment (text rest : Text) (event : Event)
    (found : readComment text = .ok (event, rest)) : Recalled event := by
  unfold readComment at found
  split at found
  · split at found
    · next body content tail broken =>
      simp only [Except.ok.injEq, Prod.mk.injEq] at found
      obtain ⟨rfl, rfl⟩ := found
      refine ⟨'!' :: '-' :: '-' :: (content ++ ['-', '-', '>']), rfl, fun more => ?_⟩
      have again := breakOn?_again _ _ _ _ more broken
      simp only [List.cons_append, readMarkup, readBang, readComment, again]
    · cases found
  · cases found

private theorem recalled_of_readCData (text rest : Text) (event : Event)
    (found : readCData text = .ok (event, rest)) : Recalled event := by
  unfold readCData at found
  split at found
  · split at found
    · next body content tail broken =>
      simp only [Except.ok.injEq, Prod.mk.injEq] at found
      obtain ⟨rfl, rfl⟩ := found
      refine ⟨'!' :: '[' :: 'C' :: 'D' :: 'A' :: 'T' :: 'A' :: '[' :: (content ++ [']', ']', '>']), rfl,
        fun more => ?_⟩
      have again := breakOn?_again _ _ _ _ more broken
      simp only [List.cons_append, readMarkup, readBang, readCData, again]
    · cases found
  · cases found

theorem tagStep_eq_none (quote : Option Char) (letter : Char) (stopped : tagStep quote letter = none) :
    quote = none ∧ letter = '>' := by
  cases quote with
  | some quote => cases stopped
  | none =>
    simp only [tagStep] at stopped
    split at stopped
    · next same => exact ⟨rfl, same⟩
    · split at stopped <;> cases stopped

theorem doctypeStep_eq_none (unclosed : Nat) (letter : Char)
    (stopped : doctypeStep unclosed letter = none) : unclosed = 0 ∧ letter = '>' := by
  simp only [doctypeStep] at stopped
  split at stopped
  · next same =>
    split at stopped
    · next closed => exact ⟨closed, same⟩
    · cases stopped
  · split at stopped <;> cases stopped

def ValidQuote (quote : Option Char) : Prop := ∀ mark ∈ quote, mark = '\x22' ∨ mark = '\x27'

theorem tagStep_valid (quote following : Option Char) (letter : Char) (valid : ValidQuote quote)
    (moved : tagStep quote letter = some following) : ValidQuote following := by
  intro mark membership
  cases quote with
  | none =>
    simp only [tagStep] at moved
    split at moved
    · cases moved
    · split at moved
      · next opens =>
        cases moved
        cases membership
        exact opens
      · cases moved
        cases membership
  | some quote =>
    simp only [tagStep, Option.some.injEq] at moved
    split at moved
    · subst moved
      cases membership
    · exact valid mark (moved ▸ membership)

private theorem tagWalk_valid (quote following : Option Char) (text : Text) (valid : ValidQuote quote)
    (walked : text.foldlM tagStep quote = some following) : ValidQuote following := by
  induction text generalizing quote with
  | nil =>
    cases walked
    exact valid
  | cons letter rest inductionHypothesis =>
    rw [List.foldlM_cons] at walked
    obtain ⟨next, moved, walked⟩ := Option.bind_eq_some_iff.mp walked
    exact inductionHypothesis next (tagStep_valid quote next letter valid moved) walked

theorem tagStep_space (quote : Option Char) (letter : Char) (valid : ValidQuote quote)
    (space : isSpace letter = true) : tagStep quote letter = some quote := by
  cases quote with
  | none =>
    simp only [isSpace, Bool.or_eq_true, beq_iff_eq] at space
    rcases space with ((rfl | rfl) | rfl) | rfl <;> rfl
  | some quote =>
    have different : letter ≠ quote := by
      intro same
      subst same
      rcases valid letter rfl with rfl | rfl <;> cases space
    simp [tagStep, different]

private theorem recalled_of_readEnd (text rest : Text) (event : Event)
    (found : readEnd text = .ok (event, rest)) : Recalled event := by
  -- What stands between `</` and `>` reads as a name if it is free of space at its end.
  have rereads : ∀ name, name.foldlM tagStep none = some none →
      (dropEndWhile isSpace name = [] ∨ dropEndWhile isSpace name = name) → Recalled (.endTag name) := by
    intro name walked trimmed
    refine ⟨'/' :: (name ++ ['>']), rfl, fun more => ?_⟩
    have again := breakScan?_of_walk tagStep none none name more '>' walked rfl
    simp only [List.cons_append, List.append_assoc, List.nil_append, readMarkup, readEnd, again]
    rcases trimmed with empty | same
    · rw [empty]
    · rw [same]
      cases name <;> rfl
  unfold readEnd at found
  split at found
  · cases found
  · next body tail broken =>
    obtain ⟨final, letter, walked, stopped, _⟩ := breakScan?_walk tagStep none text body tail broken
    obtain ⟨rfl, rfl⟩ := tagStep_eq_none final letter stopped
    split at found
    · next empty =>
      cases found
      exact rereads body walked (.inl empty)
    · next name trimmed =>
      cases found
      obtain ⟨spaces, split, blank⟩ := dropEndWhile_append isSpace body
      apply rereads _ _ (.inr (dropEndWhile_idempotent isSpace body))
      rw [split, List.foldlM_append] at walked
      obtain ⟨middle, front, behind⟩ := Option.bind_eq_some_iff.mp walked
      have valid := tagWalk_valid none middle _ (by rintro _ ⟨⟩) front
      rw [foldlM_idle tagStep middle spaces fun letter membership =>
        tagStep_space middle letter valid (blank letter membership)] at behind
      rw [front, behind]

private theorem recalled_of_readInstruction (text rest : Text) (event : Event)
    (found : readInstruction text = .ok (event, rest)) : Recalled event := by
  unfold readInstruction at found
  split at found
  · cases found
  · next opened =>
    split at found
    · next content tail broken =>
      simp only [Except.ok.injEq, Prod.mk.injEq] at found
      obtain ⟨rfl, rfl⟩ := found
      refine ⟨'?' :: (content ++ ['?', '>']), rfl, fun more => ?_⟩
      have again := breakOn?_again _ _ _ _ more broken
      have same := breakOn?_eq _ _ _ _ broken
      -- The content does not start with `>`, for it starts as the text did.
      have unclosed : ∀ tail, content ++ ['?', '>'] ++ more ≠ '>' :: tail := by
        intro other starts
        cases content with
        | nil => cases starts
        | cons first content =>
          simp only [List.cons_append, List.cons.injEq] at starts
          exact opened _ (same.trans (by rw [starts.1]; rfl))
      simp only [List.cons_append, readMarkup, readInstruction, again]
    · cases found

/-- A tag whose content does not start like other markup. -/
private theorem recalled_of_readStart (text rest : Text) (event : Event)
    (plain : ∀ letter tail, text = letter :: tail → letter ≠ '!' ∧ letter ≠ '/' ∧ letter ≠ '?')
    (found : readStart text = .ok (event, rest)) : Recalled event := by
  -- Whether the tag is empty or not, its body is what stood between `<` and `>`.
  have rereads : ∀ body, breakScan? tagStep none text = some (body, rest) →
      event.written = '<' :: (body ++ ['>']) →
      (if body.getLast? = some '/' then (.ok (.emptyTag body.dropLast, rest) : Except ReadError _)
        else .ok (.startTag body, rest)) = .ok (event, rest) → Recalled event := by
    intro body broken spelled same
    obtain ⟨final, letter, walked, stopped, split⟩ := breakScan?_walk tagStep none text body rest broken
    obtain ⟨rfl, rfl⟩ := tagStep_eq_none final letter stopped
    refine ⟨body ++ ['>'], spelled, fun more => ?_⟩
    have again := breakScan?_of_walk tagStep none none body more '>' walked rfl
    have dispatched : readMarkup (body ++ '>' :: more) = readStart (body ++ '>' :: more) := by
      cases body with
      | nil => rfl
      | cons first content =>
        obtain ⟨bang, slash, question⟩ := plain first _ split
        simp [readMarkup, bang, slash, question]
    rw [List.append_assoc, List.singleton_append, dispatched, readStart, again]
    dsimp only
    split at same
    · next empty =>
      cases same
      rw [if_pos empty]
    · next started =>
      cases same
      rw [if_neg started]
  unfold readStart at found
  split at found
  · cases found
  · next body tail broken =>
    split at found
    · next empty =>
      cases found
      refine rereads body broken ?_ (if_pos empty)
      have whole := List.dropLast_append_getLast? '/' empty
      rw [Event.written, ← whole]
      simp
    · next started =>
      cases found
      exact rereads body broken rfl (if_neg started)

theorem doctypeStep_space (unclosed : Nat) (letter : Char) (space : isSpace letter = true) :
    doctypeStep unclosed letter = some unclosed := by
  simp only [isSpace, Bool.or_eq_true, beq_iff_eq] at space
  rcases space with ((rfl | rfl) | rfl) | rfl <;> rfl

private theorem doctypeStep_keyword (keyword : Text) (unclosed : Nat)
    (spelled : keyword.map Char.toUpper = ['D', 'O', 'C', 'T', 'Y', 'P', 'E']) :
    keyword.foldlM doctypeStep unclosed = some unclosed := by
  apply foldlM_idle
  intro letter membership
  have upper : letter.toUpper ∈ ['D', 'O', 'C', 'T', 'Y', 'P', 'E'] :=
    spelled ▸ List.mem_map_of_mem membership
  have closing : letter ≠ '>' := by
    intro same
    subst same
    revert upper
    decide
  have opening : letter ≠ '<' := by
    intro same
    subst same
    revert upper
    decide
  simp [doctypeStep, closing, opening]

private theorem recalled_of_readDoctype (text rest : Text) (event : Event)
    (found : readDoctype text = .ok (event, rest)) : Recalled event := by
  unfold readDoctype at found
  split at found
  · cases found
  · next body tail broken =>
    obtain ⟨final, letter, walked, stopped, _⟩ := breakScan?_walk doctypeStep 0 text body tail broken
    obtain ⟨rfl, rfl⟩ := doctypeStep_eq_none final letter stopped
    split at found
    · next keyword =>
      split at found
      · cases found
      · next named =>
        cases found
        obtain ⟨content, defined⟩ : ∃ content, content = (body.drop 7).dropWhile isSpace := ⟨_, rfl⟩
        rw [← defined] at named ⊢
        have split : body = body.take 7 ++ ((body.drop 7).takeWhile isSpace ++ content) := by
          rw [defined, List.takeWhile_append_dropWhile, List.take_append_drop]
        -- Neither the keyword nor the space after it moves the count of open brackets.
        have inner : content.foldlM doctypeStep 0 = some 0 := by
          rw [split, List.foldlM_append, doctypeStep_keyword _ 0 keyword] at walked
          simp only [Option.bind_eq_bind, Option.bind_some, List.foldlM_append] at walked
          rwa [foldlM_idle doctypeStep 0 _ fun letter membership =>
            doctypeStep_space 0 letter (List.mem_takeWhile_imp membership)] at walked
        refine ⟨'!' :: (['D', 'O', 'C', 'T', 'Y', 'P', 'E', ' '] ++ content ++ ['>']), rfl, fun more => ?_⟩
        have again := breakScan?_of_walk doctypeStep 0 0
          (['D', 'O', 'C', 'T', 'Y', 'P', 'E', ' '] ++ content) more '>' (by
            rw [List.foldlM_append]
            exact inner) rfl
        have trimmed : (' ' :: content).dropWhile isSpace = content := by
          rw [defined]
          exact List.dropWhile_idempotent isSpace (body.drop 7)
        simp only [List.cons_append, List.nil_append, List.append_assoc] at again ⊢
        simp only [readMarkup, readBang, readDoctype, again]
        rw [if_pos (by rfl)]
        simp only [List.drop_succ_cons, List.drop_zero, trimmed]
    · cases found

theorem recalled_of_readMarkup (text rest : Text) (event : Event)
    (found : readMarkup text = .ok (event, rest)) : Recalled event := by
  unfold readMarkup at found
  split at found
  · cases found
  · unfold readBang at found
    split at found
    · exact recalled_of_readComment _ _ _ found
    · exact recalled_of_readCData _ _ _ found
    · exact recalled_of_readDoctype _ _ _ found
    · exact recalled_of_readDoctype _ _ _ found
    · cases found
  · exact recalled_of_readEnd _ _ _ found
  · exact recalled_of_readInstruction _ _ _ found
  · next _ bang slash question =>
    apply recalled_of_readStart _ _ _ _ found
    intro letter tail same
    subst same
    refine ⟨?_, ?_, ?_⟩
    · intro same
      subst same
      exact bang tail rfl
    · intro same
      subst same
      exact slash tail rfl
    · intro same
      subst same
      exact question tail rfl

end MarkupOutline.Markup
