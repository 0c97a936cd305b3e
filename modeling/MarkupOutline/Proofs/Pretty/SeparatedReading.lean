import MarkupOutline.Pretty.Format
import MarkupOutline.Proofs.Markup.Transcript

/-! Reading a text in which other space stands for the line feeds. Space neither starts markup nor ends it,
so the same events are read, with the line feeds in their contents replaced as well. -/
namespace MarkupOutline

namespace Markup.Event

def map (convert : Text → Text) : Event → Event
  | startTag content => startTag (convert content)
  | endTag name => endTag (convert name)
  | emptyTag content => emptyTag (convert content)
  | text content => text (convert content)
  | comment content => comment (convert content)
  | cdata content => cdata (convert content)
  | instruction content => instruction (convert content)
  | doctype content => doctype (convert content)

end Markup.Event

namespace Pretty

open Text Markup

theorem isSpace_uniform (letter : Char) (space : isSpace letter = true) : isSpace letter = isSpace '\n' := space

private theorem solid_uniform (letter : Char) (space : isSpace letter = true) : (!isSpace letter) = !isSpace '\n' := by
  rw [isSpace_uniform letter space]

private theorem unmarked_uniform (letter : Char) (space : isSpace letter = true) :
    decide (letter ≠ '<') = decide ('\n' ≠ '<') := by
  have other : letter ≠ '<' := by
    rintro rfl
    cases space
  simp [other]

theorem lineFeed_notMem_tagName (content : Text) : '\n' ∉ tagName content := fun here => by
  simpa [isSpace] using List.mem_takeWhile_imp here

/-- The separator of the style is space and not empty. -/
structure Style.Spaced (style : Style) : Prop where
  nonempty : style.lineBreak ≠ []
  space : ∀ letter ∈ style.lineBreak, isSpace letter = true

namespace Style

section Separate

variable (style : Style)

theorem separate_append (front rest : Text) :
    style.separate (front ++ rest) = style.separate front ++ style.separate rest :=
  List.flatMap_append

theorem separate_lineFeed_cons (rest : Text) :
    style.separate ('\n' :: rest) = style.lineBreak ++ style.separate rest := rfl

theorem separate_cons (letter : Char) (rest : Text) (other : letter ≠ '\n') :
    style.separate (letter :: rest) = letter :: style.separate rest := by
  rw [separate, List.flatMap_cons, if_neg other]
  rfl

theorem separate_unbroken (text : Text) (unbroken : '\n' ∉ text) : style.separate text = text := by
  induction text with
  | nil => rfl
  | cons letter rest inductionHypothesis =>
    rw [List.mem_cons, not_or] at unbroken
    rw [separate_cons _ _ _ (Ne.symm unbroken.1), inductionHypothesis unbroken.2]

theorem lineFeed_mem_separate_iff (text : Text) :
    '\n' ∈ style.separate text ↔ '\n' ∈ text ∧ '\n' ∈ style.lineBreak := by
  rw [separate, List.mem_flatMap]
  constructor
  · rintro ⟨letter, here, inside⟩
    split at inside
    · next same => exact ⟨same ▸ here, inside⟩
    · next other => exact absurd (List.mem_singleton.mp inside).symm other
  · rintro ⟨here, inside⟩
    exact ⟨'\n', here, inside⟩

theorem reverse_separate (text : Text) : (style.separate text).reverse =
    ({ style with lineBreak := style.lineBreak.reverse } : Style).separate text.reverse := by
  rw [separate, List.reverse_flatMap, separate]
  congr 1
  funext letter
  simp only [Function.comp_apply]
  split <;> rfl

private theorem take_separate (keyword : Text)
    (spelled : keyword.map Char.toUpper = ['D', 'O', 'C', 'T', 'Y', 'P', 'E'])
    (rest : Text) : (style.separate (keyword ++ rest)).take 7 = keyword ∧
      (style.separate (keyword ++ rest)).drop 7 = style.separate rest := by
  have size := congrArg List.length spelled
  have unbroken : '\n' ∉ keyword := by
    intro here
    have upper : '\n'.toUpper ∈ ['D', 'O', 'C', 'T', 'Y', 'P', 'E'] := spelled ▸ List.mem_map_of_mem here
    revert upper
    decide
  rw [List.length_map] at size
  rw [separate_append, separate_unbroken _ _ unbroken]
  exact ⟨List.take_left' size, List.drop_left' size⟩

end Separate

namespace Spaced

variable {style : Style} (spaced : style.Spaced)
include spaced

theorem lineBreak_cons : ∃ first rest, style.lineBreak = first :: rest ∧ isSpace first = true := by
  cases same : style.lineBreak with
  | nil => exact absurd same spaced.nonempty
  | cons first rest => exact ⟨first, rest, rfl, spaced.space first (by simp [same])⟩

theorem reverse : ({ style with lineBreak := style.lineBreak.reverse } : Style).Spaced :=
  ⟨by simpa using spaced.nonempty, fun letter here => spaced.space letter (List.mem_reverse.mp here)⟩

theorem separate_ne_nil (text : Text) (filled : text ≠ []) : style.separate text ≠ [] := by
  cases text with
  | nil => exact absurd rfl filled
  | cons letter rest =>
    by_cases feed : letter = '\n'
    · subst feed
      simp [separate_lineFeed_cons, spaced.nonempty]
    · simp [separate_cons _ _ _ feed]

section Uniform

variable {chosen : Char → Bool} (uniform : ∀ letter, isSpace letter = true → chosen letter = chosen '\n')
include uniform

theorem takeWhile_separate (text : Text) :
    (style.separate text).takeWhile chosen = style.separate (text.takeWhile chosen) := by
  induction text with
  | nil => rfl
  | cons letter rest inductionHypothesis =>
    by_cases feed : letter = '\n'
    · subst feed
      rw [separate_lineFeed_cons]
      by_cases taken : chosen '\n' = true
      · rw [List.takeWhile_append_of_pos fun letter here => (uniform letter (spaced.space letter here)).trans taken,
          inductionHypothesis, List.takeWhile_cons_of_pos taken, separate_lineFeed_cons]
      · obtain ⟨first, others, same, space⟩ := spaced.lineBreak_cons
        rw [same, List.cons_append, List.takeWhile_cons_of_neg (by rwa [uniform first space]),
          List.takeWhile_cons_of_neg taken]
        rfl
    · rw [separate_cons _ _ _ feed]
      by_cases taken : chosen letter = true
      · rw [List.takeWhile_cons_of_pos taken, List.takeWhile_cons_of_pos taken, inductionHypothesis,
          separate_cons _ _ _ feed]
      · rw [List.takeWhile_cons_of_neg taken, List.takeWhile_cons_of_neg taken]
        rfl

theorem dropWhile_separate (text : Text) :
    (style.separate text).dropWhile chosen = style.separate (text.dropWhile chosen) := by
  have whole := List.takeWhile_append_dropWhile (p := chosen) (l := style.separate text)
  have parts := congrArg style.separate (List.takeWhile_append_dropWhile (p := chosen) (l := text))
  rw [separate_append, ← spaced.takeWhile_separate uniform] at parts
  exact List.append_cancel_left (whole.trans parts.symm)

theorem dropEndWhile_separate (text : Text) :
    dropEndWhile chosen (style.separate text) = style.separate (dropEndWhile chosen text) := by
  rw [dropEndWhile, reverse_separate, spaced.reverse.dropWhile_separate uniform, dropEndWhile, List.reverse_eq_iff,
    reverse_separate, List.reverse_reverse]

end Uniform

theorem tagName_separate (content : Text) : tagName (style.separate content) = tagName content := by
  rw [tagName, spaced.takeWhile_separate solid_uniform]
  exact separate_unbroken _ _ (lineFeed_notMem_tagName content)

theorem prefix_separate_iff {mark : Text} (solid : ∀ letter ∈ mark, isSpace letter = false) (text : Text) :
    mark <+: style.separate text ↔ mark <+: text := by
  induction text generalizing mark with
  | nil => rfl
  | cons letter rest inductionHypothesis =>
    cases mark with
    | nil => simp
    | cons sign others =>
      have dark := solid sign (by simp)
      by_cases feed : letter = '\n'
      · subst feed
        obtain ⟨first, more, same, space⟩ := spaced.lineBreak_cons
        rw [separate_lineFeed_cons, same, List.cons_append, List.cons_prefix_cons, List.cons_prefix_cons]
        have here : sign ≠ first := fun equal => by simp [equal, space] at dark
        have there : sign ≠ '\n' := fun equal => by simp [equal, isSpace] at dark
        simp [here, there]
      · rw [separate_cons _ _ _ feed, List.cons_prefix_cons, List.cons_prefix_cons,
          inductionHypothesis fun letter here => solid letter (by simp [here])]

theorem starts_separate {sign : Char} {text tail : Text} (solid : isSpace sign = false)
    (same : style.separate text = sign :: tail) : ∃ rest, text = sign :: rest := by
  have starts : [sign] <+: text := (spaced.prefix_separate_iff (by simpa using solid) text).mp ⟨tail, same.symm⟩
  obtain ⟨rest, rfl⟩ := starts
  exact ⟨rest, rfl⟩

private theorem ends_separate {sign : Char} {text front : Text} (solid : isSpace sign = false)
    (same : style.separate text = front ++ [sign]) : ∃ before, text = before ++ [sign] := by
  have turned := congrArg List.reverse same
  rw [reverse_separate, List.reverse_concat] at turned
  obtain ⟨rest, starts⟩ := spaced.reverse.starts_separate solid turned
  exact ⟨rest.reverse, by rw [← List.reverse_reverse text, starts, List.reverse_cons]⟩

/-- A mark without space in it is found where it was. -/
theorem breakOn?_separate (first : Char) (mark : Text) (solid : ∀ letter ∈ first :: mark, isSpace letter = false)
    (text : Text) : breakOn? (first :: mark) (style.separate text) =
    (breakOn? (first :: mark) text).map (Prod.map style.separate style.separate) := by
  induction text with
  | nil => rfl
  | cons letter rest inductionHypothesis =>
    have same := spaced.prefix_separate_iff solid (letter :: rest)
    by_cases starts : first :: mark <+: letter :: rest
    · obtain ⟨tail, split⟩ := starts
      have unbroken : '\n' ∉ first :: mark := fun here => by simpa [isSpace] using solid '\n' here
      rw [← split, separate_append, separate_unbroken _ _ unbroken, breakOn?_mark, breakOn?_mark]
      rfl
    · rw [breakOn?_cons _ _ _ starts, Option.map_map]
      by_cases feed : letter = '\n'
      · subst feed
        have absent : first ∉ style.lineBreak := fun here => by
          simpa [spaced.space first here] using solid first (by simp)
        rw [separate_lineFeed_cons, breakOn?_behind _ _ _ _ absent, inductionHypothesis, Option.map_map]
        rfl
      · rw [separate_cons _ _ _ feed] at same ⊢
        rw [breakOn?_cons _ _ _ (mt same.mp starts), inductionHypothesis, Option.map_map]
        congr 1
        funext pair
        simp [Prod.map, separate_cons _ _ _ feed]

section Walk

variable {State : Type} {step : State → Char → Option State} {Valid : State → Prop}
  (kept : ∀ state letter next, Valid state → step state letter = some next → Valid next)
  (idle : ∀ state letter, Valid state → isSpace letter = true → step state letter = some state)
include kept idle

private theorem foldlM_separate (state final : State) (text : Text) (valid : Valid state)
    (walked : text.foldlM step state = some final) : (style.separate text).foldlM step state = some final := by
  induction text generalizing state with
  | nil => exact walked
  | cons letter rest inductionHypothesis =>
    rw [List.foldlM_cons] at walked
    obtain ⟨next, moved, walked⟩ := Option.bind_eq_some_iff.mp walked
    by_cases feed : letter = '\n'
    · subst feed
      rw [idle state '\n' valid rfl] at moved
      cases moved
      rw [separate_lineFeed_cons, List.foldlM_append,
        foldlM_idle step state _ fun letter here => idle state letter valid (spaced.space letter here)]
      exact inductionHypothesis state valid walked
    · rw [separate_cons _ _ _ feed, List.foldlM_cons, moved]
      exact inductionHypothesis next (kept state letter next valid moved) walked

theorem breakScan?_separate (stops : ∀ state letter, step state letter = none → letter = '>') (state : State)
    (text before after : Text) (valid : Valid state) (found : breakScan? step state text = some (before, after)) :
    breakScan? step state (style.separate text) = some (style.separate before, style.separate after) := by
  obtain ⟨final, letter, walked, stopped, rfl⟩ := breakScan?_walk step state text before after found
  obtain rfl := stops final letter stopped
  rw [separate_append, separate_cons _ _ _ (by decide)]
  exact breakScan?_of_walk step state final _ _ '>' (spaced.foldlM_separate kept idle state final before valid walked)
    stopped

end Walk

theorem breakScan?_tagStep (text before after : Text)
    (found : breakScan? tagStep none text = some (before, after)) :
    breakScan? tagStep none (style.separate text) = some (style.separate before, style.separate after) :=
  spaced.breakScan?_separate (fun quote letter next valid moved => tagStep_valid quote next letter valid moved)
    tagStep_space (fun quote letter stopped => (tagStep_eq_none quote letter stopped).2) none text before after
    (by rintro _ ⟨⟩) found

private theorem breakScan?_doctypeStep (text before after : Text)
    (found : breakScan? doctypeStep 0 text = some (before, after)) :
    breakScan? doctypeStep 0 (style.separate text) = some (style.separate before, style.separate after) :=
  spaced.breakScan?_separate (fun _ _ _ _ _ => trivial) (fun unclosed letter _ => doctypeStep_space unclosed letter)
    (fun unclosed letter stopped => (doctypeStep_eq_none unclosed letter stopped).2) 0 text before after trivial found

end Spaced

/-- A reader that reads the same events in a separated text, with their contents separated too. -/
def Separates (style : Style) (reader : Text → Except ReadError (Event × Text)) : Prop :=
  ∀ text rest event, reader text = .ok (event, rest) →
    reader (style.separate text) = .ok (event.map style.separate, style.separate rest)

namespace Spaced

variable {style : Style} (spaced : style.Spaced)
include spaced

private theorem separates_readComment : style.Separates readComment := by
  intro text rest event found
  unfold readComment at found
  split at found
  · split at found
    · next body _ content tail broken =>
      cases found
      have again := spaced.breakOn?_separate '-' ['-', '>'] (by simp [isSpace]) body
      rw [broken, Option.map_some] at again
      simp only [separate_cons, ne_eq, Char.reduceEq, not_false_eq_true, readComment, again]
      rfl
    · cases found
  · cases found

private theorem separates_readCData : style.Separates readCData := by
  intro text rest event found
  unfold readCData at found
  split at found
  · split at found
    · next body _ content tail broken =>
      cases found
      have again := spaced.breakOn?_separate ']' [']', '>'] (by simp [isSpace]) body
      rw [broken, Option.map_some] at again
      simp only [separate_cons, ne_eq, Char.reduceEq, not_false_eq_true, readCData, again]
      rfl
    · cases found
  · cases found

private theorem separates_readDoctype : style.Separates readDoctype := by
  intro text rest event found
  unfold readDoctype at found
  split at found
  · cases found
  · next body tail broken =>
    split at found
    · next spelled =>
      split at found
      · cases found
      · next named =>
        cases found
        obtain ⟨front, behind⟩ := style.take_separate (body.take 7) spelled (body.drop 7)
        rw [List.take_append_drop] at front behind
        simp only [readDoctype, spaced.breakScan?_doctypeStep _ _ _ broken, front, behind, spelled, if_true,
          spaced.dropWhile_separate isSpace_uniform]
        split
        · next empty => exact absurd empty (spaced.separate_ne_nil _ named)
        · rfl
    · cases found

private theorem separates_readEnd : style.Separates readEnd := by
  intro text rest event found
  unfold readEnd at found
  split at found
  · cases found
  · next body tail broken =>
    have trimmed := spaced.dropEndWhile_separate isSpace_uniform body
    simp only [readEnd, spaced.breakScan?_tagStep _ _ _ broken, trimmed]
    split at found
    · next empty =>
      cases found
      rw [empty]
      rfl
    · next name filled =>
      cases found
      split
      · next empty => exact absurd empty (spaced.separate_ne_nil _ filled)
      · rfl

private theorem separates_readInstruction : style.Separates readInstruction := by
  intro text rest event found
  unfold readInstruction at found
  split at found
  · cases found
  · next opened =>
    split at found
    · next _ content tail broken =>
      cases found
      have again := spaced.breakOn?_separate '?' ['>'] (by simp [isSpace]) text
      rw [broken, Option.map_some] at again
      unfold readInstruction
      split
      · next same =>
        obtain ⟨rest, starts⟩ := spaced.starts_separate rfl same
        exact absurd starts (opened rest)
      · rw [again]
        rfl
    · cases found

private theorem separates_readStart : style.Separates readStart := by
  intro text rest event found
  unfold readStart at found
  split at found
  · cases found
  · next body tail broken =>
    simp only [readStart, spaced.breakScan?_tagStep _ _ _ broken]
    split at found
    · next empty =>
      cases found
      obtain ⟨front, rfl⟩ := List.getLast?_eq_some_iff.mp empty
      have slash : style.separate ['/'] = ['/'] := rfl
      rw [separate_append, slash, List.getLast?_concat, if_pos rfl, List.dropLast_concat, List.dropLast_concat]
      rfl
    · next started =>
      cases found
      rw [if_neg]
      · rfl
      · intro last
        obtain ⟨front, same⟩ := List.getLast?_eq_some_iff.mp last
        obtain ⟨before, rfl⟩ := spaced.ends_separate rfl same
        exact started List.getLast?_concat

private theorem separates_readBang : style.Separates readBang := by
  intro text rest event found
  unfold readBang at found
  split at found
  · have again := spaced.separates_readComment _ _ _ found
    rw [separate_cons _ _ _ (by decide)] at again ⊢
    exact again
  · have again := spaced.separates_readCData _ _ _ found
    rw [separate_cons _ _ _ (by decide)] at again ⊢
    exact again
  · have again := spaced.separates_readDoctype _ _ _ found
    rw [separate_cons _ _ _ (by decide)] at again ⊢
    exact again
  · have again := spaced.separates_readDoctype _ _ _ found
    rw [separate_cons _ _ _ (by decide)] at again ⊢
    exact again
  · cases found

private theorem separates_readMarkup : style.Separates readMarkup := by
  intro text rest event found
  unfold readMarkup at found
  split at found
  · cases found
  · rw [separate_cons _ _ _ (by decide)]
    exact spaced.separates_readBang _ _ _ found
  · rw [separate_cons _ _ _ (by decide)]
    exact spaced.separates_readEnd _ _ _ found
  · rw [separate_cons _ _ _ (by decide)]
    exact spaced.separates_readInstruction _ _ _ found
  · next filled bang slash question =>
    unfold readMarkup
    split
    · next empty => exact absurd empty (spaced.separate_ne_nil _ filled)
    · next same =>
      obtain ⟨_, starts⟩ := spaced.starts_separate rfl same
      exact absurd starts (bang _)
    · next same =>
      obtain ⟨_, starts⟩ := spaced.starts_separate rfl same
      exact absurd starts (slash _)
    · next same =>
      obtain ⟨_, starts⟩ := spaced.starts_separate rfl same
      exact absurd starts (question _)
    · exact spaced.separates_readStart _ _ _ found

private theorem next?_separate_none (text : Text) (ended : next? text = .ok none) :
    next? (style.separate text) = .ok none := by
  unfold next? at ended ⊢
  rw [spaced.dropWhile_separate isSpace_uniform]
  split at ended
  · next empty =>
    rw [empty]
    rfl
  · next tail _ =>
    obtain ⟨_, _, same⟩ := map_eq_ok _ _ _ ended
    cases same
  · cases ended

/-- The next event of a separated text is that of the text. -/
theorem next?_separate (text rest : Text) (event : Event) (found : next? text = .ok (some (event, rest))) :
    next? (style.separate text) = .ok (some (event.map style.separate, style.separate rest)) := by
  unfold next? at found ⊢
  rw [spaced.dropWhile_separate isSpace_uniform]
  split at found
  · cases found
  · next tail same =>
    obtain ⟨outcome, read, same⟩ := map_eq_ok _ _ _ found
    cases same
    rw [‹List.dropWhile isSpace text = _›, separate_cons _ _ _ (by decide)]
    simp only [spaced.separates_readMarkup _ _ _ read]
    rfl
  · next filled unmarked =>
    cases found
    split
    · next empty => exact absurd empty (spaced.separate_ne_nil _ filled)
    · next same =>
      obtain ⟨_, starts⟩ := spaced.starts_separate rfl same
      exact absurd starts (unmarked _)
    · rw [spaced.takeWhile_separate unmarked_uniform, spaced.dropWhile_separate unmarked_uniform,
        spaced.dropEndWhile_separate isSpace_uniform]
      rfl

/-- The names of open elements have no space in them, so they stay as they are. -/
theorem follow_separate (names inner : List Text) (event : Event) (unbroken : ∀ name ∈ names, '\n' ∉ name)
    (followed : follow names event = .ok inner) :
    follow names (event.map style.separate) = .ok inner ∧ ∀ name ∈ inner, '\n' ∉ name := by
  cases event with
  | startTag content =>
    cases followed
    have free := lineFeed_notMem_tagName content
    refine ⟨?_, List.forall_mem_cons.mpr ⟨free, unbroken⟩⟩
    rw [Event.map, follow, spaced.tagName_separate]
  | endTag name =>
    cases names with
    | nil => cases followed
    | cons innermost outer =>
      rw [List.forall_mem_cons] at unbroken
      rw [follow] at followed
      split at followed
      · next same =>
        cases followed
        rw [Event.map, follow, ← same, separate_unbroken _ _ unbroken.1, if_pos rfl]
        exact ⟨rfl, unbroken.2⟩
      · cases followed
  | emptyTag | text | comment | cdata | instruction | doctype =>
    cases followed
    exact ⟨rfl, unbroken⟩

private theorem gives_separate {names : List Text} {text : Text} {events : List Event}
    (gives : Gives next? follow names text events) (unbroken : ∀ name ∈ names, '\n' ∉ name) :
    Gives next? follow names (style.separate text) (events.map (Event.map style.separate)) := by
  induction gives with
  | ended finished => exact .ended (spaced.next?_separate_none _ finished)
  | @more names inside text rest events event given followed onward inductionHypothesis =>
    obtain ⟨follows, free⟩ := spaced.follow_separate names inside event unbroken followed
    exact .more (spaced.next?_separate text rest event given) follows (inductionHypothesis free)

/-- A separated text reads as the same events with their contents separated. -/
theorem readFrom_separate (names : List Text) (unbroken : ∀ name ∈ names, '\n' ∉ name) (text : Text)
    (events : List Event) (read : readFrom names text = .ok events) :
    readFrom names (style.separate text) = .ok (events.map (Event.map style.separate)) := by
  rw [readFrom_eq_ok_iff] at read ⊢
  exact spaced.gives_separate read unbroken

end Spaced

end Style

end Pretty

end MarkupOutline
