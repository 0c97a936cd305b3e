import Mathlib.Data.List.DropRight
import Mathlib.Data.List.TakeWhile
import MarkupOutline.Text.Search

/-! What a scan has found it finds again, whatever follows in the place of the old rest. A scan for a
single character is a walk of its state over the text before that character. Trimming cuts off all white space at
once. -/
namespace MarkupOutline.Text

theorem takeWhile_stop (chosen : Char → Bool) (front rest : Text) (stop : Char)
    (taken : ∀ letter ∈ front, chosen letter = true) (stopped : chosen stop = false) :
    (front ++ stop :: rest).takeWhile chosen = front := by
  rw [List.takeWhile_append_of_pos taken, List.takeWhile_cons_of_neg (by simp [stopped]), List.append_nil]

theorem dropWhile_stop (chosen : Char → Bool) (front rest : Text) (stop : Char)
    (taken : ∀ letter ∈ front, chosen letter = true) (stopped : chosen stop = false) :
    (front ++ stop :: rest).dropWhile chosen = stop :: rest := by
  rw [List.dropWhile_append_of_pos taken, List.dropWhile_cons_of_neg (by simp [stopped])]

theorem cut_iff (chosen : Char → Bool) (text front rest : Text) (stop : Char) :
    text.takeWhile chosen = front ∧ text.dropWhile chosen = stop :: rest ↔
      text = front ++ stop :: rest ∧ (∀ letter ∈ front, chosen letter = true) ∧ chosen stop = false := by
  constructor
  · rintro ⟨rfl, behind⟩
    have whole := List.takeWhile_append_dropWhile (p := chosen) (l := text)
    have stopped := List.head?_dropWhile_not chosen text
    rw [behind] at whole stopped
    exact ⟨whole.symm, fun letter member => List.mem_takeWhile_imp member, by simpa using stopped⟩
  · rintro ⟨rfl, taken, stopped⟩
    exact ⟨takeWhile_stop chosen front rest stop taken stopped, dropWhile_stop chosen front rest stop taken stopped⟩

theorem breakOn?_mark (mark more : Text) : breakOn? mark (mark ++ more) = some ([], more) := by
  unfold breakOn?
  rw [if_pos (List.isPrefixOf_iff_prefix.mpr ⟨more, rfl⟩), List.drop_left]

theorem breakOn?_cons (mark rest : Text) (letter : Char) (elsewhere : ¬ mark <+: letter :: rest) :
    breakOn? mark (letter :: rest) = (breakOn? mark rest).map (Prod.map (letter :: ·) id) := by
  rw [breakOn?, if_neg (by simpa only [List.isPrefixOf_iff_prefix] using elsewhere)]

theorem breakOn?_behind (first : Char) (mark front rest : Text) (absent : first ∉ front) :
    breakOn? (first :: mark) (front ++ rest) =
      (breakOn? (first :: mark) rest).map (Prod.map (front ++ ·) id) := by
  induction front with
  | nil =>
    rw [List.nil_append]
    cases breakOn? (first :: mark) rest <;> rfl
  | cons letter front inductionHypothesis =>
    rw [List.mem_cons, not_or] at absent
    have elsewhere : ¬ first :: mark <+: letter :: (front ++ rest) := fun starts =>
      absent.1 (List.cons_prefix_cons.mp starts).1
    rw [List.cons_append, breakOn?_cons _ _ _ elsewhere, inductionHypothesis absent.2, Option.map_map]
    rfl

/-- A fixed mark is found again at its first occurrence. -/
theorem breakOn?_again (mark text before after more : Text)
    (found : breakOn? mark text = some (before, after)) :
    breakOn? mark (before ++ mark ++ more) = some (before, more) := by
  induction text generalizing before with
  | nil =>
    rw [breakOn?] at found
    split at found
    · simp only [Option.some.injEq, Prod.mk.injEq] at found
      rw [← found.1]
      exact breakOn?_mark mark more
    · cases found
  | cons letter rest inductionHypothesis =>
    rw [breakOn?] at found
    split at found
    · simp only [Option.some.injEq, Prod.mk.injEq] at found
      rw [← found.1]
      exact breakOn?_mark mark more
    · next elsewhere =>
      obtain ⟨⟨front, tail⟩, inner, same⟩ := Option.map_eq_some_iff.mp found
      simp only [Prod.map_apply, id_eq, Prod.mk.injEq] at same
      obtain ⟨rfl, rfl⟩ := same
      have split := breakOn?_eq mark rest front tail inner
      -- The mark fits into what stands before the rest, so the new rest cannot move it forward.
      have later : ¬ mark.isPrefixOf (letter :: (front ++ mark ++ more)) = true := by
        intro starts
        apply elsewhere
        have short : mark <+: letter :: (front ++ mark) :=
          List.prefix_of_prefix_length_le (List.isPrefixOf_iff_prefix.mp starts)
            ⟨more, by simp⟩ (by simp; omega)
        rw [List.isPrefixOf_iff_prefix, split]
        exact short.trans ⟨tail, by simp⟩
      rw [List.cons_append, List.cons_append, breakOn?, if_neg later, inductionHypothesis front inner]
      rfl

theorem breakOn?_letter_iff (stop : Char) (text before after : Text) :
    breakOn? [stop] text = some (before, after) ↔ text = before ++ stop :: after ∧ stop ∉ before := by
  have complete : ∀ front rest : Text, stop ∉ front → breakOn? [stop] (front ++ stop :: rest) = some (front, rest) := by
    intro front rest absent
    have here : breakOn? [stop] (stop :: rest) = some ([], rest) := breakOn?_mark [stop] rest
    rw [breakOn?_behind stop [] front (stop :: rest) absent, here]
    simp
  constructor
  · intro found
    have split := breakOn?_eq [stop] text before after found
    rw [List.append_assoc, List.singleton_append] at split
    refine ⟨split, fun member => ?_⟩
    obtain ⟨front, back, same, absent⟩ := List.eq_append_cons_of_mem member
    rw [split, same, List.append_assoc, List.cons_append, complete front _ absent] at found
    simp at found
  · rintro ⟨rfl, absent⟩
    exact complete before after absent

variable {State : Type} (step : State → Char → Option State)

/-- A scan walks over the text before the character that stops it. -/
theorem breakScan?_walk (state : State) (text before after : Text)
    (found : breakScan? step state text = some (before, after)) :
    ∃ final letter, before.foldlM step state = some final ∧ step final letter = none ∧
      text = before ++ letter :: after := by
  induction text generalizing state before with
  | nil => cases found
  | cons letter rest inductionHypothesis =>
    rw [breakScan?] at found
    split at found
    · next stopped =>
      simp only [Option.some.injEq, Prod.mk.injEq] at found
      obtain ⟨rfl, rfl⟩ := found
      exact ⟨state, letter, rfl, stopped, rfl⟩
    · next following moved =>
      obtain ⟨⟨front, tail⟩, inner, same⟩ := Option.map_eq_some_iff.mp found
      simp only [Prod.map_apply, id_eq, Prod.mk.injEq] at same
      obtain ⟨rfl, rfl⟩ := same
      obtain ⟨final, stop, walked, stopped, split⟩ := inductionHypothesis following front inner
      refine ⟨final, stop, ?_, stopped, ?_⟩
      · rw [List.foldlM_cons, moved]
        exact walked
      · rw [split, List.cons_append]

theorem breakScan?_of_walk (state final : State) (before after : Text) (letter : Char)
    (walked : before.foldlM step state = some final) (stopped : step final letter = none) :
    breakScan? step state (before ++ letter :: after) = some (before, after) := by
  induction before generalizing state with
  | nil =>
    cases walked
    rw [List.nil_append, breakScan?, stopped]
  | cons first rest inductionHypothesis =>
    rw [List.foldlM_cons] at walked
    obtain ⟨following, moved, walked⟩ := Option.bind_eq_some_iff.mp walked
    simp only [List.cons_append, breakScan?, moved, inductionHypothesis following walked]
    rfl

theorem foldlM_idle (state : State) (text : Text) (idle : ∀ letter ∈ text, step state letter = some state) :
    text.foldlM step state = some state := by
  induction text with
  | nil => rfl
  | cons letter rest inductionHypothesis =>
    rw [List.foldlM_cons, idle letter (by simp)]
    exact inductionHypothesis fun other membership => idle other (by simp [membership])

theorem dropEndWhile_append (chosen : Char → Bool) (text : Text) :
    ∃ tail, text = dropEndWhile chosen text ++ tail ∧ ∀ letter ∈ tail, chosen letter = true :=
  ⟨text.rtakeWhile chosen, List.rdropWhile_append_rtakeWhile.symm,
    fun _ membership => List.mem_rtakeWhile_imp membership⟩

theorem dropEndWhile_idempotent (chosen : Char → Bool) (text : Text) :
    dropEndWhile chosen (dropEndWhile chosen text) = dropEndWhile chosen text :=
  List.rdropWhile_idempotent chosen text

theorem trim_behind (margin line : Text) (white : ∀ letter ∈ margin, isWhite letter = true) :
    trim (margin ++ line) = trim line := by
  rw [trim, trimStart, List.dropWhile_append_of_pos white, trim, trimStart]

theorem trim_before (line tail : Text) (white : ∀ letter ∈ tail, isWhite letter = true) :
    trim (line ++ tail) = trim line := by
  have cut : ∀ text, dropEndWhile isWhite (text ++ tail) = dropEndWhile isWhite text := by
    intro text
    rw [dropEndWhile, List.reverse_append,
      List.dropWhile_append_of_pos fun letter member => white letter (List.mem_reverse.mp member), dropEndWhile]
  rw [trim, trimStart, List.dropWhile_append]
  split
  · next none =>
    rw [List.dropWhile_eq_nil_iff.mpr white, trim, trimStart, List.isEmpty_iff.mp none]
  · rw [cut, trim, trimStart]

theorem trim_trim (line : Text) : trim (trim line) = trim line := by
  obtain ⟨tail, same, white⟩ := dropEndWhile_append isWhite (trimStart line)
  change trimStart line = trim line ++ tail at same
  calc trim (trim line) = trim (trim line ++ tail) := (trim_before _ tail white).symm
    _ = trim (trimStart line) := by rw [← same]
    _ = trim line := by rw [trim, trimStart, trimStart, List.dropWhile_idempotent]; rfl

end MarkupOutline.Text
