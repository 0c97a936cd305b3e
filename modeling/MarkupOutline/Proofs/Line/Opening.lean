import MarkupOutline.Line.Angle
import MarkupOutline.Proofs.Text.Scan

/-! The lines that open an element, as a grammar: a name in an angle bracket, then nothing or white space and what
comes behind it, then the first closing bracket. A line is read as an opening tag exactly if it is spelled so, and
it is spelled so in one way only. -/
namespace MarkupOutline.Line.Angle

open Text

/-- A line cut into the parts of an opening tag: the name, what stands between the name and the closing bracket, and
what follows the bracket. -/
structure Opening (line name middle rest : Text) : Prop where
  spelled : line = '<' :: (name ++ (middle ++ '>' :: rest))
  named : name ≠ []
  letters : ∀ letter ∈ name, isWhite letter = false ∧ letter ∉ ['/', '>', '!', '?']
  apart : ∀ letter ∈ middle.head?, isWhite letter = true
  unclosed : '>' ∉ middle

def foreignMarks : List Text := [['/', '>'], ['<', '?'], ['<', '!', '-', '-']]

theorem endsOpenName_eq_false_iff (letter : Char) :
    endsOpenName letter = false ↔ isWhite letter = false ∧ letter ∉ ['/', '>', '!', '?'] := by
  simp [endsOpenName]
  tauto

namespace Opening

variable {line name middle rest : Text} (opening : Opening line name middle rest)

include opening

theorem stop : ∃ stop tail, middle ++ '>' :: rest = stop :: tail ∧ endsOpenName stop = true ∧
    (stop = '>' ∧ tail = rest ∨
      stop ≠ '>' ∧ isWhite stop = true ∧ ∃ before, breakOn? ['>'] tail = some (before, rest)) := by
  cases middle with
  | nil => exact ⟨'>', rest, rfl, by decide, .inl ⟨rfl, rfl⟩⟩
  | cons space tail =>
    have white := opening.apart space rfl
    have absent := opening.unclosed
    rw [List.mem_cons, not_or] at absent
    refine ⟨space, tail ++ '>' :: rest, rfl, by simp [endsOpenName, white], .inr ⟨Ne.symm absent.1, white, tail, ?_⟩⟩
    exact (breakOn?_letter_iff _ _ _ _).mpr ⟨rfl, absent.2⟩

/-- What is spelled as an opening tag is read as one. -/
theorem openerAt?_eq : openerAt? line = some ⟨name, rest⟩ := by
  obtain ⟨stop, tail, split, ends, cases⟩ := opening.stop
  have taken : ∀ letter ∈ name, (!endsOpenName letter) = true := by
    intro letter member
    rw [(endsOpenName_eq_false_iff letter).mpr (opening.letters letter member)]
    rfl
  have ⟨before, behind⟩ := (cut_iff (fun letter => !endsOpenName letter) _ name tail stop).mpr
    ⟨rfl, taken, by rw [ends]; rfl⟩
  have named : name.isEmpty = false := by simpa using opening.named
  simp only [openerAt?, opening.spelled, split, before, behind, named]
  rcases cases with ⟨rfl, rfl⟩ | ⟨other, white, between, found⟩
  · simp
  · simp [other, white, found]

end Opening

/-- What is read as an opening tag is spelled as one. -/
theorem opening_of_openerAt? (line : Text) (tag : Opener) (found : openerAt? line = some tag) :
    ∃ middle, Opening line tag.name middle tag.rest := by
  unfold openerAt? at found
  split at found
  · next body =>
    dsimp only at found
    split at found
    · cases found
    · next named =>
      split at found
      · cases found
      · next stop after behind =>
        have ⟨split, taken, stopped⟩ := (cut_iff (!endsOpenName ·) body _ after stop).mp ⟨rfl, behind⟩
        have named : body.takeWhile (fun letter => !endsOpenName letter) ≠ [] := by simpa using named
        have letters : ∀ letter ∈ body.takeWhile (fun letter => !endsOpenName letter),
            isWhite letter = false ∧ letter ∉ ['/', '>', '!', '?'] := fun letter member =>
          (endsOpenName_eq_false_iff letter).mp (by simpa using taken letter member)
        split at found
        · next bracket =>
          cases found
          subst bracket
          exact ⟨[], congrArg ('<' :: ·) split, named, letters, by simp, by simp⟩
        · next other =>
          split at found
          · next white =>
            obtain ⟨⟨before, rest⟩, broken, rfl⟩ := Option.map_eq_some_iff.mp found
            obtain ⟨rfl, absent⟩ := (breakOn?_letter_iff _ _ _ _).mp broken
            refine ⟨stop :: before, congrArg ('<' :: ·) split, named, letters, ?_, ?_⟩
            · simpa using white
            · simpa [Ne.symm other] using absent
          · cases found
  · cases found

private theorem openerAt?_eq_some_iff (line : Text) (tag : Opener) :
    openerAt? line = some tag ↔ ∃ middle, Opening line tag.name middle tag.rest :=
  ⟨opening_of_openerAt? line tag, fun ⟨_, opening⟩ => opening.openerAt?_eq⟩

theorem middle_unique {name middle between rest : Text}
    (same : '<' :: (name ++ (middle ++ '>' :: rest)) = '<' :: (name ++ (between ++ '>' :: rest))) :
    middle = between := by
  simpa only [List.cons.injEq, true_and, List.append_cancel_left_eq, List.append_cancel_right_eq] using same

theorem opening_iff (line name middle rest : Text) : Opening line name middle rest ↔
    line = '<' :: (name ++ (middle ++ '>' :: rest)) ∧ openerAt? line = some ⟨name, rest⟩ := by
  constructor
  · exact fun opening => ⟨opening.spelled, opening.openerAt?_eq⟩
  · rintro ⟨spelled, found⟩
    obtain ⟨between, opening⟩ := opening_of_openerAt? line _ found
    exact middle_unique (opening.spelled.symm.trans spelled) ▸ opening

instance (line name middle rest : Text) : Decidable (Opening line name middle rest) :=
  decidable_of_iff _ (opening_iff line name middle rest).symm

/-- A line is spelled as an opening tag in one way only. -/
theorem Opening.unique {line name middle rest other between behind : Text} (first : Opening line name middle rest)
    (second : Opening line other between behind) : name = other ∧ middle = between ∧ rest = behind := by
  have same : some (⟨name, rest⟩ : Opener) = some ⟨other, behind⟩ := first.openerAt?_eq.symm.trans second.openerAt?_eq
  obtain ⟨rfl, rfl⟩ := Opener.mk.inj (Option.some.inj same)
  exact ⟨rfl, middle_unique (first.spelled.symm.trans second.spelled), rfl⟩

/-- Foreign marks anywhere in the line are the only thing that is looked for apart from the tag at its start. -/
theorem opener?_eq_some_iff (line : Text) (tag : Opener) : opener? line = some tag ↔
    (∀ mark ∈ foreignMarks, ¬ mark <:+: trim line) ∧ openerAt? (trim line) = some tag := by
  have clear : (occursIn ['/', '>'] (trim line) || occursIn ['<', '?'] (trim line) ||
      occursIn ['<', '!', '-', '-'] (trim line)) = false ↔ ∀ mark ∈ foreignMarks, ¬ mark <:+: trim line := by
    rw [← Bool.not_eq_true, Bool.or_eq_true, Bool.or_eq_true, occursIn_iff, occursIn_iff, occursIn_iff]
    simp only [foreignMarks, List.forall_mem_cons, List.not_mem_nil, IsEmpty.forall_iff, implies_true, and_true,
      not_or, and_assoc]
  rw [opener?, ← clear]
  split
  · next marked => simp [marked]
  · next unmarked => rw [Bool.not_eq_true] at unmarked; simp [unmarked]

theorem opening_of_opener? (line : Text) (tag : Opener) (opens : opener? line = some tag) :
    ∃ middle, Opening (trim line) tag.name middle tag.rest :=
  opening_of_openerAt? _ tag ((opener?_eq_some_iff line tag).mp opens).2

/-- A line opens an element exactly if it is, trimmed, spelled as an opening tag and has no foreign mark in it. It is
cut into the parts of the tag in one way only. -/
theorem opener?_grammar (line : Text) :
    (∀ name rest, opener? line = some ⟨name, rest⟩ ↔
      (∀ mark ∈ foreignMarks, ¬ mark <:+: trim line) ∧ ∃ middle, Opening (trim line) name middle rest) ∧
      ∀ name middle rest other between behind, Opening (trim line) name middle rest →
        Opening (trim line) other between behind → name = other ∧ middle = between ∧ rest = behind := by
  refine ⟨fun name rest => ?_, fun _ _ _ _ _ _ first second => first.unique second⟩
  rw [opener?_eq_some_iff, openerAt?_eq_some_iff]

/-- A bracket in a quoted value ends the tag, and what follows may have tags of its own. -/
theorem opener?_grammar_quoted :
    let line := "\t<é a='>' b>ü</é><b>\u3000".toList
    opener? line = some ⟨"é".toList, "' b>ü</é><b>".toList⟩ ∧
      Opening (trim line) "é".toList " a='".toList "' b>ü</é><b>".toList ∧
        ∀ name middle rest, Opening (trim line) name middle rest → middle = " a='".toList := by
  intro line
  have ⟨reads, unique⟩ := opener?_grammar line
  have opening : Opening (trim line) "é".toList " a='".toList "' b>ü</é><b>".toList := by decide +kernel
  refine ⟨(reads _ _).mpr ⟨by decide +kernel, _, opening⟩, opening, fun name middle rest other => ?_⟩
  exact (unique _ _ _ _ _ _ other opening).2.1

end MarkupOutline.Line.Angle
