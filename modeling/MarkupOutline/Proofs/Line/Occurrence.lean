import MarkupOutline.Proofs.Line.Written

/-! How often a line has a tag, as a matter of its text alone. A tag is counted once for every place at which its
spelling occurs. Its spelling cannot overlap itself, so a search from left to right finds every one of them. -/
namespace MarkupOutline.Text

/-- Whether a text starts with a match: a fixed front, then a character at which a match may end. -/
def startsMatch (front : Text) (ends : Char → Bool) (text : Text) : Bool :=
  front.isPrefixOf text && text[front.length]?.any ends

/-- The places of a text at which a match starts. -/
def occurrences (front : Text) (ends : Char → Bool) (text : Text) : List Nat :=
  (List.range text.length).filter fun place => startsMatch front ends (text.drop place)

/-- How many matches a search finds that goes from left to right and resumes behind each match. -/
def matchCount (front : Text) (ends : Char → Bool) : Text → Nat
  | [] => 0
  | letter :: rest =>
    if startsMatch front ends (letter :: rest) then matchCount front ends (rest.drop front.length) + 1
    else matchCount front ends rest
termination_by text => text.length

/-- An exact count of the matches in a text: one for every place at which a match starts. The next match starts
behind the end of the one before, and so a search from left to right finds as many. -/
structure CountsMatches (count : Nat) (front : Text) (ends : Char → Bool) (text : Text) : Prop where
  places : count = (occurrences front ends text).length
  apart : ∀ earlier ∈ occurrences front ends text, ∀ later ∈ occurrences front ends text,
    earlier < later → earlier + front.length < later
  found : count = matchCount front ends text

variable {front : Text} {ends : Char → Bool}

theorem startsMatch_iff (text : Text) : startsMatch front ends text = true ↔
    ∃ stop rest, text = front ++ stop :: rest ∧ ends stop = true := by
  rw [startsMatch, Bool.and_eq_true, List.isPrefixOf_iff_prefix, Option.any_eq_true]
  constructor
  · rintro ⟨⟨tail, rfl⟩, stop, behind, ending⟩
    rw [List.getElem?_append_right (Nat.le_refl _), Nat.sub_self] at behind
    obtain ⟨rest, rfl⟩ := List.head?_eq_some_iff.mp (List.head?_eq_getElem?.trans behind)
    exact ⟨stop, rest, rfl, ending⟩
  · rintro ⟨stop, rest, rfl, ending⟩
    exact ⟨⟨stop :: rest, rfl⟩, stop, by simp, ending⟩

theorem startsMatch_cons (first letter : Char) (rest : Text) : startsMatch (first :: front) ends (letter :: rest) =
    (first == letter && startsMatch front ends rest) := by
  rw [startsMatch, startsMatch, List.isPrefixOf_cons_cons, List.length_cons, List.getElem?_cons_succ, Bool.and_assoc]

theorem length_occurrences_cons (letter : Char) (rest : Text) :
    (occurrences front ends (letter :: rest)).length =
      (occurrences front ends rest).length + if startsMatch front ends (letter :: rest) then 1 else 0 := by
  simp only [occurrences, List.length_cons, List.range_succ_eq_map, List.filter_cons, List.drop_zero, List.filter_map,
    Function.comp_def, List.drop_succ_cons]
  split <;> simp

private theorem length_occurrences_drop (text : Text) (count : Nat)
    (none : ∀ place < count, startsMatch front ends (text.drop place) = false) :
    (occurrences front ends (text.drop count)).length = (occurrences front ends text).length := by
  induction count generalizing text with
  | zero => rfl
  | succ count inductionHypothesis =>
    cases text with
    | nil => rfl
    | cons letter rest =>
      have here : startsMatch front ends (letter :: rest) = false := none 0 (Nat.succ_pos count)
      rw [List.drop_succ_cons, length_occurrences_cons, here,
        inductionHypothesis rest fun place bound => none (place + 1) (Nat.succ_lt_succ bound)]
      simp

section Solid

-- No character of the front may end a match.
variable (solid : ∀ letter ∈ front, ends letter = false)

include solid

/-- Where a match starts, none starts before its end: the character that ends the first would be in the front of
the second. -/
theorem startsMatch_within (text : Text) (starts : startsMatch front ends text = true) (place : Nat)
    (behind : 0 < place) (within : place ≤ front.length) : startsMatch front ends (text.drop place) = false := by
  obtain ⟨stop, rest, rfl, ending⟩ := (startsMatch_iff text).mp starts
  by_contra again
  obtain ⟨other, tail, split, -⟩ := (startsMatch_iff _).mp (eq_true_of_ne_false again)
  have short : front.length - place < front.length := by omega
  have inside : front[front.length - place]? = some stop := by
    calc front[front.length - place]?
      _ = (front ++ other :: tail)[front.length - place]? := (List.getElem?_append_left short).symm
      _ = (front ++ stop :: rest)[front.length]? := by
        rw [← split, List.getElem?_drop, Nat.add_sub_cancel' within]
      _ = some stop := by simp
  rw [solid stop (List.mem_of_getElem? inside)] at ending
  cases ending

private theorem occurrences_apart (text : Text) (earlier later : Nat) (first : earlier ∈ occurrences front ends text)
    (second : later ∈ occurrences front ends text) (order : earlier < later) : earlier + front.length < later := by
  by_contra overlap
  have starts := (List.mem_filter.mp first).2
  have again := (List.mem_filter.mp second).2
  have clear := startsMatch_within solid _ starts (later - earlier) (by omega) (by omega)
  rw [List.drop_drop, Nat.add_sub_cancel' order.le, again] at clear
  cases clear

/-- What a search passes by with a match holds no match of its own. -/
theorem matchCount_eq (text : Text) : matchCount front ends text = (occurrences front ends text).length := by
  fun_induction matchCount front ends text with
  | case1 => rfl
  | case2 letter rest starts inductionHypothesis =>
    have passed := length_occurrences_drop rest front.length fun place bound =>
      startsMatch_within solid (letter :: rest) starts (place + 1) (Nat.succ_pos place) bound
    rw [inductionHypothesis, length_occurrences_cons, if_pos starts, passed]
  | case3 letter rest elsewhere inductionHypothesis =>
    rw [inductionHypothesis, length_occurrences_cons, if_neg elsewhere, Nat.add_zero]

theorem countsMatches (text : Text) : CountsMatches (occurrences front ends text).length front ends text :=
  ⟨rfl, fun earlier first later second => occurrences_apart solid text earlier later first second,
    (matchCount_eq solid text).symm⟩

end Solid

end MarkupOutline.Text

namespace MarkupOutline.Line.Angle

open Text

/-- Where the name of an opening tag ends, wherever in a line the tag is. -/
def endsName (letter : Char) : Bool := letter == '>' || isWhite letter

theorem split_of_named (chosen : Char → Bool) (build : Text → Tag) (text : Text) (tag : Tag)
    (found : (if (text.takeWhile chosen).isEmpty || (text.dropWhile chosen).isEmpty then none
      else some (build (text.takeWhile chosen))) = some tag) :
    ∃ name stop rest, text = name ++ stop :: rest ∧ chosen stop = false ∧ tag = build name := by
  split at found
  · cases found
  · next filled =>
    cases behind : text.dropWhile chosen with
    | nil => simp [behind] at filled
    | cons stop rest =>
      obtain ⟨split, -, stopped⟩ := (cut_iff chosen text _ rest stop).mp ⟨rfl, behind⟩
      exact ⟨_, stop, rest, split, stopped, (Option.some.inj found).symm⟩

private theorem tagAt?_eq_opening_iff (name text : Text) (named : name ≠ [])
    (solid : ∀ letter ∈ name, endsName letter = false) (unslashed : name.head? ≠ some '/') :
    tagAt? text = some (.opening name) ↔ startsMatch name endsName text = true := by
  rw [startsMatch_iff]
  constructor
  · intro found
    unfold tagAt? at found
    split at found
    · obtain ⟨other, _, _, _, _, same⟩ := split_of_named _ Tag.closing _ _ found
      cases same
    · obtain ⟨other, stop, rest, split, stopped, same⟩ := split_of_named _ Tag.opening _ _ found
      cases same
      exact ⟨stop, rest, split, by simpa [endsName, Decidable.or_iff_not_imp_left] using stopped⟩
  · rintro ⟨stop, rest, rfl, ending⟩
    refine tagAt?_name name rest stop (fun letter member => ?_) named unslashed (by simpa [endsName] using ending)
    simpa [endsName] using solid letter member

private theorem tagAt?_eq_closing_iff (name text : Text) (named : name ≠ []) (unclosed : '>' ∉ name) :
    tagAt? text = some (.closing name) ↔ startsMatch ('/' :: name) (· == '>') text = true := by
  rw [startsMatch_iff]
  constructor
  · intro found
    unfold tagAt? at found
    split at found
    · obtain ⟨other, stop, rest, split, stopped, same⟩ := split_of_named _ Tag.closing _ _ found
      cases same
      exact ⟨stop, rest, congrArg ('/' :: ·) split, by simpa using stopped⟩
    · obtain ⟨other, _, _, _, _, same⟩ := split_of_named _ Tag.opening _ _ found
      cases same
  · rintro ⟨stop, rest, rfl, ending⟩
    rw [beq_iff_eq.mp ending]
    exact tagAt?_endTag name rest named unclosed

/-- Every tag is reported at the place where it starts and nowhere else. -/
theorem count_tagsFrom (tag : Tag) (body : Text) (ends : Char → Bool)
    (read : ∀ text, tagAt? text = some tag ↔ startsMatch body ends text = true) (text : Text) :
    (tagsFrom text).count tag = (occurrences ('<' :: body) ends text).length := by
  induction text with
  | nil => rfl
  | cons letter rest inductionHypothesis =>
    have starts : startsMatch ('<' :: body) ends (letter :: rest) = true ↔
        letter = '<' ∧ tagAt? rest = some tag := by
      rw [startsMatch_cons, Bool.and_eq_true, beq_iff_eq, read, eq_comm]
    rw [tagsFrom, length_occurrences_cons, ← inductionHypothesis]
    by_cases marked : letter = '<'
    · rw [if_pos marked, List.count_append, Nat.add_comm]
      by_cases found : tagAt? rest = some tag
      · rw [if_pos (starts.mpr ⟨marked, found⟩), found]
        simp
      · rw [if_neg fun both => found (starts.mp both).2]
        cases other : tagAt? rest with
        | none => rfl
        | some reported =>
          have different : reported ≠ tag := by simpa [other] using found
          simp [different]
    · rw [if_neg marked, if_neg fun both => marked (starts.mp both).1, Nat.add_zero]

private theorem countsMatches_tagsFrom (tag : Tag) (body : Text) (ends : Char → Bool)
    (read : ∀ text, tagAt? text = some tag ↔ startsMatch body ends text = true)
    (solid : ∀ letter ∈ '<' :: body, ends letter = false) (text : Text) :
    CountsMatches ((tagsFrom text).count tag) ('<' :: body) ends text := by
  rw [count_tagsFrom tag body ends read]
  exact countsMatches solid text

/-- Tags of a name are counted exactly where they are spelled: an opening tag up to the character that ends its name,
a closing tag up to its bracket. Two spellings of a tag never overlap. -/
theorem counts_exact (line name : Text) (named : name ≠ []) (unclosed : '>' ∉ name) :
    ((∀ letter ∈ name, isWhite letter = false) → name.head? ≠ some '/' →
        CountsMatches (rules.openingCount line name) ('<' :: name) endsName (trim line)) ∧
      CountsMatches (rules.closingCount line name) ('<' :: '/' :: name) (· == '>') (trim line) := by
  have other : ∀ letter ∈ name, letter ≠ '>' := fun letter member => ne_of_mem_of_not_mem member unclosed
  constructor
  · intro solid unslashed
    have inside : ∀ letter ∈ name, endsName letter = false := by
      intro letter member
      simp [endsName, other letter member, solid letter member]
    apply countsMatches_tagsFrom (.opening name) name endsName
    · exact fun text => tagAt?_eq_opening_iff name text named inside unslashed
    · exact List.forall_mem_cons.mpr ⟨by decide, inside⟩
  · apply countsMatches_tagsFrom (.closing name) ('/' :: name) (· == '>')
    · exact fun text => tagAt?_eq_closing_iff name text named unclosed
    · simp only [List.forall_mem_cons]
      exact ⟨by decide, by decide, fun letter member => by simpa using other letter member⟩

/-- A tag inside a tag is counted at its own place, and names may have a `<` in them. -/
theorem counts_exact_nested :
    let line := " <a<a b></a></a<a>\t".toList
    occurrences ['<', 'a'] endsName (trim line) = [2, 14] ∧ rules.openingCount line ['a'] = 2 ∧
      matchCount ['<', 'a'] endsName (trim line) = 2 ∧
        CountsMatches (rules.closingCount line ['a', '<', 'a']) ['<', '/', 'a', '<', 'a'] (· == '>') (trim line) := by
  intro line
  have places : occurrences ['<', 'a'] endsName (trim line) = [2, 14] := by decide +kernel
  have ⟨openings, _⟩ := counts_exact line ['a'] (by decide) (by decide)
  have ⟨_, closings⟩ := counts_exact line ['a', '<', 'a'] (by decide) (by decide)
  have counted := openings (List.forall_mem_singleton.mpr (by decide)) (by decide)
  have two : rules.openingCount line ['a'] = 2 := counted.places.trans (congrArg List.length places)
  exact ⟨places, two, counted.found.symm.trans two, closings⟩

end MarkupOutline.Line.Angle
