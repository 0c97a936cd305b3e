import MarkupOutline.Proofs.Block.Content
import MarkupOutline.Proofs.Text.Window

/-! Where the lines of a text stand among its bytes, counted up line after line. Lines cut out of the text by these
positions are the lines themselves, and some lines cut out at once are joined as they are in the text. -/
namespace MarkupOutline.Text

/-- The bytes from `start` up to but without `stop`. -/
structure ByteRange where
  start : Nat
  stop : Nat
deriving DecidableEq

def rangesFrom (start : Nat) : List Text → List ByteRange
  | [] => []
  | line :: rest => ⟨start, start + byteLength line⟩ :: rangesFrom (start + byteLength line + 1) rest

def lineRanges (text : Text) : Array ByteRange := (rangesFrom 0 (lines text)).toArray

/-- Cut out some bytes. There is no result if they end before they start, or beyond the text, or within a character. -/
def cut? (text : Text) (range : ByteRange) : Option Text :=
  if range.start ≤ range.stop then byteSlice? range.start (range.stop - range.start) text else none

def cutLine? (text : Text) (number : Nat) : Option Text := do cut? text (← (lineRanges text)[number]?)

def cutLines? (text : Text) (first last : Nat) : Option Text := do
  cut? text ⟨(← (lineRanges text)[first]?).start, (← (lineRanges text)[last]?).stop⟩

theorem byteLength_append (front back : Text) : byteLength (front ++ back) = byteLength front + byteLength back := by
  induction front with
  | nil => rw [List.nil_append, byteLength, Nat.zero_add]
  | cons letter rest inductionHypothesis =>
    rw [List.cons_append, byteLength, inductionHypothesis, byteLength, Nat.add_assoc]

theorem dropBytes?_append (front rest : Text) : dropBytes? (byteLength front) (front ++ rest) = some rest := by
  induction front with
  | nil => cases rest <;> rfl
  | cons letter more inductionHypothesis =>
    have positive := letter.utf8Size_pos
    rw [byteLength, List.cons_append, dropBytes?, if_neg (by omega), if_pos (by omega), Nat.add_sub_cancel_left,
      inductionHypothesis]

private theorem cut?_piece (front piece rest : Text) :
    cut? (front ++ piece ++ rest) ⟨byteLength front, byteLength (front ++ piece)⟩ = some piece := by
  rw [cut?, byteLength_append, if_pos (Nat.le_add_right _ _), Nat.add_sub_cancel_left, byteSlice?, List.append_assoc,
    dropBytes?_append, Option.bind_some, takeBytes?_append]

theorem rangesFrom_getElem? (start : Nat) (lines : List Text) (number : Nat) :
    (rangesFrom start lines)[number]? = lines[number]?.map fun line =>
      ⟨start + byteLength (ended (lines.take number)), start + byteLength (ended (lines.take number) ++ line)⟩ := by
  induction lines generalizing start number with
  | nil => rfl
  | cons first rest inductionHypothesis =>
    cases number with
    | zero => rfl
    | succ number =>
      have size : byteLength ['\n'] = 1 := rfl
      rw [rangesFrom, List.getElem?_cons_succ, List.getElem?_cons_succ, inductionHypothesis, List.take_succ_cons,
        ended_cons]
      simp only [byteLength_append, size, Nat.add_assoc]

theorem lineRanges_getElem? (text : Text) (number : Nat) (inside : number < (lines text).length) :
    (lineRanges text)[number]? = some ⟨byteLength (ended ((lines text).take number)),
      byteLength (ended ((lines text).take number) ++ (lines text)[number])⟩ := by
  rw [lineRanges, List.getElem?_toArray, rangesFrom_getElem?, List.getElem?_eq_getElem inside]
  simp only [Nat.zero_add, Option.map_some]

private theorem ended_unlines_window (lines : List Text) (first last : Nat) (ordered : first ≤ last)
    (inside : last < lines.length) :
    ended (lines.take first) ++ unlines (window lines first (last + 1)) = ended (lines.take last) ++ lines[last] := by
  have front : lines.take last = lines.take first ++ window lines first last :=
    (window_append lines 0 first last (Nat.zero_le first) ordered).symm
  rw [← window_append lines first last (last + 1) ordered (Nat.le_succ last),
    window_cons lines last (last + 1) (Nat.lt_succ_self last) inside, window_empty _ _ _ (Nat.le_refl _),
    unlines_append _ _ (by simp), unlines_singleton, ← List.append_assoc, ← ended_append, ← front]

private theorem exists_behind (line : Text) (rest : List Text) : ∃ behind, unlines (line :: rest) = line ++ behind := by
  cases rest with
  | nil => exact ⟨[], by rw [unlines_singleton, List.append_nil]⟩
  | cons next later =>
    refine ⟨'\n' :: unlines (next :: later), ?_⟩
    rw [← List.singleton_append, unlines_append _ _ (by simp), ended_singleton, List.append_assoc]
    rfl

/-- Lines cut out at once are these lines, joined. -/
theorem cutLines?_eq (text : Text) (first last : Nat) (ordered : first ≤ last) (inside : last < (lines text).length) :
    cutLines? text first last = some (unlines (window (lines text) first (last + 1))) := by
  obtain ⟨behind, more⟩ := exists_behind (lines text)[last] ((lines text).drop (last + 1))
  have piece := ended_unlines_window (lines text) first last ordered inside
  -- The text up to the end of the last line is what is before the first one and the lines themselves.
  have whole : text = ended ((lines text).take first) ++ unlines (window (lines text) first (last + 1)) ++ behind := by
    rw [piece, List.append_assoc, ← more, ← List.drop_eq_getElem_cons inside,
      ← unlines_append _ _ (List.ne_nil_of_length_pos (by rw [List.length_drop]; omega)), List.take_append_drop,
      unlines_lines]
  have cut := cut?_piece (ended ((lines text).take first)) (unlines (window (lines text) first (last + 1))) behind
  rw [← whole, piece] at cut
  rw [cutLines?, lineRanges_getElem? text first (by omega), lineRanges_getElem? text last inside]
  exact cut

theorem cutLine?_eq (text : Text) (number : Nat) : cutLine? text number = (lines text)[number]? := by
  by_cases inside : number < (lines text).length
  · have cut := cutLines?_eq text number number (Nat.le_refl number) inside
    rw [window_cons _ number (number + 1) (Nat.lt_succ_self number) inside, window_empty _ _ _ (Nat.le_refl _),
      unlines_singleton, cutLines?, lineRanges_getElem? text number inside] at cut
    rw [cutLine?, lineRanges_getElem? text number inside, List.getElem?_eq_getElem inside]
    exact cut
  · have beyond := List.getElem?_eq_none (Nat.le_of_not_lt inside)
    rw [cutLine?, lineRanges, List.getElem?_toArray, rangesFrom_getElem?, beyond]
    rfl

theorem map_cutLine? (text : Text) (first stop : Nat) (inside : stop ≤ (lines text).length) :
    (List.range' first (stop - first)).map (cutLine? text) = (window (lines text) first stop).map some := by
  apply List.ext_getElem?
  intro index
  rw [List.getElem?_map, List.getElem?_map]
  by_cases within : first + index < stop
  · rw [List.getElem?_range' (by omega), getElem?_window _ _ _ _ within, Option.map_some, Nat.one_mul, cutLine?_eq,
      List.getElem?_eq_getElem (by omega)]
    rfl
  · rw [List.getElem?_eq_none (by simp; omega), List.getElem?_eq_none (by rw [length_window _ _ _ inside]; omega)]
    rfl

end MarkupOutline.Text
