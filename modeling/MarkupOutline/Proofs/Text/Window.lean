import Mathlib.Tactic.Common
import MarkupOutline.Text.Lines

/-! A window is a run of lines within others. A window of a window is one of the lines themselves. -/
namespace MarkupOutline.Text

/-- The lines from `start` up to but without `stop`. -/
def window (lines : List Text) (start stop : Nat) : List Text := (lines.drop start).take (stop - start)

theorem extract_toList (lines : Array Text) (start stop : Nat) :
    (lines.extract start stop).toList = window lines.toList start stop := by
  rw [Array.toList_extract, List.extract_eq_take_drop, window]

theorem window_all (lines : List Text) : window lines 0 lines.length = lines := by
  simp [window]

theorem window_empty (lines : List Text) (start stop : Nat) (empty : stop ≤ start) :
    window lines start stop = [] := by
  rw [window, Nat.sub_eq_zero_of_le empty, List.take_zero]

theorem window_map {Entry : Type} (convert : Text → Entry) (lines : List Text) (start stop : Nat) :
    (window lines start stop).map convert = ((lines.map convert).drop start).take (stop - start) := by
  rw [window, List.map_take, List.map_drop]

theorem window_drop (lines : List Text) (start stop : Nat) :
    window (lines.drop start) 0 (stop - start) = window lines start stop := rfl

theorem window_cons (lines : List Text) (start stop : Nat) (nonempty : start < stop)
    (inside : start < lines.length) :
    window lines start stop = lines[start] :: window lines (start + 1) stop := by
  obtain ⟨size, same⟩ : ∃ size, stop - start = size + 1 := ⟨stop - start - 1, by omega⟩
  rw [window, List.drop_eq_getElem_cons inside, same, List.take_succ_cons, window]
  congr 2
  omega

theorem window_succ (line : Text) (rest : List Text) (start stop : Nat) :
    window (line :: rest) (start + 1) (stop + 1) = window rest start stop := by
  rw [window, List.drop_succ_cons, Nat.add_sub_add_right, window]

theorem window_zero_succ (line : Text) (rest : List Text) (stop : Nat) :
    window (line :: rest) 0 (stop + 1) = line :: window rest 0 stop := rfl

theorem length_window (lines : List Text) (start stop : Nat) (inside : stop ≤ lines.length) :
    (window lines start stop).length = stop - start := by
  rw [window, List.length_take, List.length_drop]
  omega

theorem drop_window (lines : List Text) (start stop skipped : Nat) :
    (window lines start stop).drop skipped = window lines (start + skipped) stop := by
  rw [window, window, List.drop_take, List.drop_drop]
  congr 1
  omega

theorem window_window (lines : List Text) (start stop first last : Nat) (inside : start + last ≤ stop) :
    window (window lines start stop) first last = window lines (start + first) (start + last) := by
  rw [window, drop_window, window, window, List.take_take]
  congr 1
  omega

theorem tail_window (lines : List Text) (start stop : Nat) :
    (window lines start stop).tail = window lines (start + 1) stop := by
  rw [← List.drop_one, drop_window]

theorem take_window (lines : List Text) (start middle stop : Nat) (inside : middle ≤ stop) :
    (window lines start stop).take (middle - start) = window lines start middle := by
  rw [window, window, List.take_take, Nat.min_eq_left (by omega)]

theorem window_append (lines : List Text) (start middle stop : Nat) (lower : start ≤ middle)
    (upper : middle ≤ stop) : window lines start middle ++ window lines middle stop = window lines start stop := by
  have front := take_window lines start middle stop upper
  have back : window lines middle stop = (window lines start stop).drop (middle - start) := by
    rw [drop_window, Nat.add_sub_cancel' lower]
  rw [← front, back, List.take_append_drop]

theorem window_ends (lines : List Text) (first stop : Nat) (long : first + 1 < stop)
    (inside : stop ≤ lines.length) : window lines first stop =
      lines[first]?.getD [] :: (window lines (first + 1) (stop - 1) ++ [lines[stop - 1]?.getD []]) := by
  have last := window_cons lines (stop - 1) stop (by omega) (by omega)
  rw [window_empty _ (stop - 1 + 1) _ (by omega)] at last
  rw [window_cons lines first stop (by omega) (by omega),
    ← window_append lines (first + 1) (stop - 1) stop (by omega) (by omega), last,
    List.getElem?_eq_getElem (by omega), List.getElem?_eq_getElem (by omega)]
  rfl

theorem getElem?_window (lines : List Text) (start stop index : Nat) (inside : start + index < stop) :
    (window lines start stop)[index]? = lines[start + index]? := by
  rw [window, List.getElem?_take_of_lt (by omega), List.getElem?_drop]

/-- A window that is cut in two at one of its lines. -/
theorem window_eq_append_cons_iff (lines front rest : List Text) (line : Text) (start stop : Nat)
    (inside : stop ≤ lines.length) :
    window lines start stop = front ++ line :: rest ↔ start + front.length < stop ∧
      window lines start (start + front.length) = front ∧ lines[start + front.length]? = some line ∧
        window lines (start + front.length + 1) stop = rest := by
  constructor
  · intro split
    have size := length_window lines start stop inside
    rw [split, List.length_append, List.length_cons] at size
    have reached : start + front.length < stop := by omega
    have before := window_window lines start stop 0 front.length (by omega)
    have here := getElem?_window lines start stop front.length reached
    have after := drop_window lines start stop (front.length + 1)
    rw [split] at before here after
    rw [Nat.add_zero] at before
    refine ⟨reached, ?_, ?_, ?_⟩
    · rw [← before]
      simp [window]
    · rw [← here]
      simp
    · rw [Nat.add_assoc, ← after]
      simp
  · rintro ⟨reached, before, here, after⟩
    obtain ⟨_, same⟩ := List.getElem?_eq_some_iff.mp here
    rw [← window_append lines start (start + front.length) stop (Nat.le_add_right _ _) (by omega), before,
      window_cons lines _ stop reached (by omega), after, same]

theorem mem_window_of_getElem? (lines : List Text) (start stop number : Nat) (line : Text)
    (lower : start ≤ number) (upper : number < stop) (found : lines[number]? = some line) :
    line ∈ window lines start stop := by
  obtain ⟨index, same⟩ := Nat.exists_eq_add_of_le lower
  apply List.mem_of_getElem? (i := index)
  rw [getElem?_window lines start stop index (by omega), ← same, found]

theorem mem_of_mem_window (lines : List Text) (start stop : Nat) (line : Text)
    (membership : line ∈ window lines start stop) : line ∈ lines :=
  List.mem_of_mem_drop (List.mem_of_mem_take membership)

section Insertion

variable (lines : List Text) (line : Text) (place start stop : Nat)

theorem window_insertIdx_before (before : stop ≤ place) :
    window (lines.insertIdx place line) start stop = window lines start stop := by
  apply List.ext_getElem?
  intro index
  simp only [window, List.getElem?_take, List.getElem?_drop]
  split
  · rw [List.getElem?_insertIdx_of_lt (by omega)]
  · rfl

theorem window_insertIdx_behind (behind : place ≤ start) :
    window (lines.insertIdx place line) (start + 1) (stop + 1) = window lines start stop := by
  apply List.ext_getElem?
  intro index
  simp only [window, List.getElem?_take, List.getElem?_drop]
  have size : stop + 1 - (start + 1) = stop - start := by omega
  rw [size]
  split
  · rw [List.getElem?_insertIdx_of_gt (by omega)]
    congr 1
    omega
  · rfl

theorem window_insertIdx (lower : start ≤ place) (upper : place ≤ stop) (inside : place ≤ lines.length) :
    window (lines.insertIdx place line) start (stop + 1) =
      window lines start place ++ line :: window lines place stop := by
  have size : place < (lines.insertIdx place line).length := by
    rw [List.length_insertIdx_of_le_length inside]
    omega
  rw [← window_append _ start place (stop + 1) lower (by omega), window_insertIdx_before _ _ _ _ _ (Nat.le_refl _),
    window_cons _ place (stop + 1) (by omega) size, window_insertIdx_behind _ _ _ _ _ (Nat.le_refl _),
    List.getElem_insertIdx_self]

theorem insertIdx_window (lower : start ≤ place) (upper : place ≤ stop) (inside : stop ≤ lines.length) :
    (window lines start stop).insertIdx (place - start) line =
      window (lines.insertIdx place line) start (stop + 1) := by
  have size := length_window lines start stop inside
  have within : place - start ≤ (window lines start stop).length := by omega
  have whole := window_insertIdx (window lines start stop) line (place - start) 0 _ (Nat.zero_le _) within within
  rw [← List.length_insertIdx_of_le_length within line, window_all, size, window_window _ _ _ _ _ (by omega),
    window_window _ _ _ _ _ (by omega), Nat.add_zero, Nat.add_sub_cancel' lower,
    Nat.add_sub_cancel' (Nat.le_trans lower upper)] at whole
  rw [whole, window_insertIdx _ _ _ _ _ lower upper (Nat.le_trans upper inside)]

end Insertion

end MarkupOutline.Text
