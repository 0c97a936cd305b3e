import MarkupOutline.Block.Basic
import MarkupOutline.Proofs.Text.Scan

/-! The parts of a block as text are its parts as lines: the text before the first line feed is the first
line, the text after the last one is the last line, and a line feed stands between every two lines. -/
namespace MarkupOutline

namespace Text

theorem lines_cons (letter : Char) (text : Text) :
    lines (letter :: text) =
      if letter = '\n' then [] :: lines text else (lines text).modifyHead (letter :: ·) := by
  rw [lines, List.splitOn_cons_eq_if_modifyHead, lines]
  simp only [beq_iff_eq]

theorem lines_append (front back : Text) : lines (front ++ '\n' :: back) = lines front ++ lines back :=
  List.splitOn_append_cons_self front back

theorem lines_of_unbroken (text : Text) (unbroken : '\n' ∉ text) : lines text = [text] :=
  List.splitOn_eq_singleton unbroken

/-- No line has a line feed in it. -/
theorem unbroken_of_mem_lines (text line : Text) (membership : line ∈ lines text) : '\n' ∉ line := by
  induction text generalizing line with
  | nil =>
    rw [lines_of_unbroken [] (by simp), List.mem_singleton] at membership
    simp [membership]
  | cons letter rest inductionHypothesis =>
    rw [lines_cons] at membership
    split at membership
    · rcases List.mem_cons.mp membership with rfl | later
      · simp
      · exact inductionHypothesis line later
    · next other =>
      cases split : lines rest with
      | nil => exact absurd split (lines_ne_nil rest)
      | cons first later =>
        rw [split, List.modifyHead_cons] at membership
        rcases List.mem_cons.mp membership with rfl | member
        · have plain := inductionHypothesis first (by simp [split])
          simp [Ne.symm other, plain]
        · exact inductionHypothesis line (by simp [split, member])

theorem mem_lines_of_mem (text : Text) (letter : Char) (member : letter ∈ text) (plain : letter ≠ '\n') :
    ∃ line ∈ lines text, letter ∈ line := by
  induction text with
  | nil => cases member
  | cons first rest inductionHypothesis =>
    rw [lines_cons]
    cases split : lines rest with
    | nil => exact absurd split (lines_ne_nil rest)
    | cons front later =>
      rw [split] at inductionHypothesis
      rcases List.mem_cons.mp member with rfl | behind
      · rw [if_neg plain, List.modifyHead_cons]
        exact ⟨letter :: front, List.mem_cons_self, List.mem_cons_self⟩
      · obtain ⟨line, found, inside⟩ := inductionHypothesis behind
        by_cases broken : first = '\n'
        · rw [if_pos broken]
          exact ⟨line, List.mem_cons_of_mem [] found, inside⟩
        · rw [if_neg broken, List.modifyHead_cons]
          rcases List.mem_cons.mp found with rfl | member
          · exact ⟨first :: line, List.mem_cons_self, List.mem_cons_of_mem first inside⟩
          · exact ⟨line, List.mem_cons_of_mem _ member, inside⟩

theorem length_lines (text : Text) : (lines text).length = text.count '\n' + 1 := by
  induction text with
  | nil => rfl
  | cons letter rest inductionHypothesis =>
    rw [lines_cons]
    split
    · next same => simp [same, inductionHypothesis]
    · next other => simp [other, inductionHypothesis]

/-- Lines with a line feed behind each of them. -/
def ended (lines : List Text) : Text := lines.flatMap (· ++ ['\n'])

theorem ended_append (front back : List Text) : ended (front ++ back) = ended front ++ ended back :=
  List.flatMap_append

theorem ended_cons (line : Text) (rest : List Text) : ended (line :: rest) = line ++ ['\n'] ++ ended rest :=
  List.flatMap_cons

theorem ended_singleton (line : Text) : ended [line] = line ++ ['\n'] := List.flatMap_singleton _ _

theorem unlines_append (front back : List Text) (more : back ≠ []) :
    unlines (front ++ back) = ended front ++ unlines back := by
  induction front with
  | nil => rfl
  | cons line rest inductionHypothesis =>
    have joined : unlines (line :: (rest ++ back)) = line ++ ['\n'] ++ unlines (rest ++ back) :=
      List.intercalate_cons_of_ne_nil (List.append_ne_nil_of_right_ne_nil rest more)
    rw [List.cons_append, joined, inductionHypothesis, ended_cons, List.append_assoc _ (ended rest)]

theorem unlines_singleton (line : Text) : unlines [line] = line := List.intercalate_singleton

theorem ended_eq (rows : List Text) (several : rows ≠ []) : ended rows = unlines rows ++ ['\n'] := by
  rw [← List.dropLast_append_getLast several, ended_append, ended_singleton, unlines_append _ _ (by simp),
    unlines_singleton, List.append_assoc]

private theorem unlines_drop_one (text : Text) :
    unlines ((lines text).drop 1) = (text.dropWhile (· ≠ '\n')).drop 1 := by
  induction text with
  | nil => rfl
  | cons letter rest inductionHypothesis =>
    rw [lines_cons]
    by_cases broken : letter = '\n'
    · simp [broken, unlines_lines]
    · rw [if_neg broken, List.dropWhile_cons, if_pos (by simpa using broken), ← inductionHypothesis]
      cases lines rest <;> rfl

theorem cut_last (text : Text) : '\n' ∉ text ∨ ∃ front last, text = front ++ '\n' :: last ∧ '\n' ∉ last := by
  by_cases broken : '\n' ∈ text.reverse
  · obtain ⟨last, front, split, plain⟩ := List.eq_append_cons_of_mem broken
    refine .inr ⟨front.reverse, last.reverse, ?_, by simpa using plain⟩
    rw [← List.reverse_reverse text, split]
    simp
  · exact .inl (by simpa using broken)

theorem unbroken_reverse (text : Text) (unbroken : '\n' ∉ text) :
    ∀ letter ∈ text.reverse, decide (letter ≠ '\n') = true := by
  intro letter member
  exact decide_eq_true fun same => unbroken (same ▸ List.mem_reverse.mp member)

theorem reverse_stop (front last : Text) (unbroken : '\n' ∉ last) :
    (front ++ '\n' :: last).reverse.takeWhile (· ≠ '\n') = last.reverse ∧
      (front ++ '\n' :: last).reverse.dropWhile (· ≠ '\n') = '\n' :: front.reverse := by
  have turned : (front ++ '\n' :: last).reverse = last.reverse ++ '\n' :: front.reverse := by simp
  have plain := unbroken_reverse last unbroken
  rw [turned]
  exact ⟨takeWhile_stop _ _ _ _ plain (by decide), dropWhile_stop _ _ _ _ plain (by decide)⟩

private theorem unlines_dropLast (text : Text) :
    unlines (lines text).dropLast = ((text.reverse.dropWhile (· ≠ '\n')).drop 1).reverse := by
  rcases cut_last text with unbroken | ⟨front, last, rfl, unbroken⟩
  · have passed : text.reverse.dropWhile (· ≠ '\n') = [] :=
      List.dropWhile_eq_nil_iff.mpr (unbroken_reverse text unbroken)
    rw [passed, lines_of_unbroken text unbroken]
    rfl
  · rw [(reverse_stop front last unbroken).2, lines_append, lines_of_unbroken last unbroken, List.dropLast_concat,
      unlines_lines, List.drop_one, List.tail_cons, List.reverse_reverse]

end Text

namespace Block

open Text

theorem lines_unlines (rows : List Text) (depth : Nat) (unbroken : ∀ row ∈ rows, '\n' ∉ row)
    (nonempty : rows ≠ []) : Block.lines ⟨unlines rows, depth⟩ = rows :=
  Text.lines_unlines rows unbroken nonempty

theorem spansLines_iff (block : Block) : block.spansLines = true ↔ 1 < block.lineCount := by
  rw [spansLines, List.contains_iff_mem, lineCount, Block.lines, length_lines, ← List.count_pos_iff]
  omega

theorem firstLine_eq (block : Block) : block.firstLine = block.lines.head?.getD [] := by
  obtain ⟨content, depth⟩ := block
  simp only [firstLine, Block.lines]
  induction content with
  | nil => rfl
  | cons letter rest inductionHypothesis =>
    rw [lines_cons]
    split
    · next same => simp [same]
    · next other =>
      rw [List.takeWhile_cons, if_pos (by simpa using other), inductionHypothesis]
      cases split : Text.lines rest with
      | nil => exact absurd split (lines_ne_nil rest)
      | cons first later => rfl

theorem lastLine_eq (block : Block) : block.lastLine = block.lines.getLast?.getD [] := by
  obtain ⟨content, depth⟩ := block
  simp only [lastLine, Block.lines]
  rcases cut_last content with unbroken | ⟨front, last, rfl, unbroken⟩
  · have taken : content.reverse.takeWhile (· ≠ '\n') = content.reverse :=
      List.takeWhile_eq_self_iff.mpr (unbroken_reverse content unbroken)
    rw [taken, List.reverse_reverse, lines_of_unbroken content unbroken]
    rfl
  · rw [(reverse_stop front last unbroken).1, List.reverse_reverse, lines_append, lines_of_unbroken last unbroken,
      List.getLast?_concat]
    rfl

/-- What is between the first line feed and the last one is all lines between the first one and the last one. -/
theorem interior_eq (block : Block) : block.interior = unlines (block.lines.drop 1).dropLast := by
  have below := unlines_drop_one block.content
  cases rest : block.lines.drop 1 with
  | nil =>
    rw [Block.lines] at rest
    rw [interior, ← below, rest]
    rfl
  | cons row more =>
    have unbroken : ∀ line ∈ row :: more, '\n' ∉ line := by
      intro line member
      exact unbroken_of_mem_lines block.content line (List.mem_of_mem_drop (rest ▸ member))
    rw [Block.lines] at rest
    rw [interior, ← below, ← unlines_dropLast, rest, Text.lines_unlines _ unbroken (by simp)]

/-- The parts of a block make up its content. -/
structure Composed (block : Block) : Prop where
  joined : unlines block.lines = block.content
  several : 2 ≤ block.lineCount ↔ block.spansLines = true
  /-- From three lines on there are a first one, a last one and something between them. -/
  whole : 3 ≤ block.lineCount →
    block.content = block.firstLine ++ ['\n'] ++ block.interior ++ ['\n'] ++ block.lastLine

theorem composed (block : Block) : block.Composed where
  joined := block.unlines_lines
  several := block.spansLines_iff.symm
  whole long := by
    rw [firstLine_eq, lastLine_eq, interior_eq, ← block.unlines_lines]
    rw [lineCount] at long
    obtain ⟨first, rest, lines⟩ := List.exists_cons_of_length_pos (Nat.lt_of_lt_of_le (by decide) long)
    rw [lines, List.length_cons] at long
    obtain ⟨middle, last, same⟩ :=
      (List.eq_nil_or_concat' rest).resolve_left (List.ne_nil_of_length_pos (by omega))
    rw [same, List.length_append, List.length_singleton] at long
    have filled : middle ≠ [] := List.ne_nil_of_length_pos (by omega)
    rw [lines, same, List.drop_one, List.tail_cons, List.dropLast_concat, ← List.cons_append, List.getLast?_concat,
      unlines_append _ _ (by simp), ended_cons, ended_eq middle filled, unlines_singleton, ← List.append_assoc]
    rfl

end Block

end MarkupOutline
