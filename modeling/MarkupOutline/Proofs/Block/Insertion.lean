import MarkupOutline.Proofs.Block.Partition
import MarkupOutline.Proofs.Line.Written

/-! What a line changes that is put into a block. If the line closes no element, all other blocks stay as they
were, and the block itself takes the line in unless the line leaves its element open. A self-closing tag does
so if it has the name of that element and something stands behind the name. -/
namespace MarkupOutline

namespace Block

open Text

/-- How many elements of a name are open at the end of some lines, if one was open before them. -/
def leftOpen (rules : Line.Rules) (name : Text) (lines : List Text) : Int :=
  1 + (lines.map (weightOf rules name)).sum

section Followers

variable {rules : Line.Rules} {first line : Text} {front back : List Text}

private theorem followers_insert_behind (raises : ∀ name, 0 ≤ weightOf rules name line)
    (short : followers rules first (front ++ back) ≤ front.length) :
    followers rules first (front ++ line :: back) = followers rules first (front ++ back) := by
  cases opens : openName? rules first with
  | none => simp only [followers, opens, Option.bind_none]
  | some name =>
    simp only [followers, opens, Option.bind_some] at short ⊢
    rw [scanClosing?_append] at short
    rw [scanClosing?_append, scanClosing?_append]
    cases inFront : scanClosing? rules name 1 front with
    | some position => rfl
    | none =>
      have positive := scanClosing?_none_open rules name 1 front (by decide) inFront
      have weight := raises name
      rw [inFront, Option.none_or] at short
      rw [Option.none_or, Option.none_or, scanClosing?_onward _ _ _ _ _ (by omega)]
      cases behind : scanClosing? rules name (1 + (front.map (weightOf rules name)).sum) back with
      | some position =>
        rw [behind] at short
        simp only [Option.map_some, Option.getD_some] at short
        omega
      | none => rw [scanClosing?_none_of_le _ _ _ _ _ (by omega) behind, Option.map_none, Option.map_none]

private theorem scanClosing?_raised_iff {name : Text} {count extra : Int} {lines : List Text} {position : Nat}
    (positive : 0 < count) (raised : 0 ≤ extra) (found : scanClosing? rules name count lines = some position) :
    scanClosing? rules name (count + extra) lines = some position ↔
      count + ((window lines 0 (position + 1)).map (weightOf rules name)).sum + extra ≤ 0 := by
  obtain ⟨_, unused⟩ := (scanClosing?_eq_some_iff rules name count lines positive position).mp found
  rw [scanClosing?_eq_some_iff rules name (count + extra) lines (by omega) position]
  constructor
  · intro ⟨used, _⟩
    omega
  · intro closed
    refine ⟨by omega, fun earlier before => ?_⟩
    have open_ := unused earlier before
    omega

/-- A block takes in a line put into it if all elements are closed at its end with the line counted in. -/
theorem followers_insert_inside (line : Text) (front back : List Text) {name : Text}
    (opens : openName? rules first = some name) (raises : 0 ≤ weightOf rules name line)
    (long : front.length < followers rules first (front ++ back)) :
    followers rules first (front ++ line :: back) = followers rules first (front ++ back) + 1 ↔
      leftOpen rules name ((front ++ back).take (followers rules first (front ++ back))) +
        weightOf rules name line ≤ 0 := by
  simp only [followers, opens, Option.bind_some] at long ⊢
  rw [scanClosing?_append] at long ⊢
  rw [scanClosing?_append]
  cases inFront : scanClosing? rules name 1 front with
  | some position =>
    have inside := scanClosing?_lt rules name 1 front position inFront
    rw [inFront, Option.some_or, Option.map_some, Option.getD_some] at long
    omega
  | none =>
    have positive := scanClosing?_none_open rules name 1 front (by decide) inFront
    rw [inFront, Option.none_or] at long
    rw [Option.none_or, Option.none_or, scanClosing?_onward _ _ _ _ _ (by omega)]
    cases behind : scanClosing? rules name (1 + (front.map (weightOf rules name)).sum) back with
    | none =>
      rw [behind] at long
      exact absurd long (Nat.not_lt_zero _)
    | some position =>
      have open_ : leftOpen rules name ((front ++ back).take (front.length + position + 1)) =
          1 + (front.map (weightOf rules name)).sum +
            ((window back 0 (position + 1)).map (weightOf rules name)).sum := by
        rw [leftOpen, Nat.add_assoc, List.take_length_add_append, List.map_append, List.sum_append, add_assoc]
        rfl
      have same : (scanClosing? rules name
          (1 + (front.map (weightOf rules name)).sum + weightOf rules name line) back) = some position ↔ _ :=
        scanClosing?_raised_iff positive raises behind
      rw [Option.map_some, Option.map_some, Option.getD_some, open_, ← same]
      cases scanClosing? rules name
          (1 + (front.map (weightOf rules name)).sum + weightOf rules name line) back with
      | none => simp
      | some other =>
        simp only [Option.map_some, Option.getD_some, Option.some.injEq]
        omega

private theorem followers_closed {rest : List Text} (long : 0 < followers rules first rest) :
    ∃ name, openName? rules first = some name ∧
      leftOpen rules name (rest.take (followers rules first rest)) ≤ 0 := by
  cases opens : openName? rules first with
  | none =>
    rw [followers, opens] at long
    exact absurd long (Nat.lt_irrefl 0)
  | some name =>
    refine ⟨name, rfl, ?_⟩
    simp only [followers, opens, Option.bind_some] at long ⊢
    cases scanned : scanClosing? rules name 1 rest with
    | none =>
      rw [scanned] at long
      exact absurd long (Nat.lt_irrefl 0)
    | some position =>
      obtain ⟨used, _⟩ := (scanClosing?_eq_some_iff rules name 1 rest (by decide) position).mp scanned
      exact Int.not_lt.mp used

end Followers

section Insertion

variable {rules : Line.Rules} {lines : List Text} {place start : Nat} {extent : Extent}

/-- Put into a text behind the first line of a block, a line has no influence on where the block starts. -/
theorem scanRange?_insertIdx (line : Text) (behind : extent.first < place) (inside : place ≤ lines.length)
    (found : scanRange? rules lines start lines.length = some extent) :
    ∃ first, lines[extent.first]? = some first ∧
      extent.stop = extent.first + 1 + followers rules first
        (window lines (extent.first + 1) place ++ window lines place lines.length) ∧
      scanRange? rules (lines.insertIdx place line) start (lines.length + 1) =
        some { extent with
          stop := extent.first + 1 + followers rules first
            (window lines (extent.first + 1) place ++ line :: window lines place lines.length) } := by
  obtain ⟨first, here, lower, reached, passed, solidFirst, stops, depth⟩ :=
    (scanRange?_eq_some_iff extent (Nat.le_refl _)).mp found
  rw [← window_append lines (extent.first + 1) place lines.length behind inside] at stops
  refine ⟨first, here, stops, (scanRange?_eq_some_iff _ ?_).mpr
    ⟨first, ?_, lower, Nat.lt_succ_of_lt reached, ?_, solidFirst, ?_, depth⟩⟩
  · rw [List.length_insertIdx_of_le_length inside]
  · rw [List.getElem?_insertIdx_of_lt behind, here]
  · rw [window_insertIdx_before _ _ _ _ _ (Nat.le_of_lt behind)]
    exact passed
  · rw [window_insertIdx _ _ _ _ _ behind inside inside]

end Insertion

/-- The block with a line put into it. -/
def insertLine (block : Block) (index : Nat) (line : Text) : Block :=
  { block with content := unlines (block.lines.insertIdx index line) }

section Text

variable {rules : Line.Rules} {text line : Text} {place : Nat} {extent : Extent}

theorem unbroken_insertIdx (single : '\n' ∉ line) : ∀ row ∈ (Text.lines text).insertIdx place line, '\n' ∉ row := by
  intro row membership
  rcases List.eq_or_mem_of_mem_insertIdx membership with rfl | old
  · exact single
  · exact unbroken_of_mem_lines text row old

private theorem insertLine_blockAt (behind : extent.first < place) (before : place < extent.stop)
    (inside : extent.stop ≤ (Text.lines text).length) :
    (blockAt (Text.lines text) extent).insertLine (place - extent.first) line =
      blockAt ((Text.lines text).insertIdx place line) { extent with stop := extent.stop + 1 } := by
  rw [insertLine, lines_blockAt text extent (by omega) inside,
    insertIdx_window _ _ _ _ _ (Nat.le_of_lt behind) (Nat.le_of_lt before) inside]
  rfl

private theorem stop_eq_of_blockAt {rows : List Text} (unbroken : ∀ row ∈ rows, '\n' ∉ row)
    (first stop other depth : Nat)
    (nonempty : first < stop) (otherNonempty : first < other) (inside : stop ≤ rows.length)
    (otherInside : other ≤ rows.length)
    (same : blockAt rows ⟨first, stop, depth⟩ = blockAt rows ⟨first, other, depth⟩) :
    stop = other := by
  have known : Text.lines (unlines rows) = rows := by
    apply Text.lines_unlines rows unbroken
    rintro rfl
    exact absurd inside (by simp; omega)
  have lines := congrArg Block.lines same
  rw [← known, lines_blockAt _ _ nonempty (by rwa [known]), lines_blockAt _ _ otherNonempty (by rwa [known]),
    known] at lines
  have sizes := congrArg List.length lines
  rw [length_window _ _ _ inside, length_window _ _ _ otherInside] at sizes
  dsimp only at sizes
  omega

theorem firstLine_blockAt (nonempty : extent.first < extent.stop) (inside : extent.stop ≤ (Text.lines text).length) :
    (Text.lines text)[extent.first]? = some (blockAt (Text.lines text) extent).firstLine := by
  rw [firstLine_eq, lines_blockAt text extent nonempty inside, window_cons _ _ _ nonempty (by omega),
    List.getElem?_eq_getElem]
  rfl

theorem tail_lines_blockAt (nonempty : extent.first < extent.stop) (inside : extent.stop ≤ (Text.lines text).length) :
    (blockAt (Text.lines text) extent).lines.tail =
      (window (Text.lines text) (extent.first + 1) (Text.lines text).length).take
        (extent.stop - (extent.first + 1)) := by
  rw [lines_blockAt text extent nonempty inside, tail_window, window, window, List.take_take,
    Nat.min_eq_left (by omega)]

/-- A block of several lines starts with a line that opens an element, and at its end none is left open. -/
theorem leftOpen_blockAt {start : Nat}
    (found : extent ∈ (Source.ofText rules text).extentsFrom start (Text.lines text).length)
    (long : extent.first + 1 < extent.stop) :
    ∃ name, openName? rules (blockAt (Text.lines text) extent).firstLine = some name ∧
      leftOpen rules name (blockAt (Text.lines text) extent).lines.tail ≤ 0 := by
  have ⟨_, nonempty, inside⟩ :=
    (partition_extentsFrom rules text start (Text.lines text).length (Nat.le_refl _)).within extent found
  obtain ⟨reached, scanned⟩ := Source.scanRange?_of_mem (Nat.le_refl _) found
  obtain ⟨first, here, _, _, _, _, stops, _⟩ := (scanRange?_eq_some_iff extent (Nat.le_refl _)).mp scanned
  rw [firstLine_blockAt nonempty inside, Option.some.injEq] at here
  have count : extent.stop - (extent.first + 1) =
      followers rules first (window (Text.lines text) (extent.first + 1) (Text.lines text).length) := by omega
  rw [tail_lines_blockAt nonempty inside, count, here]
  exact followers_closed (by omega)

/-- If a line closes no element, putting it into the first block of a range leaves the other blocks alone.
The block takes it in if and only if no element is left open at its end with the line counted in. -/
theorem scanBlocks_insert_first_iff {name : Text} {later : List Extent} (single : '\n' ∉ line)
    (raises : 0 ≤ weightOf rules name line) (behind : extent.first < place) (before : place < extent.stop)
    (opens : openName? rules (blockAt (Text.lines text) extent).firstLine = some name) (start : Nat)
    (cut : (Source.ofText rules text).extentsFrom start (Text.lines text).length = extent :: later) :
    scanBlocks rules (window ((Text.lines text).insertIdx place line) start ((Text.lines text).length + 1)) =
        (blockAt (Text.lines text) extent).insertLine (place - extent.first) line ::
          later.map (blockAt (Text.lines text)) ↔
      leftOpen rules name (blockAt (Text.lines text) extent).lines.tail + weightOf rules name line ≤ 0 := by
  obtain ⟨found, rest⟩ := Source.extentsFrom_cons (Nat.le_refl _) cut
  have ⟨_, nonempty, inside⟩ := scanRange?_bounds rules _ start _ extent (Nat.le_refl _) found
  have size : ((Text.lines text).insertIdx place line).length = (Text.lines text).length + 1 :=
    List.length_insertIdx_of_le_length (by omega) line
  obtain ⟨first, here, stops, again⟩ := scanRange?_insertIdx line behind (by omega) found
  have ⟨_, moreNonempty, moreInside⟩ := scanRange?_bounds rules _ start _ _ size.ge again
  dsimp only at moreNonempty moreInside
  rw [firstLine_blockAt nonempty inside, Option.some.injEq] at here
  have front := length_window (Text.lines text) (extent.first + 1) place (by omega)
  have core := followers_insert_inside line (window (Text.lines text) (extent.first + 1) place)
    (window (Text.lines text) place (Text.lines text).length) (here ▸ opens) raises (by omega)
  have count : followers rules first (window (Text.lines text) (extent.first + 1) place ++
      window (Text.lines text) place (Text.lines text).length) = extent.stop - (extent.first + 1) := by omega
  rw [count, window_append _ _ _ _ behind (by omega), ← tail_lines_blockAt nonempty inside] at core
  rw [scanBlocks_next rules _ start _ _ size.ge again, insertLine_blockAt behind before inside, List.cons.injEq, ← core]
  constructor
  · intro ⟨same, _⟩
    have stop := stop_eq_of_blockAt (unbroken_insertIdx single) _ _ _ _ moreNonempty (by omega)
      (by omega) (by omega) same
    omega
  · intro longer
    have reached : extent.first + 1 + followers rules first (window (Text.lines text) (extent.first + 1) place ++
        line :: window (Text.lines text) place (Text.lines text).length) = extent.stop + 1 := by omega
    rw [reached, window_insertIdx_behind _ _ _ _ _ (Nat.le_of_lt before), ← block_ofText rules text,
      ← extentsFrom_blocks rules text _ _ (Nat.le_refl _), rest]
    exact ⟨rfl, rfl⟩

/-- Also the blocks in front of the one that a line is put into stay as they are. -/
theorem scanBlocks_insert_iff {name : Text} {later : List Extent} (single : '\n' ∉ line)
    (raises : ∀ name, 0 ≤ weightOf rules name line) (behind : extent.first < place) (before : place < extent.stop)
    (opens : openName? rules (blockAt (Text.lines text) extent).firstLine = some name) (start : Nat)
    (earlier : List Extent)
    (cut : (Source.ofText rules text).extentsFrom start (Text.lines text).length = earlier ++ extent :: later) :
    scanBlocks rules (window ((Text.lines text).insertIdx place line) start ((Text.lines text).length + 1)) =
        earlier.map (blockAt (Text.lines text)) ++
          (blockAt (Text.lines text) extent).insertLine (place - extent.first) line ::
            later.map (blockAt (Text.lines text)) ↔
      leftOpen rules name (blockAt (Text.lines text) extent).lines.tail + weightOf rules name line ≤ 0 := by
  induction earlier generalizing start with
  | nil => exact scanBlocks_insert_first_iff single (raises name) behind before opens start cut
  | cons passed earlier inductionHypothesis =>
    obtain ⟨found, rest⟩ := Source.extentsFrom_cons (Nat.le_refl _) cut
    have ⟨apart, _, inside⟩ := (partition_extentsFrom rules text passed.stop (Text.lines text).length
      (Nat.le_refl _)).within extent (by simp [rest])
    have ⟨_, nonempty, _⟩ := scanRange?_bounds rules _ start _ passed (Nat.le_refl _) found
    have size : ((Text.lines text).insertIdx place line).length = (Text.lines text).length + 1 :=
      List.length_insertIdx_of_le_length (by omega) line
    obtain ⟨first, _, stops, again⟩ := scanRange?_insertIdx line (by omega : passed.first < place)
      (by omega) found
    have front := length_window (Text.lines text) (passed.first + 1) place (by omega)
    rw [followers_insert_behind raises (by omega), ← stops] at again
    have same : blockAt ((Text.lines text).insertIdx place line) passed = blockAt (Text.lines text) passed := by
      rw [blockAt, window_insertIdx_before _ _ _ _ _ (by omega), blockAt]
    rw [scanBlocks_next rules _ start _ passed size.ge again, same, List.map_cons, List.cons_append,
      List.cons.injEq, eq_self, true_and]
    exact inductionHypothesis passed.stop rest

end Text

end Block

namespace Line.Angle

open Text

/-- A line that is one self-closing tag: a name, then nothing, or white space and what comes behind it. -/
structure SoleEmptyTag (name attributes line : Text) : Prop where
  spelled : trim line = '<' :: (name ++ attributes ++ ['/', '>'])
  single : '\n' ∉ line
  named : name ≠ []
  letters : ∀ letter ∈ name, isWhite letter = false ∧ letter ∉ ['/', '<', '>', '!', '?']
  apart : ∀ letter ∈ attributes.head?, isWhite letter = true
  plain : '<' ∉ attributes ∧ '>' ∉ attributes ∧ '\n' ∉ attributes

namespace SoleEmptyTag

variable {name attributes line : Text} (sole : SoleEmptyTag name attributes line)
include sole

/-- The tag is counted as an opening one. Its slash goes into the name, unless something stands between. -/
theorem tags_eq : tags line = [.opening (if attributes = [] then name ++ ['/'] else name)] := by
  have absent : ∀ letter ∈ ['/', '<', '>', '!', '?'], letter ∉ name := fun letter excluded membership =>
    (sole.letters letter membership).2 excluded
  have unmarked : '<' ∉ name ++ attributes ++ ['/', '>'] := by
    simp [absent '<' (by simp), sole.plain.1]
  have solid : ∀ letter ∈ name, letter ≠ '>' ∧ isWhite letter = false := by
    intro letter membership
    refine ⟨?_, (sole.letters letter membership).1⟩
    rintro rfl
    exact absent '>' (by simp) membership
  have unslashed : name.head? ≠ some '/' := fun slash => absent '/' (by simp) (List.mem_of_head? slash)
  rw [tags, sole.spelled, tagsFrom_mark, tagsFrom_unmarked _ unmarked, List.append_nil]
  cases attributes with
  | nil =>
    have slashed : name ++ [] ++ ['/', '>'] = (name ++ ['/']) ++ '>' :: [] := by simp
    rw [slashed, tagAt?_name (name ++ ['/']) [] '>' ?_ (by simp) ?_ (.inl rfl), if_pos rfl]
    · rfl
    · intro letter membership
      rcases List.mem_append.mp membership with inside | last
      · exact solid letter inside
      · rw [List.mem_singleton.mp last]
        decide
    · rwa [List.head?_append_of_ne_nil _ sole.named]
  | cons space rest =>
    rw [List.append_assoc, List.cons_append, tagAt?_name name _ space solid sole.named unslashed
      (.inr (sole.apart space rfl)), if_neg (List.cons_ne_nil space rest)]
    rfl

theorem weightOf_eq (other : Text) : Block.weightOf rules other line =
    if (if attributes = [] then name ++ ['/'] else name) = other then 1 else 0 := by
  have tags : rules.tags line = _ := sole.tags_eq
  rw [Block.weightOf, tags, List.filter_singleton]
  by_cases same : (if attributes = [] then name ++ ['/'] else name) = other
  · simp [Line.Tag.name, Line.Tag.weight, same]
  · simp [Line.Tag.name, beq_eq_false_iff_ne.mpr same, same]

private theorem weightOf_nonneg (other : Text) : 0 ≤ Block.weightOf rules other line := by
  rw [sole.weightOf_eq]
  by_cases counted : (if attributes = [] then name ++ ['/'] else name) = other
  · rw [if_pos counted]
    decide
  · exact Int.le_of_eq (if_neg counted).symm

end SoleEmptyTag

/-- The name of an element that a line opens has no slash in it. -/
theorem slash_notMem_openName? (line name : Text) (opens : Block.openName? rules line = some name) : '/' ∉ name := by
  obtain ⟨tag, opened, same⟩ := Option.bind_eq_some_iff.mp opens
  obtain ⟨_, opening⟩ := opening_of_opener? line tag opened
  split at same
  · cases same
    intro slash
    exact (opening.letters '/' slash).2 (by simp)
  · cases same

end Line.Angle

namespace Block

open Text Line.Angle

/-- If a line that is one self-closing tag is put into a block, all other blocks stay as they were. The block
takes the line in, unless something stands behind the name of the tag, the block starts with a tag of the same
name, and its other lines do not close more elements of this name than are open. -/
theorem split_insert_iff {name attributes line text : Text} {place : Nat} {earlier later : List Extent}
    {extent : Extent} (sole : SoleEmptyTag name attributes line)
    (cut : (Source.ofText rules text).extentsFrom 0 (Text.lines text).length = earlier ++ extent :: later)
    (behind : extent.first < place) (before : place < extent.stop) :
    let block := (Source.ofText rules text).block
    Block.split rules (unlines ((Text.lines text).insertIdx place line)) =
        earlier.map block ++ (block extent).insertLine (place - extent.first) line :: later.map block ↔
      attributes = [] ∨ openName? rules (block extent).firstLine ≠ some name ∨
        leftOpen rules name (block extent).lines.tail < 0 := by
  intro block
  have known : block = blockAt (Text.lines text) := block_ofText rules text
  have found : extent ∈ (Source.ofText rules text).extentsFrom 0 (Text.lines text).length := by simp [cut]
  have ⟨_, _, inside⟩ :=
    (partition_extentsFrom rules text 0 (Text.lines text).length (Nat.le_refl _)).within extent found
  obtain ⟨opened, opens, closed⟩ := leftOpen_blockAt found (by omega)
  have size : ((Text.lines text).insertIdx place line).length = (Text.lines text).length + 1 :=
    List.length_insertIdx_of_le_length (by omega) line
  have core := scanBlocks_insert_iff sole.single sole.weightOf_nonneg behind before opens 0 earlier cut
  rw [← size, window_all] at core
  rw [known, split_unlines _ _ (unbroken_insertIdx sole.single), core, opens, sole.weightOf_eq]
  by_cases bare : attributes = []
  · -- The name that is counted has a slash, so it is not that of the element of the block.
    have other : name ++ ['/'] ≠ opened := by
      rintro rfl
      exact slash_notMem_openName? _ _ opens (by simp)
    rw [if_pos bare, if_neg other, Int.add_zero]
    exact iff_of_true closed (.inl bare)
  · rw [if_neg bare]
    by_cases same : name = opened
    · subst same
      simp only [bare, if_true, ne_eq, not_true, false_or]
      exact Int.add_one_le_iff
    · have other : some opened ≠ some name := fun equal => same (Option.some.inj equal).symm
      rw [if_neg same, Int.add_zero]
      exact iff_of_true closed (.inr (.inl other))

/-- The block closes more elements than it opens, so it takes in a tag of the name of its element. -/
theorem split_insert_overclosed :
    let text := "<b>\n</b>\n<a>\n</a></a>\n<c>".toList
    let line := "  <a x/>".toList
    SoleEmptyTag ['a'] [' ', 'x'] line ∧
      (Source.ofText rules text).extentsFrom 0 5 = [⟨0, 2, 0⟩] ++ ⟨2, 4, 0⟩ :: [⟨4, 5, 0⟩] ∧
      Block.split rules (unlines ((Text.lines text).insertIdx 3 line)) =
        [⟨"<b>\n</b>".toList, 0⟩, ⟨"<a>\n  <a x/>\n</a></a>".toList, 0⟩, ⟨"<c>".toList, 0⟩] := by
  intro text line
  have sole : SoleEmptyTag ['a'] [' ', 'x'] line :=
    ⟨by decide +kernel, by decide +kernel, by decide, List.forall_mem_singleton.mpr (by decide),
      by rintro _ ⟨⟩; rfl, by decide⟩
  have cut : (Source.ofText rules text).extentsFrom 0 (Text.lines text).length =
      [⟨0, 2, 0⟩] ++ ⟨2, 4, 0⟩ :: [⟨4, 5, 0⟩] := by decide +kernel
  have taken := (split_insert_iff sole cut (by decide : 2 < 3) (by decide)).mpr
    (.inr (.inr (by decide +kernel)))
  exact ⟨sole, cut, taken.trans (by decide +kernel)⟩

/-- A block that closes just what it opens is left without an end by a tag of the name of its element. -/
theorem split_insert_reopened :
    let text := "<a>\n</a>".toList
    let line := "<a x/>".toList
    let block := (Source.ofText rules text).block ⟨0, 2, 0⟩
    SoleEmptyTag ['a'] [' ', 'x'] line ∧ Block.split rules text = [block] ∧
      Block.split rules (unlines ((Text.lines text).insertIdx 1 line)) =
        [⟨"<a>".toList, 0⟩, ⟨"<a x/>".toList, 0⟩, ⟨"</a>".toList, 0⟩] ∧
      Block.split rules (unlines ((Text.lines text).insertIdx 1 line)) ≠ [block.insertLine 1 line] := by
  intro text line block
  exact ⟨⟨by decide +kernel, by decide +kernel, by decide, List.forall_mem_singleton.mpr (by decide),
      by rintro _ ⟨⟩; rfl, by decide⟩,
    by decide +kernel, by decide +kernel, by decide +kernel⟩

end Block

end MarkupOutline
