import MarkupOutline.Proofs.Block.Content
import MarkupOutline.Proofs.Block.Plain

/-! The blocks of a text are runs of its lines, one after the other, with blank lines between them and none
lost. Cutting on demand hands out these blocks and then nothing more. -/
namespace MarkupOutline

namespace Text

/-- The lines that are not blank. -/
def solid (lines : List Text) : List Text := lines.filter fun line => !isBlank line

theorem solid_append (first second : List Text) : solid (first ++ second) = solid first ++ solid second :=
  List.filter_append ..

theorem solid_cons (line : Text) (rest : List Text) : solid (line :: rest) = solid [line] ++ solid rest :=
  solid_append [line] rest

theorem solid_eq_nil_iff (lines : List Text) : solid lines = [] ↔ ∀ line ∈ lines, isBlank line = true := by
  simp [solid, List.filter_eq_nil_iff]

end Text

namespace Block

open Text

/-- The first line that is not blank starts the first block. -/
theorem scanBlock?_eq_some_iff (rules : Line.Rules) (lines : List Text) (extent : Extent) :
    scanBlock? rules lines = some extent ↔ ∃ front line rest, lines = front ++ line :: rest ∧
      solid front = [] ∧ isBlank line = false ∧
        extent = ⟨front.length, front.length + 1 + followers rules line rest, depthOf line⟩ := by
  induction lines generalizing extent with
  | nil => simp [scanBlock?]
  | cons line rest inductionHypothesis =>
    rw [scanBlock?]
    by_cases blank : isBlank line = true
    · rw [if_pos blank, Option.map_eq_some_iff]
      constructor
      · rintro ⟨inner, found, rfl⟩
        obtain ⟨front, first, behind, rfl, passed, starts, rfl⟩ := (inductionHypothesis inner).mp found
        refine ⟨line :: front, first, behind, rfl, ?_, starts, ?_⟩
        · rw [solid_cons, passed, List.append_nil, solid_eq_nil_iff]
          simpa using blank
        · simp only [Extent.shift, List.length_cons, Extent.mk.injEq, and_true]
          omega
      · rintro ⟨front, first, behind, same, passed, starts, rfl⟩
        cases front with
        | nil =>
          rw [List.nil_append, List.cons.injEq] at same
          rw [same.1, starts] at blank
          cases blank
        | cons other front =>
          rw [List.cons_append, List.cons.injEq] at same
          rw [solid_cons, List.append_eq_nil_iff] at passed
          refine ⟨_, (inductionHypothesis _).mpr ⟨front, first, behind, same.2, passed.2, starts, rfl⟩, ?_⟩
          simp only [Extent.shift, List.length_cons, Extent.mk.injEq, and_true]
          omega
    · rw [if_neg blank, Option.some.injEq]
      constructor
      · rintro rfl
        exact ⟨[], line, rest, rfl, rfl, by simpa using blank, by simp⟩
      · rintro ⟨front, first, behind, same, passed, starts, rfl⟩
        cases front with
        | nil =>
          rw [List.nil_append, List.cons.injEq] at same
          simp [same.1, same.2]
        | cons other front =>
          rw [List.cons_append, List.cons.injEq] at same
          rw [solid_eq_nil_iff] at passed
          exact absurd (passed line (by simp [same.1])) blank

private theorem scanBlock?_none (rules : Line.Rules) (lines : List Text) (none : scanBlock? rules lines = none) :
    solid lines = [] := by
  induction lines with
  | nil => rfl
  | cons line rest inductionHypothesis =>
    rw [scanBlock?] at none
    split at none
    · next blank =>
      rw [solid_cons, inductionHypothesis (Option.map_eq_none_iff.mp none), List.append_nil, solid_eq_nil_iff]
      simpa using blank
    · cases none

section Range

variable {rules : Line.Rules} {lines : List Text} {start stop : Nat}

theorem scanRange?_none (done : scanRange? rules lines start stop = none) :
    solid (window lines start stop) = [] :=
  scanBlock?_none rules _ (Option.map_eq_none_iff.mp done)

/-- The first block of a range starts with the first line of the range that is not blank. -/
theorem scanRange?_eq_some_iff (extent : Extent) (inside : stop ≤ lines.length) :
    scanRange? rules lines start stop = some extent ↔ ∃ line, lines[extent.first]? = some line ∧
      start ≤ extent.first ∧ extent.first < stop ∧ solid (window lines start extent.first) = [] ∧
        isBlank line = false ∧
          extent.stop = extent.first + 1 + followers rules line (window lines (extent.first + 1) stop) ∧
            extent.depth = depthOf line := by
  rw [scanRange?, Option.map_eq_some_iff]
  constructor
  · rintro ⟨inner, found, rfl⟩
    obtain ⟨front, line, rest, split, passed, starts, rfl⟩ := (scanBlock?_eq_some_iff rules _ inner).mp found
    obtain ⟨reached, before, here, after⟩ :=
      (window_eq_append_cons_iff lines front rest line start stop inside).mp split
    refine ⟨line, here, Nat.le_add_right _ _, reached, ?_, starts, ?_, rfl⟩
    · simpa only [Extent.shift, before] using passed
    · simp only [Extent.shift, after]
      omega
  · rintro ⟨line, here, lower, reached, passed, starts, stops, depth⟩
    obtain ⟨distance, known⟩ := Nat.exists_eq_add_of_le lower
    have size := length_window lines start extent.first (by omega)
    have front : start + (window lines start extent.first).length = extent.first := by omega
    have split := (window_eq_append_cons_iff lines (window lines start extent.first)
      (window lines (extent.first + 1) stop) line start stop inside).mpr (by
        rw [front]
        exact ⟨reached, rfl, here, rfl⟩)
    refine ⟨_, (scanBlock?_eq_some_iff rules _ _).mpr ⟨_, line, _, split, passed, starts, rfl⟩, ?_⟩
    rw [Extent.shift]
    cases extent
    simp only [Extent.mk.injEq] at *
    omega

theorem scanRange?_solid {extent : Extent} (inside : stop ≤ lines.length)
    (found : scanRange? rules lines start stop = some extent) :
    solid (window lines start stop) =
      solid (window lines extent.first extent.stop) ++ solid (window lines extent.stop stop) := by
  have bounds := scanRange?_bounds rules lines start stop extent inside found
  obtain ⟨_, _, _, _, passed, _⟩ := (scanRange?_eq_some_iff extent inside).mp found
  rw [← window_append lines start extent.first stop bounds.1 (by omega),
    ← window_append lines extent.first extent.stop stop (by omega) bounds.2.2, solid_append, solid_append,
    passed, List.nil_append]

end Range

/-- The blocks of some lines, found by scanning forward. -/
def scanBlocks (rules : Line.Rules) (lines : List Text) : List Block :=
  match _found : scanBlock? rules lines with
  | none => []
  | some extent =>
    ⟨unlines (window lines extent.first extent.stop), extent.depth⟩ ::
      scanBlocks rules (lines.drop extent.stop)
termination_by lines.length
decreasing_by
  have bounds := scanBlock?_bounds rules lines extent _found
  rw [List.length_drop]
  omega

theorem scanBlocks_none (rules : Line.Rules) {lines : List Text} (none : scanBlock? rules lines = none) :
    scanBlocks rules lines = [] := by
  rw [scanBlocks]
  split
  · rfl
  · next extent found => cases none.symm.trans found

theorem scanBlocks_some (rules : Line.Rules) {lines : List Text} {extent : Extent}
    (found : scanBlock? rules lines = some extent) : scanBlocks rules lines =
      ⟨unlines (window lines extent.first extent.stop), extent.depth⟩ :: scanBlocks rules (lines.drop extent.stop) := by
  rw [scanBlocks]
  split
  · next none => cases none.symm.trans found
  · next other again =>
    cases again.symm.trans found
    rfl

def blockAt (lines : List Text) (extent : Extent) : Block :=
  ⟨unlines (window lines extent.first extent.stop), extent.depth⟩

theorem block_ofText (rules : Line.Rules) (text : Text) :
    (Source.ofText rules text).block = blockAt (Text.lines text) := by
  funext extent
  rw [Source.block, Source.span, extract_toList]
  rfl

theorem scanBlocks_done (rules : Line.Rules) (lines : List Text) (start stop : Nat)
    (done : scanRange? rules lines start stop = none) : scanBlocks rules (window lines start stop) = [] :=
  scanBlocks_none rules (Option.map_eq_none_iff.mp done)

theorem scanBlocks_next (rules : Line.Rules) (lines : List Text) (start stop : Nat) (extent : Extent)
    (inside : stop ≤ lines.length) (found : scanRange? rules lines start stop = some extent) :
    scanBlocks rules (window lines start stop) =
      blockAt lines extent :: scanBlocks rules (window lines extent.stop stop) := by
  have bounds := scanRange?_bounds rules lines start stop extent inside found
  obtain ⟨inner, scanned, rfl⟩ := Option.map_eq_some_iff.mp found
  rw [scanBlocks_some rules scanned, window_window _ _ _ _ _ bounds.2.2, drop_window]
  rfl

theorem extentsFrom_blocks (rules : Line.Rules) (text : Text) (start stop : Nat)
    (inside : stop ≤ (Text.lines text).length) :
    ((Source.ofText rules text).extentsFrom start stop).map (Source.ofText rules text).block =
      scanBlocks rules (window (Text.lines text) start stop) := by
  fun_induction (Source.ofText rules text).extentsFrom start stop with
  | case1 start done =>
    rw [Source.nextBlock?_eq rules text _ _ inside] at done
    rw [scanBlocks_done rules _ _ _ done]
    rfl
  | case2 start extent found inductionHypothesis =>
    rw [Source.nextBlock?_eq rules text _ _ inside] at found
    rw [List.map_cons, inductionHypothesis, scanBlocks_next rules _ _ _ extent inside found, block_ofText]

theorem split_eq (rules : Line.Rules) (text : Text) :
    Block.split rules text = scanBlocks rules (Text.lines text) := by
  have whole := extentsFrom_blocks rules text 0 (Text.lines text).length (Nat.le_refl _)
  rw [window_all] at whole
  exact whole

theorem split_unlines (rules : Line.Rules) (rows : List Text) (unbroken : ∀ row ∈ rows, '\n' ∉ row) :
    Block.split rules (unlines rows) = scanBlocks rules rows := by
  rw [split_eq]
  cases rows with
  | nil => rw [scanBlocks_none rules rfl, scanBlocks_none rules rfl]
  | cons row rest => rw [Text.lines_unlines _ unbroken (by simp)]

theorem lines_blockAt (text : Text) (extent : Extent) (nonempty : extent.first < extent.stop)
    (inside : extent.stop ≤ (Text.lines text).length) :
    (blockAt (Text.lines text) extent).lines = window (Text.lines text) extent.first extent.stop := by
  apply Block.lines_unlines
  · intro row membership
    exact unbroken_of_mem_lines text row (mem_of_mem_window _ _ _ row membership)
  · intro empty
    have size := length_window (Text.lines text) extent.first extent.stop inside
    rw [empty, List.length_nil] at size
    omega

/-- Places of blocks between two lines: in order, apart from each other, each from a line that is not blank
on, and with nothing but blank lines outside. -/
structure Partition (lines : List Text) (start stop : Nat) (places : List Extent) : Prop where
  within : ∀ place ∈ places, start ≤ place.first ∧ place.first < place.stop ∧ place.stop ≤ stop
  ordered : places.Pairwise fun earlier later => earlier.stop ≤ later.first
  starts : ∀ place ∈ places, ∃ line, lines[place.first]? = some line ∧ isBlank line = false
  outside : ∀ number line, start ≤ number → number < stop → lines[number]? = some line →
    (∀ place ∈ places, number < place.first ∨ place.stop ≤ number) → isBlank line = true

variable (rules : Line.Rules) (text : Text) (start stop : Nat) (inside : stop ≤ (Text.lines text).length)

include inside in
theorem partition_extentsFrom :
    Partition (Text.lines text) start stop ((Source.ofText rules text).extentsFrom start stop) := by
  fun_induction (Source.ofText rules text).extentsFrom start stop with
  | case1 start done =>
    rw [Source.nextBlock?_eq rules text _ _ inside] at done
    have blank := (solid_eq_nil_iff _).mp (scanRange?_none done)
    refine ⟨by simp, List.Pairwise.nil, by simp, fun number line lower upper found _ => ?_⟩
    exact blank line (mem_window_of_getElem? _ _ _ number line lower upper found)
  | case2 start extent found inductionHypothesis =>
    rw [Source.nextBlock?_eq rules text _ _ inside] at found
    have bounds := scanRange?_bounds rules _ start stop extent inside found
    obtain ⟨first, here, _, _, passed, solidFirst, _⟩ := (scanRange?_eq_some_iff extent inside).mp found
    obtain ⟨within, ordered, starts, outside⟩ := inductionHypothesis
    refine ⟨?_, List.pairwise_cons.mpr ⟨fun place member => (within place member).1, ordered⟩, ?_, ?_⟩
    · intro place membership
      rcases List.mem_cons.mp membership with rfl | later
      · exact bounds
      · have inner := within place later
        omega
    · intro place membership
      rcases List.mem_cons.mp membership with rfl | later
      · exact ⟨first, here, solidFirst⟩
      · exact starts place later
    · intro number line lower upper found apart
      rcases apart extent List.mem_cons_self with before | behind
      · exact (solid_eq_nil_iff _).mp passed line
          (mem_window_of_getElem? _ _ _ number line lower before found)
      · exact outside number line behind upper found fun place later =>
          apart place (List.mem_cons_of_mem extent later)

include inside in
private theorem solid_extentsFrom :
    solid ((((Source.ofText rules text).extentsFrom start stop).map (blockAt (Text.lines text))).flatMap
      Block.lines) = solid (window (Text.lines text) start stop) := by
  fun_induction (Source.ofText rules text).extentsFrom start stop with
  | case1 start done =>
    rw [Source.nextBlock?_eq rules text _ _ inside] at done
    rw [scanRange?_none done]
    rfl
  | case2 start extent found inductionHypothesis =>
    rw [Source.nextBlock?_eq rules text _ _ inside] at found
    have bounds := scanRange?_bounds rules _ start stop extent inside found
    rw [List.map_cons, List.flatMap_cons, solid_append, inductionHypothesis,
      lines_blockAt text extent bounds.2.1 (by omega), scanRange?_solid inside found]

namespace Source

variable {source : Source} {start stop : Nat}

theorem extentsFrom_done (done : source.nextBlock? start stop = none) : source.extentsFrom start stop = [] := by
  rw [extentsFrom]
  split
  · rfl
  · next other => rw [done] at other; cases other

theorem extentsFrom_next {extent : Extent} (found : source.nextBlock? start stop = some extent) :
    source.extentsFrom start stop = extent :: source.extentsFrom extent.stop stop := by
  rw [extentsFrom]
  split
  · next other => rw [found] at other; cases other
  · next other => rw [found] at other; cases other; rfl

theorem extentsFrom_cons {rules : Line.Rules} {text : Text} {extent : Extent} {rest : List Extent}
    (inside : stop ≤ (Text.lines text).length)
    (cut : (Source.ofText rules text).extentsFrom start stop = extent :: rest) :
    scanRange? rules (Text.lines text) start stop = some extent ∧
      (Source.ofText rules text).extentsFrom extent.stop stop = rest := by
  rw [← nextBlock?_eq rules text start stop inside]
  cases found : (Source.ofText rules text).nextBlock? start stop with
  | none =>
    rw [extentsFrom_done found] at cut
    cases cut
  | some other =>
    rw [extentsFrom_next found] at cut
    cases cut
    exact ⟨rfl, rfl⟩

/-- Every place of a range is the first one of what is left of the range at some line. -/
theorem scanRange?_of_mem {rules : Line.Rules} {text : Text} {extent : Extent}
    (inside : stop ≤ (Text.lines text).length) (found : extent ∈ (Source.ofText rules text).extentsFrom start stop) :
    ∃ reached, scanRange? rules (Text.lines text) reached stop = some extent := by
  fun_induction (Source.ofText rules text).extentsFrom start stop with
  | case1 start done => cases found
  | case2 start first next inductionHypothesis =>
    rw [nextBlock?_eq rules text start stop inside] at next
    rcases List.mem_cons.mp found with rfl | later
    · exact ⟨start, next⟩
    · exact inductionHypothesis later

private theorem extentsFrom_empty (source : Source) (stop : Nat) : source.extentsFrom stop stop = [] := by
  apply extentsFrom_done
  rw [nextBlock?, firstSolid?, if_neg (Nat.lt_irrefl stop), Option.map_none]

end Source

/-- Each step hands out the next block in order, and none after the last one. -/
theorem Splitter.answers_eq (source : Source) (line count : Nat) :
    (Splitter.mk source line).answers count = (List.range count).map fun step =>
      ((source.extentsFrom line source.lines.size).map source.block)[step]? := by
  induction count generalizing line with
  | zero => rfl
  | succ count inductionHypothesis =>
    rw [answers, List.range_succ_eq_map, List.map_cons, List.map_map]
    cases found : source.nextBlock? line source.lines.size with
    | none =>
      have ended : (Splitter.mk source line).step = (none, ⟨source, source.lines.size⟩) := by
        rw [step, found]
      rw [ended, inductionHypothesis, Source.extentsFrom_done found, Source.extentsFrom_empty]
      rfl
    | some extent =>
      have stepped : (Splitter.mk source line).step = (some (source.block extent), ⟨source, extent.stop⟩) := by
        rw [step, found]
      rw [stepped, inductionHypothesis, Source.extentsFrom_next found]
      rfl

/-- The blocks of a text are runs of its lines in order with only blank lines between them, so they tell all
lines that are not blank. Cutting on demand hands out these blocks and then ends. -/
theorem split_partition (rules : Line.Rules) (text : Text) :
    let source := Source.ofText rules text
    let lines := Text.lines text
    let places := source.extentsFrom 0 source.lines.size
    let blocks := Block.split rules text
    (∀ count, (Splitter.ofText rules text).answers count = (List.range count).map (blocks[·]?)) ∧
      Partition lines 0 lines.length places ∧
      blocks.map Block.lines = places.map (fun place => window lines place.first place.stop) ∧
      solid (blocks.flatMap Block.lines) = solid lines := by
  intro source lines places blocks
  have partition : Partition lines 0 lines.length places :=
    partition_extentsFrom rules text 0 lines.length (Nat.le_refl _)
  have located : blocks = places.map (blockAt lines) := congrArg places.map (block_ofText rules text)
  refine ⟨Splitter.answers_eq source 0, partition, ?_, ?_⟩
  · rw [located, List.map_map]
    apply List.map_congr_left
    intro place membership
    have bounds := partition.within place membership
    exact lines_blockAt text place bounds.2.1 bounds.2.2
  · have told := solid_extentsFrom rules text 0 lines.length (Nat.le_refl _)
    rw [window_all] at told
    rw [located]
    exact told

end Block

end MarkupOutline
