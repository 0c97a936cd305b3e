import MarkupOutline.Proofs.Outline.Recursive
import MarkupOutline.Proofs.Outline.Forgetful

/-! Folding hides lines but loses none. Put the lines of its block in the place of every collapsed row, and
the rows tell the text again, apart from blank lines, in every state that folding leads to. -/
namespace MarkupOutline.Outline

open Text Block

/-- The lines that a row stands for: those of its whole block if the row is that of a collapsed node. -/
def linesBehind (outline : Outline) (row : Row) : List Text :=
  match row.handle with
  | some .expand =>
    (outline.skeleton.nodes[row.node]?.map fun node => (outline.skeleton.block node).lines).getD []
  | _ => [row.text]

theorem foldingTag?_long {rules : Line.Rules} {lines : List Text} {tag : Line.Opener}
    (folds : foldingTag? rules lines = some tag) : 1 < lines.length := by
  rw [foldingTag?] at folds
  split at folds
  · assumption
  · cases folds

variable {rules : Line.Rules} {text : Text} {outline : Outline}

theorem Over.line_eq (based : Over rules text outline) (number : Nat) :
    outline.skeleton.line number = (Text.lines text)[number]?.getD [] := by
  rw [based.skeleton, Skeleton.line, ← List.getElem?_toArray]
  rfl

theorem Over.range_eq (based : Over rules text outline) (first stop : Nat) :
    outline.skeleton.range first stop = window (Text.lines text) first stop := by
  rw [based.skeleton, Skeleton.range, extract_toList]
  rfl

theorem Over.text_eq (based : Over rules text outline) : outline.text = text := by
  rw [Outline.text, based.skeleton]
  exact Text.unlines_lines text

private theorem Over.linesBehind_collapsed (based : Over rules text outline) {row : Row} {parent : Option Nat}
    {extent : Extent} {tag : Option Line.Opener} {descendants : Nat} (handle : row.handle = some .expand)
    (here : outline.skeleton.nodes[row.node]? = some (nodeOf parent extent tag descendants))
    (nonempty : extent.first < extent.stop) (inside : extent.stop ≤ (Text.lines text).length) :
    outline.linesBehind row = window (Text.lines text) extent.first extent.stop := by
  rw [linesBehind, handle, here]
  dsimp only
  rw [Option.map_some, Option.getD_some, based.skeleton, block_nodeOf, lines_blockAt text extent nonempty inside]

/-- The rows of a forest tell the lines that it has grown from. -/
theorem Over.rows_solid (based : Over rules text outline) {start stop : Nat} {forest : Forest}
    (grown : Forest.Grown rules (Text.lines text) start stop forest) (inside : stop ≤ (Text.lines text).length)
    (parent : Option Nat) (number level : Nat) (stands : Stands outline.skeleton.nodes parent number forest) :
    solid (((forest.view outline.isCollapsed number).rows outline.skeleton number level).flatMap
      outline.linesBehind) = solid (window (Text.lines text) start stop) := by
  induction grown generalizing parent number level with
  | nil done =>
    rw [scanRange?_none done]
    rfl
  | @leaf start stop extent rest found flat behind restHypothesis =>
    have verbatim : ((outline.skeleton.range extent.first extent.stop).map fun text =>
        (⟨number, level, none, text⟩ : Row)).flatMap outline.linesBehind =
          window (Text.lines text) extent.first extent.stop := by
      rw [based.range_eq, List.flatMap_map]
      exact List.flatMap_singleton' _
    rw [Forest.view, View.rows, List.flatMap_append, verbatim, solid_append, scanRange?_solid inside found,
      restHypothesis inside parent (number + 1) level stands.2]
  | @branch start stop extent tag enclosed rest found folds within behind insideHypothesis restHypothesis =>
    have bounds := scanRange?_bounds rules _ start stop extent inside found
    have long := foldingTag?_long folds
    rw [length_window _ _ _ (by omega)] at long
    obtain ⟨here, standing, following⟩ := stands
    have later := restHypothesis inside parent (number + 1 + enclosed.size) level following
    rw [Forest.view, scanRange?_solid inside found, ← later]
    split
    · have block : outline.linesBehind ⟨number, level, some .expand,
          collapsedText outline.skeleton (nodeOf none extent (some tag) 0)⟩ =
            window (Text.lines text) extent.first extent.stop :=
        based.linesBehind_collapsed rfl here bounds.2.1 (by omega)
      rw [View.rows, List.flatMap_cons, block, solid_append]
    · have inner := insideHypothesis (by omega) (some number) (number + 1) (level + 1) standing
      have ends := window_ends (Text.lines text) extent.first extent.stop (by omega) (by omega)
      rw [View.rows, List.flatMap_cons, List.flatMap_append, List.flatMap_cons, ends, Forest.forest_view]
      rw [solid_append, solid_append, inner, solid_append, solid_cons, solid_append, linesBehind, linesBehind,
        based.line_eq, based.line_eq, List.append_assoc, List.append_assoc]

theorem Over.rows_told (based : Over rules text outline) :
    solid (outline.rows.flatMap outline.linesBehind) = solid (Text.lines text) := by
  have told := based.rows_solid (Forest.grown_whole rules (Text.lines text)) (Nat.le_refl _) none 0 0 based.stands
  rwa [window_all, ← view, ← based.rows_eq] at told

theorem rows_of_isEmpty (outline : Outline) (empty : outline.isEmpty = true) : outline.rows = [] := by
  have none : outline.count = 0 := by simpa [isEmpty, Outline.count] using empty
  have done : (Task.siblings 0 0 0).perform outline = ([], []) := by
    rw [Task.perform, if_neg (Nat.lt_irrefl 0)]
  rw [Outline.rows, none, Task.performAll, done, List.nil_append, List.nil_append, Task.performAll]

/-- An outline of a text that has anything in it has a node. -/
theorem Over.isEmpty_of_solid (based : Over rules text outline) (letter : Char) (member : letter ∈ text)
    (solidLetter : isWhite letter = false) : outline.isEmpty = false := by
  by_contra filled
  have unseen := outline.rows_of_isEmpty (Bool.not_eq_false _ ▸ filled)
  obtain ⟨line, found, inside⟩ := mem_lines_of_mem text letter member (by rintro rfl; cases solidLetter)
  have kept : line ∈ solid (Text.lines text) := by
    refine List.mem_filter.mpr ⟨found, ?_⟩
    rw [isBlank, Bool.not_eq_true', List.all_eq_false]
    exact ⟨letter, inside, by rw [solidLetter]; decide⟩
  rw [← based.rows_told, unseen] at kept
  cases kept

/-- However an outline is folded, its rows tell all lines of its text that are not blank, each once and in
order. -/
theorem rows_tell_text (rules : Line.Rules) (text : Text) (actions : List Action) :
    let outline := ((Outline.ofText rules text).run actions).2
    solid (outline.rows.flatMap outline.linesBehind) = solid (Text.lines outline.text) ∧ outline.text = text := by
  intro outline
  have based : Over rules text outline := ((over_ofText rules text).run_eq actions).1
  rw [based.text_eq]
  exact ⟨based.rows_told, rfl⟩

end MarkupOutline.Outline
