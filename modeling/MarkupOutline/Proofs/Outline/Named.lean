import MarkupOutline.Proofs.Block.Forward
import MarkupOutline.Proofs.Outline.Gathered

/-! What the row of a collapsed node says is true of the lines that it stands for. The name in it is that of the tag
in the first line, and the last line is the one that closes this element. -/
namespace MarkupOutline

namespace Block

open Text

/-- The last of these lines is the first by whose end more tags of a name have been closed than opened. -/
structure ClosesLast (rules : Line.Rules) (name : Text) (lines : List Text) : Prop where
  before : ∀ count < lines.length, ((lines.take count).flatMap rules.tags).count (.closing name) ≤
    ((lines.take count).flatMap rules.tags).count (.opening name)
  last : (lines.flatMap rules.tags).count (.opening name) < (lines.flatMap rules.tags).count (.closing name)

variable {rules : Line.Rules}

private theorem sum_weightOf (name : Text) (lines : List Text) : (lines.map (weightOf rules name)).sum =
    ((lines.flatMap rules.tags).count (.opening name) : Int) - (lines.flatMap rules.tags).count (.closing name) := by
  induction lines with
  | nil => rfl
  | cons line rest inductionHypothesis =>
    rw [List.map_cons, List.sum_cons, inductionHypothesis, weightOf_eq_count, List.flatMap_cons, List.count_append,
      List.count_append]
    omega

/-- A scan with one open element stops where the lines first close more than they open. -/
theorem closesLast_of_scan {name : Text} {lines : List Text} {position : Nat}
    (found : scanClosing? rules name 1 lines = some position) :
    ClosesLast rules name (lines.take (position + 1)) := by
  have front : ∀ stop, window lines 0 stop = lines.take stop := fun _ => rfl
  obtain ⟨used, more⟩ := (scanClosing?_eq_some_iff rules name 1 lines Int.one_pos position).mp found
  simp only [front, sum_weightOf] at used more
  constructor
  · intro count within
    have short : count < position + 1 := Nat.lt_of_lt_of_le within (List.length_take_le _ _)
    rw [List.take_take, Nat.min_eq_left short.le]
    cases count with
    | zero => exact Nat.le_refl 0
    | succ earlier =>
      have left := more earlier (by omega)
      omega
  · omega

private theorem followers_close {line : Text} {rest : List Text} {tag : Line.Opener}
    (opens : rules.opener? line = some tag)
    (several : 0 < followers rules line rest) : ClosesLast rules tag.name (rest.take (followers rules line rest)) := by
  rw [followers, openName?, opens, Option.bind_some] at several ⊢
  split at several
  · next unclosed =>
    rw [if_pos unclosed, Option.bind_some] at *
    cases found : scanClosing? rules tag.name 1 rest with
    | none =>
      rw [found] at several
      exact absurd several (Nat.lt_irrefl 0)
    | some position => exact closesLast_of_scan found
  · exact absurd several (Nat.lt_irrefl 0)

private theorem scanRange?_closes {lines : List Text} {start stop : Nat} {extent : Extent} {tag : Line.Opener}
    (inside : stop ≤ lines.length) (found : scanRange? rules lines start stop = some extent)
    (opens : rules.opener? (lines[extent.first]?.getD []) = some tag) (long : extent.first + 1 < extent.stop) :
    ClosesLast rules tag.name (window lines (extent.first + 1) extent.stop) := by
  obtain ⟨line, here, _, _, _, _, stops, _⟩ := (scanRange?_eq_some_iff extent inside).mp found
  have bounds := scanRange?_bounds rules lines start stop extent inside found
  rw [here, Option.getD_some] at opens
  have size : followers rules line (window lines (extent.first + 1) stop) = extent.stop - (extent.first + 1) := by omega
  have several : 0 < followers rules line (window lines (extent.first + 1) stop) := by omega
  have closes := followers_close opens several
  rwa [size, take_window _ _ _ _ bounds.2.2] at closes

end Block

namespace Outline

open Text Block

/-- A node goes by the name of a tag: the one that its first line opens and that its last line closes. -/
structure NamedBy (outline : Outline) (id : Nat) (node : Node) (tag : Line.Opener) : Prop where
  opens : Line.Angle.opener? (outline.skeleton.firstLine node) = some tag
  named : tag.name ≠ []
  name : outline.skeleton.name? node = some tag.name
  shortened : collapsedText outline.skeleton node =
    ['<'] ++ tag.name ++ ['>', '.', '.', '.', '<', '/'] ++ tag.name ++ ['>']
  row : (outline.node? id).isSome = true → outline.folding id = .collapsed →
    outline.rows.filter (fun row => row.node == id) =
      [⟨id, (outline.skeleton.ancestors id).length, some .expand, collapsedText outline.skeleton node⟩]
  closes : ClosesLast Line.Angle.rules tag.name (outline.skeleton.block node).lines.tail

section Reached

variable {rules : Line.Rules} {text : Text} {outline : Outline} (based : Over rules text outline) {id : Nat}
  {node : Node} (known : outline.skeleton.nodes[id]? = some node)

include based known

/-- A node folds under the tag that its first line opens, and its block ends where that element is closed. -/
theorem Over.opens_closes (folds : node.nameBytes.isSome = true) : ∃ tag,
    foldingTag? rules (window (Text.lines text) node.first node.stop) = some tag ∧
      rules.opener? (outline.skeleton.firstLine node) = some tag ∧
        ClosesLast rules tag.name (outline.skeleton.block node).lines.tail := by
  obtain ⟨first, last, inside, found⟩ := based.found known
  have ⟨_, nonempty, ends⟩ := scanRange?_bounds rules _ first last node.extent inside found
  simp only [Node.extent] at nonempty ends
  have lines : (outline.skeleton.block node).lines = _ := based.lines_content known
  have several := nameBytes_isSome rules text id node (based.skeleton ▸ known)
  rw [← based.skeleton, lines, folds, eq_comm, Option.isSome_iff_exists] at several
  obtain ⟨tag, folding⟩ := several
  have long := foldingTag?_long folding
  rw [length_window _ _ _ (by omega)] at long
  have opens := foldingTag?_opener folding
  rw [List.head?_eq_getElem?, getElem?_window _ _ _ _ nonempty, Nat.add_zero] at opens
  refine ⟨tag, folding, ?_, ?_⟩
  · rw [Skeleton.firstLine, based.line_eq]
    exact opens
  · rw [lines, tail_window]
    exact scanRange?_closes inside found opens (by simp only [Node.extent]; omega)

end Reached

/-- In every state that folding leads to, a node that folds goes by the name of the tag in its first line. This name is
in its row while it is collapsed, and its block ends with the first line by which more such elements have been closed
behind the first line than opened. -/
theorem run_named (text : Text) (actions : List Action) :
    let outline := ((Outline.ofText Line.Angle.rules text).run actions).2
    ∀ (id : Nat) (node : Node), outline.skeleton.nodes[id]? = some node → node.nameBytes.isSome = true →
      ∃ tag, NamedBy outline id node tag := by
  intro outline id node known folds
  have based : Over Line.Angle.rules text outline := ((over_ofText Line.Angle.rules text).run_eq actions).1
  obtain ⟨tag, folding, opens, closes⟩ := based.opens_closes known folds
  obtain ⟨_, opening⟩ := Line.Angle.opening_of_opener? _ tag opens
  have name : outline.skeleton.name? node = some tag.name := by
    have cut := name?_ofText text id node (based.skeleton ▸ known)
    rwa [← based.skeleton, folding] at cut
  refine ⟨tag, opens, opening.named, name, ?_, fun shown folded => ?_, closes⟩
  · rw [collapsedText, name, Option.getD_some]
  · obtain ⟨other, same, rows⟩ := based.filter_rows id shown
    cases known.symm.trans same
    rw [rows, ownRows, folded]

/-- A name of two bytes behind a margin of three, in an element whose last line closes another one before it. -/
theorem run_named_crowded :
    let text := "\u3000<é><b></b>\n\t<é>\nx</é></é>\n".toList
    let outline := ((Outline.ofText Line.Angle.rules text).run [.toggleId 0]).2
    let node : Node := ⟨0, 3, 0, some 2, none, 1⟩
    outline.skeleton.nodes[0]? = some node ∧ NamedBy outline 0 node ⟨"é".toList, "<b></b>".toList⟩ ∧
      outline.rows.filter (fun row => row.node == 0) = [⟨0, 0, some .expand, "<é>...</é>".toList⟩] := by
  intro text outline node
  have known : outline.skeleton.nodes[0]? = some node := by decide +kernel
  obtain ⟨tag, facts⟩ := run_named text [.toggleId 0] 0 node known rfl
  have opens : Line.Angle.opener? (outline.skeleton.firstLine node) = some ⟨"é".toList, "<b></b>".toList⟩ := by
    decide +kernel
  obtain rfl : tag = ⟨"é".toList, "<b></b>".toList⟩ := Option.some.inj (facts.opens.symm.trans opens)
  refine ⟨known, facts, (facts.row (by decide +kernel) (by decide +kernel)).trans ?_⟩
  rw [facts.shortened]
  decide +kernel

end Outline

end MarkupOutline
