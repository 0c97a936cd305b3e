import MarkupOutline.Proofs.Block.Partition
import MarkupOutline.Proofs.Outline.Forest

/-! The outline built in one pass is the recursive one. Its outermost nodes are the blocks of the text, and
the children of a node are the blocks of the text inside it, cut without regard to anything around it. -/
namespace MarkupOutline.Outline

open Text Block

namespace Forest

variable {rules : Line.Rules} {lines : List Text} {start stop : Nat} {forest : Forest}

theorem Grown.blocks (grown : Grown rules lines start stop forest) (inside : stop ≤ lines.length) :
    forest.extents.map (blockAt lines) = scanBlocks rules (window lines start stop) := by
  induction grown with
  | nil done => rw [scanBlocks_done rules lines _ _ done, extents, List.map_nil]
  | leaf found flat behind restHypothesis =>
    rw [scanBlocks_next rules lines _ _ _ inside found, extents, List.map_cons, restHypothesis inside]
  | branch found folds within behind insideHypothesis restHypothesis =>
    rw [scanBlocks_next rules lines _ _ _ inside found, extents, List.map_cons, restHypothesis inside]

/-- A node of a forest is that of the first block in some range. It does not fold, or the forest inside it has grown
from its inner lines. -/
theorem Grown.found (grown : Grown rules lines start stop forest) (inside : stop ≤ lines.length)
    {nodes : Array Node} {parent : Option Nat} {number : Nat}
    (stands : Stands nodes parent number forest) (id : Nat) (lower : number ≤ id)
    (upper : id < number + forest.size) : ∃ outer extent first last,
      start ≤ first ∧ last ≤ stop ∧ scanRange? rules lines first last = some extent ∧
        ((foldingTag? rules (window lines extent.first extent.stop) = none ∧
            nodes[id]? = some (nodeOf outer extent none 0)) ∨
          ∃ tag enclosed, foldingTag? rules (window lines extent.first extent.stop) = some tag ∧
            nodes[id]? = some (nodeOf outer extent (some tag) enclosed.size) ∧
              Grown rules lines (extent.first + 1) (extent.stop - 1) enclosed ∧
                Stands nodes (some id) (id + 1) enclosed) := by
  induction grown generalizing parent number with
  | nil done =>
    rw [size] at upper
    omega
  | @leaf start stop extent rest found flat behind restHypothesis =>
    have bounds := scanRange?_bounds rules lines _ _ _ inside found
    rw [size] at upper
    by_cases here : id = number
    · subst here
      exact ⟨parent, extent, start, stop, Nat.le_refl _, Nat.le_refl _, found, .inl ⟨flat, stands.1⟩⟩
    · obtain ⟨outer, other, first, last, later, facts⟩ := restHypothesis inside stands.2 (by omega) (by omega)
      exact ⟨outer, other, first, last, by omega, facts⟩
  | @branch start stop extent tag enclosed rest found folds within behind insideHypothesis restHypothesis =>
    have bounds := scanRange?_bounds rules lines _ _ _ inside found
    rw [size] at upper
    by_cases here : id = number
    · subst here
      exact ⟨parent, extent, start, stop, Nat.le_refl _, Nat.le_refl _, found,
        .inr ⟨tag, enclosed, folds, stands.1, within, stands.2.1⟩⟩
    · by_cases inner : id < number + 1 + enclosed.size
      · obtain ⟨outer, other, first, last, later, ends, facts⟩ :=
          insideHypothesis (by omega) stands.2.1 (by omega) inner
        exact ⟨outer, other, first, last, by omega, by omega, facts⟩
      · obtain ⟨outer, other, first, last, later, facts⟩ := restHypothesis inside stands.2.2 (by omega) (by omega)
        exact ⟨outer, other, first, last, by omega, facts⟩

end Forest

def Skeleton.blocksAt (skeleton : Skeleton) (ids : List Nat) : List (Option Block) :=
  ids.map fun id => skeleton.nodes[id]?.map skeleton.block

theorem block_nodeOf (rules : Line.Rules) (text : Text) (parent : Option Nat) (extent : Extent)
    (tag : Option Line.Opener) (descendants : Nat) :
    (Skeleton.ofSource (.ofText rules text)).block (nodeOf parent extent tag descendants) =
      blockAt (Text.lines text) extent := by
  rw [Skeleton.block, Skeleton.linesOf, Skeleton.range, extract_toList]
  rfl

theorem blocksAt_tops (rules : Line.Rules) (text : Text) (parent : Option Nat) (start : Nat)
    (forest : Forest)
    (stands : Stands (Skeleton.ofSource (.ofText rules text)).nodes parent start forest) :
    (Skeleton.ofSource (.ofText rules text)).blocksAt (forest.tops start) =
      (forest.extents.map (blockAt (Text.lines text))).map some := by
  induction forest generalizing parent start with
  | nil => rfl
  | leaf extent rest restHypothesis =>
    have behind := restHypothesis parent (start + 1) stands.2
    rw [Skeleton.blocksAt] at behind
    rw [Skeleton.blocksAt, Forest.tops, List.map_cons, behind, stands.1, Option.map_some, block_nodeOf]
    rfl
  | branch extent tag inside rest insideHypothesis restHypothesis =>
    have behind := restHypothesis parent (start + 1 + inside.size) stands.2.2
    rw [Skeleton.blocksAt] at behind
    rw [Skeleton.blocksAt, Forest.tops, List.map_cons, behind, stands.1, Option.map_some, block_nodeOf]
    rfl

theorem foldingTag?_isSome_iff (rules : Line.Rules) (block : Block) :
    (foldingTag? rules block.lines).isSome ↔
      1 < block.lineCount ∧ (foldingOpener? rules block.firstLine block.lastLine).isSome := by
  rw [foldingTag?, ← firstLine_eq, ← lastLine_eq, ← lineCount]
  by_cases long : 1 < block.lineCount
  · simp [long]
  · simp [long]

private theorem foldingTag?_angle (block : Block) :
    (foldingTag? Line.Angle.rules block.lines).isSome = block.folds := by
  apply Bool.eq_iff_iff.mpr
  rw [foldingTag?_isSome_iff, folds, Bool.and_eq_true, spansLines_iff]

theorem node_grown (rules : Line.Rules) (text : Text) (id : Nat) (node : Node)
    (found : (Skeleton.ofSource (.ofText rules text)).nodes[id]? = some node) : ∃ outer extent,
      extent.first < extent.stop ∧ extent.stop ≤ (Text.lines text).length ∧
        ((foldingTag? rules (window (Text.lines text) extent.first extent.stop) = none ∧
            node = nodeOf outer extent none 0) ∨
          ∃ tag enclosed, foldingTag? rules (window (Text.lines text) extent.first extent.stop) = some tag ∧
            node = nodeOf outer extent (some tag) enclosed.size ∧
              Forest.Grown rules (Text.lines text) (extent.first + 1) (extent.stop - 1) enclosed ∧
                Stands (Skeleton.ofSource (.ofText rules text)).nodes (some id) (id + 1) enclosed) := by
  have upper := (Array.getElem?_eq_some_iff.mp found).1
  rw [ofSource_nodes, List.size_toArray, Forest.length_nodes] at upper
  obtain ⟨outer, extent, first, last, _, ends, scanned, facts⟩ :=
    (Forest.grown_whole rules (Text.lines text)).found (Nat.le_refl _) (stands_ofSource rules text) id
      (Nat.zero_le id) (by omega)
  have bounds := scanRange?_bounds rules _ first last extent ends scanned
  refine ⟨outer, extent, bounds.2.1, Nat.le_trans bounds.2.2 ends, ?_⟩
  rcases facts with ⟨flat, same⟩ | ⟨tag, enclosed, folds, same, within, standing⟩
  · exact .inl ⟨flat, Option.some.inj (found.symm.trans same)⟩
  · exact .inr ⟨tag, enclosed, folds, Option.some.inj (found.symm.trans same), within, standing⟩

private theorem blocksAt_roots (rules : Line.Rules) (text : Text) :
    (Skeleton.ofSource (.ofText rules text)).blocksAt (Skeleton.ofSource (.ofText rules text)).roots =
      (Block.split rules text).map some := by
  have stands := stands_ofSource rules text
  have roots := siblings_eq_tops _ none 0 _ stands
  have count : (Skeleton.ofSource (.ofText rules text)).nodes.size =
      (Forest.ofLines rules 0 (Text.lines text)).size := by
    rw [ofSource_nodes, List.size_toArray, Forest.length_nodes]
  rw [Nat.zero_add] at roots
  rw [Skeleton.roots, count, roots, blocksAt_tops rules text none 0 _ stands,
    (Forest.grown_whole rules (Text.lines text)).blocks (Nat.le_refl _), window_all, split_eq]

theorem nameBytes_isSome (rules : Line.Rules) (text : Text) (id : Nat) (node : Node)
    (found : (Skeleton.ofSource (.ofText rules text)).nodes[id]? = some node) :
    node.nameBytes.isSome =
      (foldingTag? rules ((Skeleton.ofSource (.ofText rules text)).block node).lines).isSome := by
  obtain ⟨outer, extent, nonempty, inside, facts⟩ := node_grown rules text id node found
  have lines := lines_blockAt text extent nonempty inside
  rcases facts with ⟨flat, rfl⟩ | ⟨tag, enclosed, folds, rfl, _, _⟩
  · rw [block_nodeOf, lines, flat]
    rfl
  · rw [block_nodeOf, lines, folds]
    rfl

private theorem interior_nodeOf (rules : Line.Rules) (text : Text) (parent : Option Nat) (extent : Extent)
    (tag : Option Line.Opener) (descendants : Nat) :
    (Skeleton.ofSource (.ofText rules text)).interior (nodeOf parent extent tag descendants) =
      unlines (window (Text.lines text) (extent.first + 1) (extent.stop - 1)) := by
  rw [Skeleton.interior, Skeleton.range, extract_toList]
  rfl

/-- The children of a node that folds are the blocks of its inner text. -/
theorem blocksAt_children (rules : Line.Rules) (text : Text) (id : Nat) (node : Node)
    (found : (Skeleton.ofSource (.ofText rules text)).nodes[id]? = some node)
    (folding : node.nameBytes.isSome = true) :
    (Skeleton.ofSource (.ofText rules text)).blocksAt ((Outline.ofText rules text).children id) =
      (Block.split rules ((Skeleton.ofSource (.ofText rules text)).interior node)).map some := by
  have expanded : (Outline.ofText rules text).folding id = .expanded := by
    rw [folding_ofText rules text id node found, if_pos folding]
  obtain ⟨outer, extent, nonempty, inside, facts⟩ := node_grown rules text id node found
  rcases facts with ⟨flat, rfl⟩ | ⟨tag, enclosed, folds, rfl, within, standing⟩
  · cases folding
  · have after : (Outline.ofText rules text).skeleton.after id = id + 1 + enclosed.size :=
      after_branch _ id outer extent tag enclosed.size found
    have children : (Outline.ofText rules text).skeleton.siblings (id + 1) (id + 1 + enclosed.size) =
        enclosed.tops (id + 1) := siblings_eq_tops _ (some id) (id + 1) enclosed standing
    have unbroken : ∀ row ∈ window (Text.lines text) (extent.first + 1) (extent.stop - 1), '\n' ∉ row := by
      intro row membership
      exact unbroken_of_mem_lines text row (mem_of_mem_window _ _ _ row membership)
    rw [Outline.children, if_pos expanded, Skeleton.childrenOf, after, children,
      blocksAt_tops rules text (some id) (id + 1) enclosed standing, within.blocks (by omega), interior_nodeOf,
      split_unlines rules _ unbroken]

/-- The outline of a text is the recursive one. -/
theorem ofText_recursive (rules : Line.Rules) (text : Text) :
    let outline := Outline.ofText rules text
    outline.skeleton.nodes.toList = (Forest.ofLines rules 0 (Text.lines text)).nodes none 0 ∧
      outline.skeleton.blocksAt outline.skeleton.roots = (Block.split rules text).map some ∧
        ∀ id node, outline.skeleton.nodes[id]? = some node →
          (node.nameBytes.isSome ↔
            1 < (outline.skeleton.block node).lineCount ∧
              (foldingOpener? rules (outline.skeleton.block node).firstLine
                (outline.skeleton.block node).lastLine).isSome) ∧
          (rules = Line.Angle.rules → node.nameBytes.isSome = (outline.skeleton.block node).folds) ∧
          (node.nameBytes.isSome →
            outline.skeleton.blocksAt (outline.children id) =
              (Block.split rules (outline.skeleton.interior node)).map some) := by
  intro outline
  have skeleton : outline.skeleton = Skeleton.ofSource (.ofText rules text) := rfl
  refine ⟨?_, blocksAt_roots rules text, ?_⟩
  · rw [skeleton, ofSource_nodes]
  · intro id node found
    have folds := nameBytes_isSome rules text id node found
    refine ⟨?_, ?_, blocksAt_children rules text id node found⟩
    · rw [folds]
      exact foldingTag?_isSome_iff rules _
    · intro angle
      subst angle
      rw [folds]
      exact foldingTag?_angle _

/-- An element inside another one of the same name: its only child is found in its inner line alone. -/
theorem ofText_recursive_nested :
    let outline := Outline.ofText Line.Angle.rules "<a>\n  <a>\n    <b>1</b>\n  </a>\n</a>\n<a>".toList
    let node : Node := ⟨1, 4, 1, some 1, some 0, 1⟩
    outline.skeleton.nodes[1]? = some node ∧
      (outline.skeleton.block node).folds = true ∧
      outline.skeleton.blocksAt (outline.children 1) =
        (Block.split Line.Angle.rules (outline.skeleton.interior node)).map some := by
  intro outline node
  have found : outline.skeleton.nodes[1]? = some node := by decide +kernel
  have facts := (ofText_recursive Line.Angle.rules _).2.2 1 node found
  exact ⟨found, (facts.2.1 rfl).symm, facts.2.2 rfl⟩

end MarkupOutline.Outline
