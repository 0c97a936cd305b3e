import MarkupOutline.Proofs.Block.Concatenation
import MarkupOutline.Proofs.Outline.Flattened
import MarkupOutline.Proofs.Outline.Relocated

/-! What is cut out of a text is cut again in the same way. A block alone is one block, and the outline of a node's
block is the subtree of the node, with its nodes and lines counted from its own. -/
namespace MarkupOutline

open Text

namespace Block

variable {rules : Line.Rules} {lines : List Text} {start stop : Nat} {extent : Extent}

private theorem followers_take (rules : Line.Rules) (line : Text) (rest : List Text) :
    followers rules line (rest.take (followers rules line rest)) = followers rules line rest := by
  cases opens : openName? rules line with
  | none => simp only [followers, opens, Option.bind_none]
  | some name =>
    cases scanned : scanClosing? rules name 1 rest with
    | none =>
      have alone : followers rules line rest = 0 := by rw [followers, opens, Option.bind_some, scanned]; rfl
      rw [alone, List.take_zero, followers, opens]
      rfl
    | some distance =>
      have several : followers rules line rest = distance + 1 := by
        rw [followers, opens, Option.bind_some, scanned]
        rfl
      rw [several, followers, opens, Option.bind_some, scanClosing?_take, scanned,
        Option.filter_some_pos (by simp), Option.map_some, Option.getD_some]

theorem scanBlock?_alone (inside : stop ≤ lines.length) (found : scanRange? rules lines start stop = some extent) :
    scanBlock? rules (window lines extent.first extent.stop) = some ⟨0, extent.stop - extent.first, extent.depth⟩ := by
  obtain ⟨line, here, _, reached, _, starts, stops, depth⟩ := (scanRange?_eq_some_iff extent inside).mp found
  obtain ⟨_, same⟩ := List.getElem?_eq_some_iff.mp here
  have size : extent.stop - (extent.first + 1) = followers rules line (window lines (extent.first + 1) stop) := by omega
  have within := (scanRange?_bounds rules lines start stop extent inside found).2.2
  have behind : window lines (extent.first + 1) extent.stop =
      (window lines (extent.first + 1) stop).take (followers rules line (window lines (extent.first + 1) stop)) := by
    rw [← size, take_window lines _ _ _ within]
  rw [window_cons lines extent.first extent.stop (by omega) (by omega), same, behind, scanBlock?,
    if_neg (by simp [starts]),
    followers_take, ← depth]
  congr 2
  omega

/-- A block that is cut alone is itself. -/
theorem split_content (rules : Line.Rules) (text : Text) (block : Block) (found : block ∈ Block.split rules text) :
    Block.split rules block.content = [block] := by
  obtain ⟨extent, member, same⟩ := List.mem_map.mp found
  obtain ⟨start, scanned⟩ := Source.scanRange?_of_mem (Nat.le_refl _) member
  rw [block_ofText] at same
  have bounds := scanRange?_bounds rules (Text.lines text) start _ extent (Nat.le_refl _) scanned
  have size := length_window (Text.lines text) extent.first extent.stop bounds.2.2
  have lines : Text.lines block.content = window (Text.lines text) extent.first extent.stop := by
    rw [← same]
    exact lines_blockAt text extent bounds.2.1 bounds.2.2
  have whole := window_all (window (Text.lines text) extent.first extent.stop)
  rw [size] at whole
  rw [split_eq, lines, scanBlocks_some rules (scanBlock?_alone (Nat.le_refl _) scanned)]
  dsimp only
  rw [whole, List.drop_eq_nil_of_le (Nat.le_of_eq size), scanBlocks_none rules rfl, ← same]
  rfl

end Block

namespace Outline

open Block

namespace Forest

private theorem nil_of_tops (forest : Forest) (start : Nat) (none : forest.tops start = []) : forest = nil := by
  cases forest with
  | nil => rfl
  | leaf | branch => cases none

/-- A tree of nodes, relocated and put elsewhere, is the same but for where it stands. -/
theorem nodes_tree (forest : Forest) (single : forest.tops 0 = [0]) (outer : Option Nat) (move : Extent → Extent)
    (root id : Nat) (inside : id < forest.size) : ∃ inner parent, (forest.nodes none 0)[id]? = some inner ∧
      ((forest.relocated move).nodes outer root)[id]? = some { inner.relocated move root with parent } ∧
        (0 < id → parent = inner.parent.map (root + ·)) := by
  cases forest with
  | nil => cases single
  | leaf extent rest =>
    obtain rfl := rest.nil_of_tops 1 (List.tail_eq_of_cons_eq single)
    obtain rfl : id = 0 := by simpa only [size, Nat.add_zero, Nat.lt_one_iff] using inside
    exact ⟨_, outer, rfl, rfl, fun positive => absurd positive (Nat.lt_irrefl 0)⟩
  | branch extent tag enclosed rest =>
    obtain rfl := rest.nil_of_tops _ (List.tail_eq_of_cons_eq single)
    cases id with
    | zero =>
      refine ⟨_, outer, rfl, ?_, fun positive => absurd positive (Nat.lt_irrefl 0)⟩
      rw [relocated, nodes, size_relocated]
      rfl
    | succ id =>
      have moved := nodes_relocated enclosed move root (some 0) 1
      have size : id < (enclosed.nodes (some 0) 1).length := by
        rw [length_nodes]
        simp only [size] at inside
        omega
      refine ⟨(enclosed.nodes (some 0) 1)[id], _, ?_, ?_, fun _ => rfl⟩
      · rw [nodes, List.getElem?_cons_succ, nodes, List.append_nil, List.getElem?_eq_getElem size]
      · rw [relocated, nodes, List.getElem?_cons_succ, relocated, nodes, List.append_nil]
        rw [Option.map_some, Nat.add_zero] at moved
        rw [moved, List.getElem?_map, List.getElem?_eq_getElem size]
        rfl

variable {rules : Line.Rules} {lines : List Text} {start stop : Nat} {forest : Forest}

private theorem ofLines_alone {extent : Extent} (inside : stop ≤ lines.length)
    (found : scanRange? rules lines start stop = some extent) :
    ofLines rules 0 (window lines extent.first extent.stop) =
      match foldingTag? rules (window lines extent.first extent.stop) with
      | none => leaf ⟨0, extent.stop - extent.first, extent.depth⟩ nil
      | some tag => branch ⟨0, extent.stop - extent.first, extent.depth⟩ tag
          (ofLines rules 1 (window lines (extent.first + 1) (extent.stop - 1))) nil := by
  have bounds := scanRange?_bounds rules lines start stop extent inside found
  have size := length_window lines extent.first extent.stop (by omega)
  have whole := window_all (window lines extent.first extent.stop)
  have behind : ofLines rules (extent.stop - extent.first)
      ((window lines extent.first extent.stop).drop (extent.stop - extent.first)) = nil := by
    rw [List.drop_eq_nil_of_le (Nat.le_of_eq size), ofLines_none rules _ [] rfl]
  have within := window_window lines extent.first extent.stop 1 (extent.stop - extent.first - 1) (by omega)
  have last : extent.first + (extent.stop - extent.first - 1) = extent.stop - 1 := by omega
  rw [size] at whole
  rw [last] at within
  have unmoved : Extent.shift 0 ⟨0, extent.stop - extent.first, extent.depth⟩ =
      ⟨0, extent.stop - extent.first, extent.depth⟩ := by rw [Extent.shift, Nat.zero_add, Nat.zero_add]
  have cut := ofLines_some rules 0 _ _ (scanBlock?_alone inside found)
  dsimp only at cut
  rw [unmoved, whole, Nat.zero_add, behind, Nat.zero_add, Nat.zero_add, within] at cut
  refine cut.trans ?_
  cases foldingTag? rules (window lines extent.first extent.stop) with
  | none => rfl
  | some tag => rfl

private theorem shift_alone (extent : Extent) (nonempty : extent.first < extent.stop) :
    Extent.shift extent.first ⟨0, extent.stop - extent.first, extent.depth⟩ = extent := by
  rw [Extent.shift, Nat.add_zero, Nat.add_sub_of_le (Nat.le_of_lt nonempty)]

/-- The forest of the block of a node is one tree. It stands at the node, moved down to the lines of the block. -/
theorem Grown.stands_block (grown : Grown rules lines start stop forest) (inside : stop ≤ lines.length)
    {nodes : Array Node} {parent : Option Nat} {number : Nat} (stands : Stands nodes parent number forest) (id : Nat)
    (node : Node) (known : nodes[id]? = some node) (lower : number ≤ id) (upper : id < number + forest.size) :
    (ofLines rules 0 (window lines node.first node.stop)).tops 0 = [0] ∧
      Stands nodes node.parent id
        ((ofLines rules 0 (window lines node.first node.stop)).relocated (Extent.shift node.first)) := by
  obtain ⟨outer, extent, first, last, _, ends, found, facts⟩ := grown.found inside stands id lower upper
  have bounds := scanRange?_bounds rules lines first last extent (Nat.le_trans ends inside) found
  have alone := ofLines_alone (Nat.le_trans ends inside) found
  have placed := shift_alone extent bounds.2.1
  suffices (ofLines rules 0 (window lines extent.first extent.stop)).tops 0 = [0] ∧ Stands nodes outer id
      ((ofLines rules 0 (window lines extent.first extent.stop)).relocated (Extent.shift extent.first)) by
    rcases facts with ⟨_, here⟩ | ⟨_, _, _, here, _⟩
    · cases here.symm.trans known
      exact this
    · cases here.symm.trans known
      exact this
  rcases facts with ⟨flat, here⟩ | ⟨tag, enclosed, folds, here, within, standing⟩
  · rw [alone, flat, relocated, relocated, placed]
    exact ⟨rfl, here, trivial⟩
  · have inner : enclosed =
        (ofLines rules 1 (window lines (extent.first + 1) (extent.stop - 1))).relocated
          (Extent.shift extent.first) := by
      rw [← ofLines_add]
      exact within.unique (grown_ofLines rules lines _ _ (by omega))
    rw [alone, folds, relocated, relocated, placed, ← inner]
    exact ⟨rfl, here, standing, trivial⟩

end Forest

/-- One outline is the subtree of a node of another one, its nodes and lines counted from that node. -/
structure Reproduces (part whole : Outline) (root : Nat) : Prop where
  roots : part.skeleton.roots = [0]
  count : root + part.count = whole.skeleton.after root
  folding : ∀ id, id < part.count → part.folding id = whole.folding (root + id)
  block : ∀ id, id < part.count → part.skeleton.nodes[id]?.map part.skeleton.block =
    whole.skeleton.nodes[root + id]?.map whole.skeleton.block
  after : ∀ id, id < part.count → root + part.skeleton.after id = whole.skeleton.after (root + id)
  parent : ∀ id, 0 < id → id < part.count →
    whole.skeleton.parent? (root + id) = (part.skeleton.parent? id).map (root + ·)

def excerpt (rules : Line.Rules) (outline : Outline) (node : Node) : Outline :=
  ofText rules (outline.skeleton.block node).content

theorem over_excerpt (rules : Line.Rules) (outline : Outline) (node : Node) :
    Over rules (outline.skeleton.block node).content (outline.excerpt rules node) :=
  over_ofText rules (outline.skeleton.block node).content

section Block

variable {rules : Line.Rules} {text : Text} {outline : Outline} (based : Over rules text outline)

include based

private theorem Over.count_of_roots (single : outline.skeleton.roots = [0]) :
    0 < outline.count ∧ outline.skeleton.after 0 = outline.count := by
  rw [Skeleton.roots, Skeleton.siblings] at single
  split at single
  · next inside =>
    refine ⟨inside, Nat.le_antisymm (based.laid.ends 0 inside).2 (Nat.le_of_not_lt fun more => ?_)⟩
    have later := List.tail_eq_of_cons_eq single
    rw [Outline.count] at more
    rw [Skeleton.siblings, if_pos more] at later
    cases later
  · cases single

variable {root : Nat} {node : Node} (known : outline.skeleton.nodes[root]? = some node)

include known

theorem Over.stands_block :
    (Forest.ofLines rules 0 (Text.lines (outline.skeleton.block node).content)).tops 0 = [0] ∧
      Stands outline.skeleton.nodes node.parent root
        ((Forest.ofLines rules 0 (Text.lines (outline.skeleton.block node).content)).relocated
          (Extent.shift node.first)) := by
  have upper := lt_count known
  rw [based.count] at upper
  rw [based.lines_content known]
  exact (Forest.grown_whole rules (Text.lines text)).stands_block (Nat.le_refl _) based.stands root node known
    (Nat.zero_le root) (by omega)

theorem Over.node_excerpt (id : Nat) (inside : id < (outline.excerpt rules node).count) : ∃ inner parent,
      (outline.excerpt rules node).skeleton.nodes[id]? = some inner ∧
        outline.skeleton.nodes[root + id]? = some { inner.relocated (Extent.shift node.first) root with parent } ∧
          (0 < id → parent = inner.parent.map (root + ·)) := by
  obtain ⟨single, stands⟩ := based.stands_block known
  have part := outline.over_excerpt rules node
  have here := getElem?_of_stands part.stands id (part.count ▸ inside)
  have there := getElem?_of_stands stands id (by rw [Forest.size_relocated, ← part.count]; exact inside)
  rw [Nat.zero_add] at here
  rw [part.count] at inside
  rw [here, there]
  exact Forest.nodes_tree _ single node.parent (Extent.shift node.first) root id inside

theorem Over.after_excerpt (id : Nat) (inside : id < (outline.excerpt rules node).count) :
    outline.skeleton.after (root + id) = root + (outline.excerpt rules node).skeleton.after id := by
  obtain ⟨inner, parent, here, there, _⟩ := based.node_excerpt known id inside
  rw [Skeleton.after, Skeleton.after, here, there, Option.map_some, Option.map_some, Nat.add_assoc, Nat.add_assoc]
  simp only [Node.relocated, Nat.add_assoc]

theorem Over.block_excerpt (id : Nat) (inner : Node) (parent : Option Nat)
    (here : (outline.excerpt rules node).skeleton.nodes[id]? = some inner) :
    (outline.excerpt rules node).skeleton.block inner =
      outline.skeleton.block { inner.relocated (Extent.shift node.first) root with parent } := by
  have part := outline.over_excerpt rules node
  have bounds := based.block_bounds root node known
  have inside := (part.block_bounds id inner here).2
  rw [based.size_lines] at bounds
  rw [part.size_lines, based.lines_content known, length_window _ _ _ bounds.2] at inside
  have cut := window_window (Text.lines text) node.first node.stop inner.first inner.stop (by omega)
  rw [Skeleton.block, Skeleton.linesOf, part.range_eq, based.lines_content known, cut, Skeleton.block, Skeleton.linesOf,
    based.range_eq]
  rfl

theorem Over.roots_excerpt : (outline.excerpt rules node).skeleton.roots = [0] :=
  (outline.over_excerpt rules node).roots_eq.trans (based.stands_block known).1

/-- The outline of the block of a node is the subtree of the node. -/
theorem Over.reproduces : Reproduces (outline.excerpt rules node) (Outline.ofText rules text) root := by
  have fresh : (Outline.ofText rules text).skeleton = outline.skeleton := based.skeleton.symm
  have single := based.roots_excerpt known
  obtain ⟨inside, whole⟩ := (outline.over_excerpt rules node).count_of_roots single
  constructor
  · exact single
  · rw [fresh, ← whole]
    exact (based.after_excerpt known 0 inside).symm
  · intro id within
    obtain ⟨inner, parent, here, there, _⟩ := based.node_excerpt known id within
    rw [excerpt, folding_ofText rules _ id inner here, folding_ofText rules text (root + id) _ (fresh ▸ there)]
    rfl
  · intro id within
    obtain ⟨inner, parent, here, there, _⟩ := based.node_excerpt known id within
    rw [fresh, here, there, Option.map_some, Option.map_some, based.block_excerpt known id inner parent here]
  · intro id within
    rw [fresh]
    exact (based.after_excerpt known id within).symm
  · intro id positive within
    obtain ⟨inner, parent, here, there, same⟩ := based.node_excerpt known id within
    rw [fresh, Skeleton.parent?, Skeleton.parent?, here, there]
    exact same positive

end Block

/-- A block of a text that is cut alone is one block, and the outline of the block of any node, however the outline is
folded, is the subtree of the node in a new outline. -/
theorem ofText_excerpt (rules : Line.Rules) (text : Text) :
    (∀ block ∈ Block.split rules text, Block.split rules block.content = [block]) ∧
      ∀ (actions : List Action) (id : Nat) (node : Node),
        ((Outline.ofText rules text).run actions).2.skeleton.nodes[id]? = some node →
          Reproduces (((Outline.ofText rules text).run actions).2.excerpt rules node) (Outline.ofText rules text)
            id := by
  refine ⟨Block.split_content rules text, fun actions id node known => ?_⟩
  exact ((over_ofText rules text).run_eq actions).1.reproduces known

/-- An element with an opening line that only a line below the element would close, and an inner block. -/
theorem ofText_excerpt_unclosed :
    let fresh := Outline.ofText Line.Angle.rules "<a>\n  <b>\n  <b>\n    x\n  </b>\n</a>\n</b>".toList
    let outline := (fresh.run [.collapse [0, 1], .collapse [0]]).2
    let node : Node := ⟨0, 6, 0, some 1, none, 3⟩
    outline.skeleton.nodes[0]? = some node ∧ outline.skeleton.block node ∈ Block.split Line.Angle.rules outline.text ∧
      Reproduces (outline.excerpt Line.Angle.rules node) fresh 0 ∧
        Block.split Line.Angle.rules (outline.skeleton.block node).content = [outline.skeleton.block node] := by
  intro fresh outline node
  have ⟨single, subtree⟩ :=
    ofText_excerpt Line.Angle.rules "<a>\n  <b>\n  <b>\n    x\n  </b>\n</a>\n</b>".toList
  have known : outline.skeleton.nodes[0]? = some node := by decide +kernel
  have member : outline.skeleton.block node ∈ Block.split Line.Angle.rules outline.text := by decide +kernel
  have same : outline.text = "<a>\n  <b>\n  <b>\n    x\n  </b>\n</a>\n</b>".toList := by decide +kernel
  exact ⟨known, member, subtree _ 0 node known, single _ (same ▸ member)⟩

end Outline

end MarkupOutline
