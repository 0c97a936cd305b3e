import MarkupOutline.Proofs.Outline.Handles
import MarkupOutline.Proofs.Outline.Parts

/-! The rows of an outline by recursion: a node shows its own rows, and an expanded one those of its children in
between. The loop with a list of tasks that are put aside comes to the same rows and to its end. -/
namespace MarkupOutline.Outline

open Text Block

private theorem Skeleton.le_of_mem_siblings (skeleton : Skeleton) (start stop id : Nat)
    (member : id ∈ skeleton.siblings start stop) : start ≤ id := by
  fun_induction Skeleton.siblings skeleton start stop with
  | case1 start inside inductionHypothesis =>
    rcases List.mem_cons.mp member with rfl | later
    · exact Nat.le_refl id
    · exact Nat.le_of_lt (Nat.lt_of_lt_of_le (skeleton.lt_after start) (inductionHypothesis later))
  | case2 start beyond => cases member

private theorem parent_lt_of_mem_children (outline : Outline) (id child : Nat) (member : child ∈ outline.children id) :
    id < child := by
  rw [children] at member
  split at member
  · exact outline.skeleton.le_of_mem_siblings (id + 1) _ child member
  · cases member

/-- The rows of a node at a level, and of all that is seen inside it. Without a name that can be cut out, nothing stands
in its place. -/
def flatten (outline : Outline) (level id : Nat) : List Row :=
  match _known : outline.skeleton.nodes[id]? with
  | none => []
  | some node =>
    let block := outline.skeleton.block node
    match outline.folding id with
    | .leaf => block.lines.map fun text => ⟨id, level, none, text⟩
    | .collapsed =>
      let name := (outline.skeleton.name? node).getD []
      [⟨id, level, some .expand, ['<'] ++ name ++ ['>', '.', '.', '.', '<', '/'] ++ name ++ ['>']⟩]
    | .expanded =>
      ⟨id, level, some .collapse, block.firstLine⟩ ::
        (((outline.children id).attach.flatMap fun ⟨child, _member⟩ => outline.flatten (level + 1) child) ++
          [⟨id, level, none, block.lastLine⟩])
termination_by outline.count - id
decreasing_by
  have later := outline.parent_lt_of_mem_children id child _member
  have inside := lt_count _known
  omega

private theorem flatten_node (outline : Outline) (level id : Nat) (node : Node)
    (known : outline.skeleton.nodes[id]? = some node) : outline.flatten level id =
      match outline.folding id with
      | .leaf => (outline.skeleton.block node).lines.map fun text => ⟨id, level, none, text⟩
      | .collapsed => [⟨id, level, some .expand, collapsedText outline.skeleton node⟩]
      | .expanded =>
        ⟨id, level, some .collapse, (outline.skeleton.block node).firstLine⟩ ::
          ((outline.children id).flatMap (outline.flatten (level + 1)) ++
            [⟨id, level, none, (outline.skeleton.block node).lastLine⟩]) := by
  rw [flatten]
  split
  · next missing => cases missing.symm.trans known
  · next other same =>
    cases same.symm.trans known
    simp only [List.flatMap_subtype, List.unattach_attach]
    rfl

/-- What the loop holds: the rows so far, and the tasks that are left, the next one first. -/
structure Walk where
  rows : List Row
  tasks : List Task

namespace Walk

/-- Take the next task off the list. One node of it is shown, and what follows the node is put back first. There is
no turn when nothing is left, and none at a number without a node. -/
def turn? (outline : Outline) : Walk → Option Walk
  | ⟨_, []⟩ => none
  | ⟨rows, .closing row :: rest⟩ => some ⟨rows ++ [row], rest⟩
  | ⟨rows, .siblings start stop level :: rest⟩ =>
    if start < stop then
      match outline.skeleton.nodes[start]? with
      | none => none
      | some node =>
        let resumed := .siblings (outline.skeleton.after start) stop level :: rest
        match outline.folding start with
        | .leaf => some ⟨rows ++ (outline.skeleton.linesOf node).map fun text => ⟨start, level, none, text⟩, resumed⟩
        | .collapsed => some ⟨rows ++ [⟨start, level, some .expand, collapsedText outline.skeleton node⟩], resumed⟩
        | .expanded =>
          some ⟨rows ++ [⟨start, level, some .collapse, outline.skeleton.firstLine node⟩],
            .siblings (start + 1) (outline.skeleton.after start) (level + 1) ::
              .closing ⟨start, level, none, outline.skeleton.lastLine node⟩ :: resumed⟩
    else some ⟨rows, rest⟩

def after? (outline : Outline) : Nat → Walk → Option Walk
  | 0, walk => some walk
  | turns + 1, walk => (walk.turn? outline).bind (after? outline turns)

/-- A walk leads to another one within a number of turns. -/
def Leads (outline : Outline) (most : Nat) (walk later : Walk) : Prop :=
  ∃ turns ≤ most, walk.after? outline turns = some later

section Leads

variable {outline : Outline} {walk middle later : Walk} {first second : Nat}

theorem after?_append (turns : Nat) (front : walk.after? outline turns = some middle) (more : Nat) :
    walk.after? outline (turns + more) = middle.after? outline more := by
  induction turns generalizing walk with
  | zero =>
    cases front
    rw [Nat.zero_add]
  | succ turns inductionHypothesis =>
    obtain ⟨next, moved, onward⟩ := Option.bind_eq_some_iff.mp front
    rw [Nat.add_right_comm, after?, moved, Option.bind_some, inductionHypothesis onward]

theorem Leads.trans (front : Leads outline first walk middle) (back : Leads outline second middle later) :
    Leads outline (first + second) walk later := by
  obtain ⟨turns, few, reached⟩ := front
  obtain ⟨more, fewMore, onward⟩ := back
  exact ⟨turns + more, by omega, (after?_append turns reached more).trans onward⟩

theorem Leads.le (leads : Leads outline first walk later) (more : first ≤ second) :
    Leads outline second walk later := by
  obtain ⟨turns, few, reached⟩ := leads
  exact ⟨turns, Nat.le_trans few more, reached⟩

private theorem leads_turn (moved : walk.turn? outline = some later) : Leads outline 1 walk later :=
  ⟨1, Nat.le_refl 1, by rw [after?, moved]; rfl⟩

end Leads

section Turns

variable (outline : Outline) (rows : List Row) (rest : List Task)

theorem turn?_closing (row : Row) : turn? outline ⟨rows, .closing row :: rest⟩ = some ⟨rows ++ [row], rest⟩ := rfl

theorem turn?_done (start level : Nat) :
    turn? outline ⟨rows, .siblings start start level :: rest⟩ = some ⟨rows, rest⟩ :=
  if_neg (Nat.lt_irrefl start)

private theorem turn?_siblings (start stop level : Nat) (node : Node)
    (known : outline.skeleton.nodes[start]? = some node)
    (inside : outline.skeleton.after start ≤ stop) : turn? outline ⟨rows, .siblings start stop level :: rest⟩ =
      some ⟨rows ++ ((Task.siblings start stop level).perform outline).1,
        ((Task.siblings start stop level).perform outline).2 ++ rest⟩ := by
  have before : start < stop := Nat.lt_of_lt_of_le (outline.skeleton.lt_after start) inside
  rw [turn?, Task.perform, if_pos before, if_pos before, known, Nat.min_eq_left inside]
  cases outline.folding start <;> rfl

end Turns

end Walk

/-- Whatever is put aside below them, the nodes of a forest are shown and the loop goes on with the rest. -/
theorem leads_forest (outline : Outline) (parent : Option Nat) (start level : Nat) (forest : Forest)
    (stands : Stands outline.skeleton.nodes parent start forest) (rows : List Row) (rest : List Task) :
    Walk.Leads outline (3 * forest.size + 1) ⟨rows, .siblings start (start + forest.size) level :: rest⟩
      ⟨rows ++ (forest.view outline.isCollapsed start).rows outline.skeleton start level, rest⟩ := by
  induction forest generalizing parent start level rows rest with
  | nil =>
    rw [Forest.view, View.rows, List.append_nil]
    exact Walk.leads_turn (Walk.turn?_done outline rows rest start level)
  | leaf extent behind behindHypothesis =>
    have stop : start + (Forest.leaf extent behind).size = start + 1 + behind.size := by
      rw [Forest.size]
      omega
    have turn := Walk.turn?_siblings outline rows rest start (start + 1 + behind.size) level _ stands.1
      (by rw [after_leaf _ start parent extent stands.1]; omega)
    rw [Task.perform_leaf outline start _ level parent extent stands.1 (by omega)] at turn
    have onward := behindHypothesis parent (start + 1) level stands.2
      (rows ++ (outline.skeleton.range extent.first extent.stop).map fun text => ⟨start, level, none, text⟩) rest
    rw [stop, Forest.view, View.rows, ← List.append_assoc]
    exact ((Walk.leads_turn turn).trans onward).le (by rw [Forest.size]; omega)
  | branch extent tag inside behind insideHypothesis behindHypothesis =>
    obtain ⟨here, within, following⟩ := stands
    have stop : start + (Forest.branch extent tag inside behind).size = start + 1 + inside.size + behind.size := by
      rw [Forest.size]
      omega
    have turn := Walk.turn?_siblings outline rows rest start (start + 1 + inside.size + behind.size) level _ here
      (by rw [after_branch _ start parent extent tag _ here]; omega)
    rw [stop, Forest.view]
    split
    · next folded =>
      rw [Task.perform_collapsed outline start _ level parent extent tag _ here (by omega) folded] at turn
      have onward := behindHypothesis parent (start + 1 + inside.size) level following
        (rows ++ [⟨start, level, some .expand, collapsedText outline.skeleton (nodeOf none extent (some tag) 0)⟩]) rest
      rw [View.rows, List.append_cons]
      exact ((Walk.leads_turn turn).trans onward).le (by rw [Forest.size]; omega)
    · next unfolded =>
      rw [Task.perform_expanded outline start _ level parent extent tag _ here (by omega) unfolded] at turn
      -- The children come first; the closing line and the siblings are put aside below them.
      have inner := insideHypothesis (some start) (start + 1) (level + 1) within
        (rows ++ [⟨start, level, some .collapse, outline.skeleton.line extent.first⟩])
        (.closing ⟨start, level, none, outline.skeleton.line (extent.stop - 1)⟩ ::
          .siblings (start + 1 + inside.size) (start + 1 + inside.size + behind.size) level :: rest)
      have closed := inner.trans (Walk.leads_turn (Walk.turn?_closing outline _ _ _))
      have all := ((Walk.leads_turn turn).trans closed).trans
        (behindHypothesis parent (start + 1 + inside.size) level following _ rest)
      rw [View.rows, Forest.forest_view]
      simp only [List.append_assoc, List.cons_append, List.nil_append] at all
      exact all.le (by rw [Forest.size]; omega)

variable {rules : Line.Rules} {text : Text} {outline : Outline}

/-- The rows of the outermost nodes of a forest and of all inside them are those of its view. -/
theorem Over.flatMap_tops (based : Over rules text outline) (parent : Option Nat) (start level : Nat) (forest : Forest)
    (stands : Stands outline.skeleton.nodes parent start forest) :
    (forest.tops start).flatMap (outline.flatten level) =
      (forest.view outline.isCollapsed start).rows outline.skeleton start level := by
  induction forest generalizing parent start level with
  | nil => rfl
  | leaf extent rest restHypothesis =>
    rw [Forest.tops, List.flatMap_cons, restHypothesis parent (start + 1) level stands.2, Forest.view, View.rows,
      outline.flatten_node level start _ stands.1, outline.folding_leaf start parent extent stands.1]
    dsimp only
    rw [based.lines_block start _ stands.1]
    rfl
  | branch extent tag inside rest insideHypothesis restHypothesis =>
    obtain ⟨here, within, behind⟩ := stands
    have folding := outline.folding_branch start _ parent extent tag here
    have children := outline.children_branch start parent extent tag inside here within
    rw [Forest.tops, List.flatMap_cons, restHypothesis parent (start + 1 + inside.size) level behind, Forest.view]
    split
    · next folded =>
      rw [if_pos folded] at folding
      rw [outline.flatten_node level start _ here, folding, View.rows]
      rfl
    · next unfolded =>
      rw [if_neg unfolded] at folding children
      rw [outline.flatten_node level start _ here, folding, children]
      have parts := based.parts here
      dsimp only
      rw [insideHypothesis (some start) (start + 1) (level + 1) within, View.rows, Forest.forest_view,
        ← parts.firstLine, ← parts.lastLine]
      simp only [List.cons_append, List.append_assoc, List.nil_append]
      rfl

private theorem Over.name?_unbroken (based : Over rules text outline) (node : Node) :
    '\n' ∉ (outline.skeleton.name? node).getD [] := by
  cases found : outline.skeleton.name? node with
  | none => simp
  | some name =>
    obtain ⟨count, _, cut⟩ := Option.bind_eq_some_iff.mp found
    intro broken
    have piece := (isInfix_of_byteSlice? 1 count _ name cut).trans (List.dropWhile_suffix isWhite).isInfix
    exact based.line_unbroken node.first (piece.subset broken)

private theorem Over.ownRows_unbroken (based : Over rules text outline) (id level : Nat) (node : Node) (row : Row)
    (own : row ∈ outline.ownRows id level node) : '\n' ∉ row.text := by
  rw [ownRows] at own
  split at own
  · obtain ⟨line, found, rfl⟩ := List.mem_map.mp own
    exact based.linesOf_unbroken node line found
  · have name := based.name?_unbroken node
    cases List.mem_singleton.mp own
    simp [collapsedText, name]
  · simp only [List.mem_cons, List.not_mem_nil, or_false] at own
    rcases own with rfl | rfl
    · exact based.line_unbroken node.first
    · exact based.line_unbroken (node.stop - 1)

theorem Over.rows_unbroken (based : Over rules text outline) (row : Row) (member : row ∈ outline.rows) :
    '\n' ∉ row.text := by
  obtain ⟨node, own⟩ := based.mem_ownRows row member
  exact based.ownRows_unbroken _ _ node row own

theorem Row.display_eq (row : Row) : row.display =
    let marker := match row.handle with
      | some .expand => '▸'
      | some .collapse => '▾'
      | none => ' '
    List.replicate (2 * row.level) ' ' ++ marker :: ' ' :: row.text.dropWhile isWhite := by
  rw [display]
  rcases row.handle with - | - | - <;> rfl

private theorem Row.display_unbroken (row : Row) (unbroken : '\n' ∉ row.text) : '\n' ∉ row.display := by
  have trimmed : '\n' ∉ trimStart row.text := fun broken => unbroken ((List.dropWhile_sublist _).subset broken)
  have marker : '\n' ≠ (row.handle.map Handle.symbol).getD ' ' := by
    cases row.handle with
    | none => decide
    | some handle => cases handle <;> decide
  simp [display, trimmed, marker]

private theorem Over.rows_ne_nil (based : Over rules text outline) (filled : outline.isEmpty = false) :
    outline.rows ≠ [] := by
  have inside : 0 < outline.count := by
    rw [Outline.count, Nat.pos_iff_ne_zero]
    simpa [isEmpty] using filled
  have shown : (outline.node? 0).isSome = true := by
    rw [node?_isSome, based.isShown_iff]
    refine ⟨inside, fun outer around => ?_⟩
    exact absurd ((based.within_iff 0 outer inside).mp around).1 (Nat.not_lt_zero outer)
  obtain ⟨node, known, own⟩ := based.filter_rows 0 shown
  intro empty
  rw [empty] at own
  exact based.ownRows_ne_nil 0 _ node known own.symm

/-- A display has one line for each row. -/
theorem Over.lines_display (based : Over rules text outline) (filled : outline.isEmpty = false) :
    Text.lines outline.display = outline.rows.map Row.display := by
  apply Text.lines_unlines
  · intro line member
    obtain ⟨row, found, rfl⟩ := List.mem_map.mp member
    exact row.display_unbroken (based.rows_unbroken row found)
  · rw [Ne, List.map_eq_nil_iff]
    exact based.rows_ne_nil filled

/-- Whatever actions have been taken on the outline of a text, its rows are those of the outermost nodes by recursion,
the loop comes to them and to its end, no row goes over more than one line, and the display has one line for each
row: two spaces for each level, the marker or a space, a space, and the text without its indentation. -/
theorem run_flattens (rules : Line.Rules) (text : Text) (actions : List Action) :
    let outline := ((Outline.ofText rules text).run actions).2
    outline.rows = outline.skeleton.roots.flatMap (outline.flatten 0) ∧
      Walk.Leads outline (3 * outline.count + 1) ⟨[], [.siblings 0 outline.count 0]⟩ ⟨outline.rows, []⟩ ∧
      (∀ row ∈ outline.rows, '\n' ∉ row.text) ∧
      Text.lines outline.display =
        if outline.isEmpty then [[]]
        else outline.rows.map fun row =>
          let marker := match row.handle with
            | some .expand => '▸'
            | some .collapse => '▾'
            | none => ' '
          List.replicate (2 * row.level) ' ' ++ marker :: ' ' :: row.text.dropWhile isWhite := by
  intro outline
  have based : Over rules text outline := ((over_ofText rules text).run_eq actions).1
  refine ⟨?_, ?_, based.rows_unbroken, ?_⟩
  · rw [based.roots_eq, based.flatMap_tops none 0 0 _ based.stands]
    exact based.rows_eq
  · have leads := leads_forest outline none 0 0 _ based.stands [] []
    rw [Nat.zero_add, ← based.count] at leads
    exact based.rows_eq ▸ leads
  · split
    · next empty =>
      rw [display, outline.rows_of_isEmpty empty]
      rfl
    · next filled =>
      rw [based.lines_display (Bool.not_eq_true _ ▸ filled)]
      exact List.map_congr_left fun row _ => row.display_eq

end MarkupOutline.Outline
