import MarkupOutline.Proofs.Outline.Laid

/-! Rows as handles. The rows of a visible node and of what is seen inside it stand together, and toggling the
node replaces these rows and no others. -/
namespace MarkupOutline.Outline

open Text Block

/-- A node lies in the subtree of another one, or is its root. -/
def Skeleton.Inside (skeleton : Skeleton) (id outer : Nat) : Prop := id = outer ∨ skeleton.Within id outer

/-- The rows of a node and of what is seen inside it, between all other rows. -/
structure Frames (outline : Outline) (id : Nat) (front rows back : List Row) : Prop where
  all : outline.rows = front ++ rows ++ back
  filled : rows ≠ []
  inside : ∀ row ∈ rows, outline.skeleton.Inside row.node id
  outside : ∀ row ∈ front ++ back, ¬ outline.skeleton.Inside row.node id

/-- The rows of a node without those of the nodes inside it. -/
def ownRows (outline : Outline) (id level : Nat) (node : Node) : List Row :=
  match outline.folding id with
  | .leaf => (outline.skeleton.linesOf node).map fun text => ⟨id, level, none, text⟩
  | .collapsed => [⟨id, level, some .expand, collapsedText outline.skeleton node⟩]
  | .expanded =>
    [⟨id, level, some .collapse, outline.skeleton.firstLine node⟩,
      ⟨id, level, none, outline.skeleton.lastLine node⟩]

/-- The node with a number and what is inside it as a forest of its own, with its level. The first node of the
forest has the number `start`. -/
def Forest.tree? (id start level : Nat) : Forest → Option (Nat × Forest)
  | nil => none
  | leaf extent rest => if id = start then some (level, leaf extent nil) else rest.tree? id (start + 1) level
  | branch extent tag inside rest =>
    if id = start then some (level, branch extent tag inside nil)
    else if id < start + 1 + inside.size then inside.tree? id (start + 1) (level + 1)
    else rest.tree? id (start + 1 + inside.size) level

namespace View

theorem rows_bounds (view : View) (skeleton : Skeleton) (start level : Nat) (row : Row)
    (member : row ∈ view.rows skeleton start level) : start ≤ row.node ∧ row.node < start + view.forest.size := by
  induction view generalizing start level with
  | nil => cases member
  | leaf extent rest restHypothesis =>
    rw [rows, List.mem_append, List.mem_map] at member
    rw [forest, Forest.size]
    rcases member with ⟨text, _, rfl⟩ | later
    · exact ⟨Nat.le_refl start, by dsimp only; omega⟩
    · have bounds := restHypothesis (start + 1) level later
      omega
  | collapsed extent tag inside rest restHypothesis =>
    rw [rows, List.mem_cons] at member
    rw [forest, Forest.size]
    rcases member with rfl | later
    · exact ⟨Nat.le_refl start, by dsimp only; omega⟩
    · have bounds := restHypothesis (start + 1 + inside.size) level later
      omega
  | expanded extent tag inside rest insideHypothesis restHypothesis =>
    rw [rows, List.mem_cons, List.mem_append, List.mem_cons] at member
    rw [forest, Forest.size]
    rcases member with rfl | within | rfl | later
    · exact ⟨Nat.le_refl start, by dsimp only; omega⟩
    · have bounds := insideHypothesis (start + 1) (level + 1) within
      omega
    · exact ⟨Nat.le_refl start, by dsimp only; omega⟩
    · have bounds := restHypothesis (start + 1 + inside.forest.size) level later
      omega

private theorem find?_of_row (view : View) (skeleton : Skeleton) (parent : Option Nat) (above : List Nat)
    (index start level : Nat) (row : Row) (member : row ∈ view.rows skeleton start level) :
    ∃ sight, view.find? parent above index start row.node = some sight := by
  induction view generalizing parent above index start level with
  | nil => cases member
  | leaf extent rest restHypothesis =>
    rw [rows, List.mem_append, List.mem_map] at member
    rcases member with ⟨text, _, rfl⟩ | later
    · exact ⟨_, if_pos rfl⟩
    · have bounds := rest.rows_bounds skeleton _ _ row later
      rw [find?, if_neg (Nat.ne_of_gt bounds.1)]
      exact restHypothesis parent above (index + 1) (start + 1) level later
  | collapsed extent tag inside rest restHypothesis =>
    rw [rows, List.mem_cons] at member
    rcases member with rfl | later
    · exact ⟨_, if_pos rfl⟩
    · have bounds := rest.rows_bounds skeleton _ _ row later
      rw [find?, if_neg (by omega)]
      exact restHypothesis parent above (index + 1) (start + 1 + inside.size) level later
  | expanded extent tag inside rest insideHypothesis restHypothesis =>
    rw [rows, List.mem_cons, List.mem_append, List.mem_cons] at member
    rcases member with rfl | within | rfl | later
    · exact ⟨_, if_pos rfl⟩
    · have bounds := inside.rows_bounds skeleton _ _ row within
      rw [find?, if_neg (Nat.ne_of_gt bounds.1), if_pos bounds.2]
      exact insideHypothesis (some start) (above ++ [index]) 0 (start + 1) (level + 1) within
    · exact ⟨_, if_pos rfl⟩
    · have bounds := rest.rows_bounds skeleton _ _ row later
      rw [find?, if_neg (by omega), if_neg (Nat.not_lt.mpr bounds.1)]
      exact restHypothesis parent above (index + 1) (start + 1 + inside.forest.size) level later

private theorem handle_fresh (forest : Forest) (skeleton : Skeleton) (start level : Nat) (row : Row)
    (member : row ∈ (fresh forest).rows skeleton start level) : row.handle ≠ some .expand := by
  induction forest generalizing start level with
  | nil => cases member
  | leaf extent rest restHypothesis =>
    rw [fresh, rows, List.mem_append, List.mem_map] at member
    rcases member with ⟨text, _, rfl⟩ | later
    · simp
    · exact restHypothesis _ _ later
  | branch extent tag inside rest insideHypothesis restHypothesis =>
    rw [fresh, rows, List.mem_cons, List.mem_append, List.mem_cons] at member
    rcases member with rfl | within | rfl | later
    · simp
    · exact insideHypothesis _ _ within
    · simp
    · exact restHypothesis _ _ later

end View

namespace Forest

theorem tree?_bounds (forest : Forest) (id start level height : Nat) (tree : Forest)
    (found : forest.tree? id start level = some (height, tree)) :
    start ≤ id ∧ 0 < tree.size ∧ id + tree.size ≤ start + forest.size := by
  induction forest generalizing start level with
  | nil => cases found
  | leaf extent rest restHypothesis =>
    rw [tree?] at found
    rw [size]
    split at found
    · next here =>
      cases found
      simp only [size]
      omega
    · have bounds := restHypothesis (start + 1) level found
      omega
  | branch extent tag inside rest insideHypothesis restHypothesis =>
    rw [tree?] at found
    rw [size]
    split at found
    · next here =>
      cases found
      simp only [size]
      omega
    · split at found
      · have bounds := insideHypothesis (start + 1) (level + 1) found
        omega
      · have bounds := restHypothesis (start + 1 + inside.size) level found
        omega

private theorem exists_tree? (forest : Forest) (id start level : Nat) (lower : start ≤ id)
    (upper : id < start + forest.size) : ∃ height tree, forest.tree? id start level = some (height, tree) := by
  induction forest generalizing start level with
  | nil => exact absurd upper (Nat.not_lt.mpr lower)
  | leaf extent rest restHypothesis =>
    rw [size] at upper
    rw [tree?]
    split
    · exact ⟨_, _, rfl⟩
    · exact restHypothesis (start + 1) level (by omega) (by omega)
  | branch extent tag inside rest insideHypothesis restHypothesis =>
    rw [size] at upper
    rw [tree?]
    split
    · exact ⟨_, _, rfl⟩
    · split
      · next within => exact insideHypothesis (start + 1) (level + 1) (by omega) within
      · exact restHypothesis (start + 1 + inside.size) level (by omega) (by omega)

/-- The tree of a node stands where the node does, as deep as there are nodes around it. -/
theorem tree?_stands (forest : Forest) (skeleton : Skeleton) (parent : Option Nat) (id start level height : Nat)
    (tree : Forest) (stands : Stands skeleton.nodes parent start forest) (around : ∀ outer ∈ parent, outer < start)
    (found : forest.tree? id start level = some (height, tree)) :
    (skeleton.ancestors id).length + level = (skeleton.chain parent).length + height ∧
      ∃ outer, Stands skeleton.nodes outer id tree := by
  induction forest generalizing parent start level with
  | nil => cases found
  | leaf extent rest restHypothesis =>
    obtain ⟨here, behind⟩ := stands
    rw [tree?] at found
    split at found
    · next same =>
      subst same
      cases found
      exact ⟨by rw [skeleton.ancestors_eq id _ here around]; rfl, parent, here, trivial⟩
    · exact restHypothesis parent (start + 1) level behind
        (fun outer member => Nat.lt_succ_of_lt (around outer member)) found
  | branch extent tag inside rest insideHypothesis restHypothesis =>
    obtain ⟨here, within, behind⟩ := stands
    rw [tree?] at found
    split at found
    · next same =>
      subst same
      cases found
      exact ⟨by rw [skeleton.ancestors_eq id _ here around]; rfl, parent, here, within, trivial⟩
    · split at found
      · have deeper := insideHypothesis (some start) (start + 1) (level + 1) within
          (by rintro outer ⟨⟩; exact Nat.lt_succ_self start) found
        have chain : skeleton.chain (some start) = start :: skeleton.chain parent :=
          skeleton.chain_some start _ here around
        rw [chain, List.length_cons] at deeper
        exact ⟨by omega, deeper.2⟩
      · exact restHypothesis parent (start + 1 + inside.size) level behind
          (fun outer member => by have earlier := around outer member; omega) found

private theorem rows_branch (extent : Extent) (tag : Line.Opener) (inside rest : Forest) (flags : Nat → Bool)
    (skeleton : Skeleton) (start level : Nat) :
    ((branch extent tag inside rest).view flags start).rows skeleton start level =
      ((branch extent tag inside nil).view flags start).rows skeleton start level ++
        (rest.view flags (start + 1 + inside.size)).rows skeleton (start + 1 + inside.size) level := by
  rw [view, view]
  split
  · rfl
  · simp only [View.rows, forest_view, view, List.cons_append, List.append_assoc, List.nil_append]

private theorem rows_leaf (extent : Extent) (rest : Forest) (flags : Nat → Bool) (skeleton : Skeleton)
    (start level : Nat) : ((leaf extent rest).view flags start).rows skeleton start level =
      ((leaf extent nil).view flags start).rows skeleton start level ++
        (rest.view flags (start + 1)).rows skeleton (start + 1) level := by
  simp only [view, View.rows, List.append_nil]

section Embedding

variable (skeleton : Skeleton) (flags : Nat → Bool) (id height : Nat) (tree : Forest)

def AgreeOutside (other : Nat → Bool) : Prop :=
  ∀ number, number < id ∨ id + tree.size ≤ number → other number = flags number

/-- The rows of a tree stand together among other rows, which do not depend on the flags in the tree. -/
def Embeds (rows : (Nat → Bool) → List Row) : Prop :=
  ∃ front back : List Row, (∀ row ∈ front ++ back, row.node < id ∨ id + tree.size ≤ row.node) ∧
    ∀ other, AgreeOutside flags id tree other →
      rows other = front ++ (tree.view other id).rows skeleton id height ++ back

variable {skeleton flags id height tree}

theorem Embeds.wrap {rows whole : (Nat → Bool) → List Row} (embeds : Embeds skeleton flags id height tree rows)
    (front back : List Row) (outside : ∀ row ∈ front ++ back, row.node < id ∨ id + tree.size ≤ row.node)
    (same : ∀ other, AgreeOutside flags id tree other → whole other = front ++ rows other ++ back) :
    Embeds skeleton flags id height tree whole := by
  obtain ⟨before, behind, apart, split⟩ := embeds
  refine ⟨front ++ before, behind ++ back, ?_, ?_⟩
  · intro row member
    simp only [List.mem_append] at member apart outside
    rcases member with (first | second) | third | fourth
    · exact outside row (.inl first)
    · exact apart row (.inl second)
    · exact apart row (.inr third)
    · exact outside row (.inr fourth)
  · intro other agree
    rw [same other agree, split other agree]
    simp only [List.append_assoc]

private theorem embeds_first (rest : Forest) (rows : (Nat → Bool) → List Row)
    (whole : ∀ other, rows other = (tree.view other id).rows skeleton id height ++
      (rest.view other (id + tree.size)).rows skeleton (id + tree.size) height) :
    Embeds skeleton flags id height tree rows := by
  refine ⟨[], (rest.view flags (id + tree.size)).rows skeleton (id + tree.size) height, ?_, ?_⟩
  · intro row member
    exact .inr (View.rows_bounds _ skeleton _ _ row member).1
  · intro other agree
    rw [whole, rest.view_congr other flags _ fun number lower _ => agree number (.inr lower)]
    rfl

private theorem Embeds.behind (own : Forest) (start level : Nat) {rows whole : (Nat → Bool) → List Row}
    (embeds : Embeds skeleton flags id height tree rows) (before : start + own.size ≤ id)
    (same : ∀ other, whole other = (own.view other start).rows skeleton start level ++ rows other) :
    Embeds skeleton flags id height tree whole := by
  refine embeds.wrap ((own.view flags start).rows skeleton start level) [] ?_ ?_
  · intro row member
    rw [List.append_nil] at member
    have bounds := View.rows_bounds _ skeleton _ _ row member
    rw [forest_view] at bounds
    exact .inl (Nat.lt_of_lt_of_le bounds.2 before)
  · intro other agree
    have kept := own.view_congr other flags start fun number _ upper =>
      agree number (.inl (Nat.lt_of_lt_of_le upper before))
    rw [same, kept, List.append_nil]

end Embedding

/-- Among the rows of a forest, those of a tree that is seen stand together. -/
theorem embeds_of_seen (forest : Forest) (skeleton : Skeleton) (flags : Nat → Bool) (parent : Option Nat)
    (above : List Nat) (index id start level height : Nat) (tree : Forest) (sight : Sight)
    (found : forest.tree? id start level = some (height, tree))
    (seen : (forest.view flags start).find? parent above index start id = some sight) :
    Embeds skeleton flags id height tree fun other => (forest.view other start).rows skeleton start level := by
  induction forest generalizing parent above index start level with
  | nil => cases found
  | leaf extent rest restHypothesis =>
    rw [tree?] at found
    rw [view, View.find?] at seen
    split at found
    · next same =>
      subst same
      cases found
      exact embeds_first rest _ fun other => rows_leaf extent rest other skeleton id height
    · next apart =>
      rw [if_neg apart] at seen
      exact (restHypothesis parent above (index + 1) (start + 1) level found seen).behind (leaf extent nil) start level
        (tree?_bounds rest id _ _ _ tree found).1 fun other => rows_leaf extent rest other skeleton start level
  | branch extent tag inside rest insideHypothesis restHypothesis =>
    rw [tree?] at found
    split at found
    · next same =>
      subst same
      cases found
      have size : id + (branch extent tag inside nil).size = id + 1 + inside.size := by
        simp only [Forest.size, Nat.add_zero, Nat.add_assoc]
      refine embeds_first rest _ fun other => ?_
      rw [size]
      exact rows_branch extent tag inside rest other skeleton id height
    · next apart =>
      split at found
      · next within =>
        have bounds := tree?_bounds inside id _ _ _ tree found
        have before : start < id := Nat.lt_of_succ_le bounds.1
        have unfolded : flags start = false := by
          by_contra folded
          rw [Bool.not_eq_false] at folded
          rw [view, if_pos folded, View.find?, if_neg apart, View.find?_of_lt _ _ _ _ _ _ within] at seen
          cases seen
        rw [view, unfolded, if_neg Bool.false_ne_true, View.find?, if_neg apart, forest_view, if_pos within] at seen
        have embeds := insideHypothesis (some start) (above ++ [index]) 0 (start + 1) (level + 1) found seen
        refine embeds.wrap [⟨start, level, some .collapse, skeleton.line extent.first⟩]
          (⟨start, level, none, skeleton.line (extent.stop - 1)⟩ ::
            (rest.view flags (start + 1 + inside.size)).rows skeleton (start + 1 + inside.size) level) ?_ ?_
        · intro row member
          simp only [List.cons_append, List.nil_append, List.mem_cons] at member
          rcases member with rfl | rfl | later
          · exact .inl before
          · exact .inl before
          · have beyond := View.rows_bounds _ skeleton _ _ row later
            exact .inr (Nat.le_trans bounds.2.2 beyond.1)
        · intro other agree
          have same : other start = false := (agree start (.inl before)).trans unfolded
          have behind := rest.view_congr other flags (start + 1 + inside.size) fun number lower _ =>
            agree number (.inr (Nat.le_trans bounds.2.2 lower))
          rw [view, same, if_neg Bool.false_ne_true, View.rows, forest_view, behind]
          simp only [List.cons_append, List.nil_append]
      · next beyond =>
        have bounds := tree?_bounds rest id _ _ _ tree found
        have size : start + (branch extent tag inside nil).size = start + 1 + inside.size := by
          simp only [Forest.size, Nat.add_zero, Nat.add_assoc]
        have later : (rest.view flags (start + 1 + inside.size)).find? parent above (index + 1)
            (start + 1 + inside.size) id = some sight := by
          rw [view] at seen
          split at seen
          · rwa [View.find?, if_neg apart] at seen
          · rwa [View.find?, if_neg apart, forest_view, if_neg beyond] at seen
        exact (restHypothesis parent above (index + 1) _ level found later).behind (branch extent tag inside nil) start
          level (size ▸ bounds.1) fun other => rows_branch extent tag inside rest other skeleton start level

theorem tree?_cases (forest : Forest) (id start level height : Nat) (tree : Forest)
    (found : forest.tree? id start level = some (height, tree)) :
    (∃ extent, tree = leaf extent nil) ∨ ∃ extent tag inside, tree = branch extent tag inside nil := by
  induction forest generalizing start level with
  | nil => cases found
  | leaf extent rest restHypothesis =>
    rw [tree?] at found
    split at found
    · cases found
      exact .inl ⟨extent, rfl⟩
    · exact restHypothesis _ _ found
  | branch extent tag inside rest insideHypothesis restHypothesis =>
    rw [tree?] at found
    split at found
    · cases found
      exact .inr ⟨extent, tag, inside, rfl⟩
    · split at found
      · exact insideHypothesis _ _ found
      · exact restHypothesis _ _ found

end Forest

section Own

variable (outline : Outline) (id level : Nat) (node : Node)

private theorem ownRows_handle (front back : List Row) (row : Row)
    (split : outline.ownRows id level node = front ++ row :: back) :
    (row.handle = some .expand ↔ outline.folding id = .collapsed ∧ front = []) ∧
      (row.handle = some .collapse ↔ outline.folding id = .expanded ∧ front = []) := by
  cases state : outline.folding id with
  | leaf =>
    simp only [ownRows, state] at split
    have member : row ∈ (outline.skeleton.linesOf node).map fun text => (⟨id, level, none, text⟩ : Row) := by
      simp [split]
    obtain ⟨text, _, rfl⟩ := List.mem_map.mp member
    simp
  | collapsed =>
    simp only [ownRows, state] at split
    cases front with
    | nil =>
      obtain ⟨rfl, _⟩ := List.cons.inj split
      simp
    | cons first rest => simp at split
  | expanded =>
    simp only [ownRows, state] at split
    match front with
    | [] =>
      obtain ⟨rfl, _⟩ := List.cons.inj split
      simp
    | [first] =>
      obtain ⟨_, split⟩ := List.cons.inj split
      obtain ⟨rfl, _⟩ := List.cons.inj split
      simp
    | first :: second :: rest => simp at split

private theorem node_of_ownRows (row : Row) (member : row ∈ outline.ownRows id level node) :
    row.node = id ∧ row.level = level ∧ (row.handle.isSome = true → outline.folding id ≠ .leaf) := by
  cases state : outline.folding id with
  | leaf =>
    simp only [ownRows, state, List.mem_map] at member
    obtain ⟨text, _, rfl⟩ := member
    simp
  | collapsed =>
    simp only [ownRows, state, List.mem_singleton] at member
    subst member
    simp
  | expanded =>
    simp only [ownRows, state, List.mem_cons, List.not_mem_nil, or_false] at member
    rcases member with rfl | rfl <;> simp

private theorem handle_ownRows (folds : outline.folding id ≠ .leaf) :
    ∃ row, (outline.ownRows id level node).filter (fun row => row.handle.isSome) = [row] := by
  cases state : outline.folding id with
  | leaf => exact absurd state folds
  | collapsed => exact ⟨_, by simp [ownRows, state]; rfl⟩
  | expanded => exact ⟨_, by simp [ownRows, state]; rfl⟩

end Own

theorem filter_tree (outline : Outline) (forest : Forest) (parent : Option Nat) (id start level height : Nat)
    (tree : Forest) (found : forest.tree? id start level = some (height, tree))
    (stands : Stands outline.skeleton.nodes parent id tree) :
    ∃ node, outline.skeleton.nodes[id]? = some node ∧ outline.skeleton.after id = id + tree.size ∧
      ((tree.view outline.isCollapsed id).rows outline.skeleton id height).filter (fun row => row.node == id) =
        outline.ownRows id height node := by
  rcases forest.tree?_cases id start level height tree found with ⟨extent, rfl⟩ | ⟨extent, tag, inside, rfl⟩
  · have state := outline.folding_leaf id parent extent stands.1
    refine ⟨_, stands.1, after_leaf _ id parent extent stands.1, ?_⟩
    simp [Forest.view, View.rows, ownRows, state, Skeleton.linesOf, nodeOf, List.filter_map, Function.comp_def]
  · have state := outline.folding_branch id _ parent extent tag stands.1
    refine ⟨_, stands.1, ?_, ?_⟩
    · rw [after_branch _ id parent extent tag _ stands.1]
      simp only [Forest.size, Nat.add_zero, Nat.add_assoc]
    · rw [Forest.view]
      split
      · next folded =>
        rw [if_pos folded] at state
        simp [Forest.view, View.rows, ownRows, state]
        rfl
      · next unfolded =>
        rw [if_neg unfolded] at state
        have inner : ((inside.view outline.isCollapsed (id + 1)).rows outline.skeleton (id + 1) (height + 1)).filter
            (fun row => row.node == id) = [] := by
          apply List.filter_eq_nil_iff.mpr
          intro row member same
          have bounds := View.rows_bounds _ _ _ _ row member
          exact absurd (beq_iff_eq.mp same) (Nat.ne_of_gt bounds.1)
        simp [Forest.view, View.rows, ownRows, state, inner, Skeleton.firstLine, Skeleton.lastLine, nodeOf]

variable {rules : Line.Rules} {text : Text} {outline : Outline}

/-- The nodes around a node are those whose subtrees it is in. -/
theorem Over.within_iff (based : Over rules text outline) (id outer : Nat) (inside : id < outline.count) :
    outline.skeleton.Within id outer ↔ outer < id ∧ id < outline.skeleton.after outer := by
  induction id using Nat.strongRecOn with
  | ind id inductionHypothesis =>
    rw [Skeleton.Within, Relation.TransGen.head'_iff]
    rcases based.nearest id inside with ⟨outermost, apart⟩ | ⟨next, parent, before, reached, apart⟩
    · refine iff_of_false ?_ ?_
      · rintro ⟨around, step, _⟩
        cases outermost.symm.trans step
      · rintro ⟨lower, upper⟩
        exact absurd upper (Nat.not_lt.mpr (apart outer lower))
    · have upper := inductionHypothesis next before (Nat.lt_trans before inside)
      constructor
      · rintro ⟨around, step, path⟩
        cases step.symm.trans parent
        rcases Relation.reflTransGen_iff_eq_or_transGen.mp path with rfl | deeper
        · exact ⟨before, reached⟩
        · obtain ⟨lower, within⟩ := upper.mp deeper
          have ends := (based.surrounds outer next lower (Nat.lt_trans before inside) within).2.1
          exact ⟨Nat.lt_trans lower before, Nat.lt_of_lt_of_le reached ends⟩
      · rintro ⟨lower, within⟩
        refine ⟨next, parent, ?_⟩
        rcases Nat.lt_trichotomy outer next with above | rfl | below
        · exact (upper.mpr ⟨above, Nat.lt_trans before within⟩).to_reflTransGen
        · exact .refl
        · exact absurd within (Nat.not_lt.mpr (apart outer below lower))

theorem Over.inside_iff (based : Over rules text outline) (id outer : Nat) (inside : id < outline.count) :
    outline.skeleton.Inside id outer ↔ outer ≤ id ∧ id < outline.skeleton.after outer := by
  rw [Skeleton.Inside, based.within_iff id outer inside]
  constructor
  · rintro (rfl | ⟨lower, upper⟩)
    · exact ⟨Nat.le_refl id, outline.skeleton.lt_after id⟩
    · exact ⟨Nat.le_of_lt lower, upper⟩
  · rintro ⟨lower, upper⟩
    rcases Nat.eq_or_lt_of_le lower with same | below
    · exact .inl same.symm
    · exact .inr ⟨below, upper⟩

theorem Over.node?_of_row (based : Over rules text outline) (row : Row) (member : row ∈ outline.rows) :
    (outline.node? row.node).isSome = true := by
  rw [based.rows_eq] at member
  obtain ⟨sight, seen⟩ := View.find?_of_row _ outline.skeleton none [] 0 0 0 row member
  rw [← based.sight?_eq, sight?] at seen
  obtain ⟨node, known, _⟩ := Option.map_eq_some_iff.mp seen
  exact Option.isSome_iff_exists.mpr ⟨node, known⟩

def treeOf? (rules : Line.Rules) (text : Text) (id : Nat) : Option (Nat × Forest) :=
  (Forest.ofLines rules 0 (Text.lines text)).tree? id 0 0

theorem Over.tree (based : Over rules text outline) (id : Nat) (inside : id < outline.count) :
    ∃ tree, treeOf? rules text id = some ((outline.skeleton.ancestors id).length, tree) ∧
      ∃ parent, Stands outline.skeleton.nodes parent id tree := by
  rw [based.count] at inside
  obtain ⟨height, tree, found⟩ := Forest.exists_tree? _ id 0 0 (Nat.zero_le id) (by rwa [Nat.zero_add])
  obtain ⟨depth, standing⟩ :=
    Forest.tree?_stands _ outline.skeleton none id 0 0 height tree based.stands (by simp) found
  have same : (outline.skeleton.ancestors id).length = height := by
    rwa [Nat.add_zero, Skeleton.chain, List.length_nil, Nat.zero_add] at depth
  exact ⟨tree, same ▸ found, standing⟩

/-- The rows of the tree of a visible node stand together, and the rows around them do not depend on the flags in
the tree. -/
theorem Over.split (based : Over rules text outline) (id height : Nat) (tree : Forest)
    (found : treeOf? rules text id = some (height, tree)) (shown : (outline.node? id).isSome = true) :
    ∃ front back : List Row, (∀ row ∈ front ++ back, row.node < id ∨ id + tree.size ≤ row.node) ∧
      ∀ other, Over rules text other → Forest.AgreeOutside outline.isCollapsed id tree other.isCollapsed →
        other.rows = front ++ (tree.view other.isCollapsed id).rows other.skeleton id height ++ back := by
  obtain ⟨node, known⟩ := Option.isSome_iff_exists.mp shown
  have seen := based.sight?_eq id
  rw [sight?, known, Option.map_some] at seen
  obtain ⟨front, back, outside, rows⟩ := Forest.embeds_of_seen _ outline.skeleton outline.isCollapsed none [] 0 id 0 0
    height tree _ found seen.symm
  refine ⟨front, back, outside, fun other basedOther agree => ?_⟩
  have skeleton : other.skeleton = outline.skeleton := basedOther.skeleton.trans based.skeleton.symm
  rw [basedOther.rows_eq, skeleton]
  exact rows other.isCollapsed agree

theorem Over.filter_rows (based : Over rules text outline) (id : Nat) (shown : (outline.node? id).isSome = true) :
    ∃ node, outline.skeleton.nodes[id]? = some node ∧ outline.rows.filter (fun row => row.node == id) =
      outline.ownRows id (outline.skeleton.ancestors id).length node := by
  have inside : id < outline.count := outline.lt_count_of_isShown id (node?_isSome outline id ▸ shown)
  obtain ⟨tree, found, parent, stands⟩ := based.tree id inside
  obtain ⟨node, known, _, own⟩ := filter_tree outline _ parent id 0 0 _ tree found stands
  obtain ⟨front, back, outside, rows⟩ := based.split id _ tree found shown
  have filled := (Forest.tree?_bounds _ id 0 0 _ tree found).2.1
  have others : (front ++ back).filter (fun row => row.node == id) = [] := by
    apply List.filter_eq_nil_iff.mpr
    intro row member same
    have apart := outside row member
    rw [beq_iff_eq.mp same] at apart
    omega
  rw [List.filter_append, List.append_eq_nil_iff] at others
  refine ⟨node, known, ?_⟩
  rw [rows outline based fun _ _ => rfl, List.filter_append, List.filter_append, others.1, others.2, own,
    List.nil_append, List.append_nil]

theorem Over.ownRows_ne_nil (based : Over rules text outline) (id level : Nat) (node : Node)
    (known : outline.skeleton.nodes[id]? = some node) : outline.ownRows id level node ≠ [] := by
  have ⟨nonempty, ends⟩ := based.laid.block id node known
  rw [ownRows]
  split
  · apply List.ne_nil_of_length_pos
    simp only [List.length_map, Skeleton.linesOf, Skeleton.range, Array.length_toList, Array.size_extract]
    omega
  · exact List.cons_ne_nil _ _
  · exact List.cons_ne_nil _ _

/-- The rows of a visible node and of what is seen inside it are framed by rows that stay when its flags change. -/
theorem Over.frames (based : Over rules text outline) (id height : Nat) (tree : Forest) (parent : Option Nat)
    (found : treeOf? rules text id = some (height, tree)) (stands : Stands outline.skeleton.nodes parent id tree)
    (shown : (outline.node? id).isSome = true) :
    ∃ front back, ∀ other, Over rules text other →
      Forest.AgreeOutside outline.isCollapsed id tree other.isCollapsed →
        Frames other id front ((tree.view other.isCollapsed id).rows other.skeleton id height) back := by
  obtain ⟨_, _, after, _⟩ := filter_tree outline _ parent id 0 0 _ tree found stands
  obtain ⟨front, back, outside, rows⟩ := based.split id _ tree found shown
  refine ⟨front, back, fun other basedOther agree => ?_⟩
  have skeleton : other.skeleton = outline.skeleton := basedOther.skeleton.trans based.skeleton.symm
  have split := rows other basedOther agree
  have reached : ∀ row ∈ other.rows, other.skeleton.Inside row.node id ↔ id ≤ row.node ∧ row.node < id + tree.size := by
    intro row member
    have shown := basedOther.node?_of_row row member
    rw [node?_isSome] at shown
    rw [basedOther.inside_iff row.node id (other.lt_count_of_isShown row.node shown), skeleton, after]
  refine ⟨split, ?_, ?_, ?_⟩
  · intro empty
    obtain ⟨node, known, _, own⟩ := filter_tree other _ parent id 0 0 _ tree found (skeleton ▸ stands)
    rw [empty] at own
    exact basedOther.ownRows_ne_nil id _ node known own.symm
  · intro row member
    have bounds := View.rows_bounds _ _ _ _ row member
    rw [Forest.forest_view] at bounds
    rw [reached row (by simp [split, member])]
    exact bounds
  · intro row member
    rw [reached row (by rw [split]; simp only [List.mem_append] at member ⊢; tauto)]
    have apart := outside row member
    omega

private theorem rows_collapsed (outline : Outline) (id height : Nat) (tree : Forest) (parent : Option Nat)
    (found : treeOf? rules text id = some (height, tree)) (stands : Stands outline.skeleton.nodes parent id tree)
    (folds : outline.folding id ≠ .leaf) {flags : Nat → Bool} (folded : flags id = true) :
    ∃ node, outline.skeleton.nodes[id]? = some node ∧ (tree.view flags id).rows outline.skeleton id height =
      [⟨id, height, some .expand, collapsedText outline.skeleton node⟩] := by
  rcases Forest.tree?_cases _ id 0 0 height tree found with ⟨extent, rfl⟩ | ⟨extent, tag, inside, rfl⟩
  · exact absurd (outline.folding_leaf id parent extent stands.1) folds
  · refine ⟨_, stands.1, ?_⟩
    rw [Forest.view, if_pos folded]
    rfl

/-- What toggling does to a visible node that folds: it gets the other flag if it was expanded, and loses all flags
of its subtree if it was collapsed. -/
theorem Over.toggleId_cases (based : Over rules text outline) (id : Nat) (shown : (outline.node? id).isSome = true)
    (folds : outline.folding id ≠ .leaf) :
    let toggled := (outline.toggleId id).2
    (outline.toggleId id).1 = true ∧ Over rules text toggled ∧
      ((outline.folding id = .expanded ∧
          ∀ other, toggled.isCollapsed other = (outline.isCollapsed other || other == id)) ∨
        (outline.folding id = .collapsed ∧ ∀ other, toggled.isCollapsed other =
          (outline.isCollapsed other && !(id ≤ other && other < outline.skeleton.after id)))) := by
  rw [node?_isSome] at shown
  have inside : id < outline.collapsed.size := based.flags ▸ outline.lt_count_of_isShown id shown
  rw [Outline.toggleId, if_pos shown, Outline.flipNode]
  cases state : outline.folding id with
  | leaf => exact absurd state folds
  | collapsed =>
    refine ⟨?_, based.expandNode id, .inr ⟨rfl, outline.isCollapsed_expand id state⟩⟩
    dsimp only
    rw [Outline.expandNode, if_pos state]
  | expanded =>
    refine ⟨?_, based.collapseNode id, .inl ⟨rfl, outline.isCollapsed_collapse id inside state⟩⟩
    dsimp only
    rw [Outline.collapseNode, if_pos state]

theorem node?_ofText (rules : Line.Rules) (text : Text) (id : Nat) (inside : id < (Outline.ofText rules text).count) :
    ((Outline.ofText rules text).node? id).isSome = true := by
  have based := over_ofText rules text
  rw [node?_isSome, based.isShown_iff]
  refine ⟨inside, fun outer around => ?_⟩
  rw [based.folding_around inside around]
  exact isCollapsed_ofText rules text outer

/-- Toggling a visible node that folds puts other rows in the place of its rows. -/
theorem Over.toggleId_frames (based : Over rules text outline) (id : Nat) (shown : (outline.node? id).isSome = true)
    (folds : outline.folding id ≠ .leaf) :
    (outline.toggleId id).1 = true ∧
      ∃ front rows other back, Frames outline id front rows back ∧ Frames (outline.toggleId id).2 id front other back ∧
        ((outline.folding id = .expanded ∧ ∃ node, outline.skeleton.nodes[id]? = some node ∧
            other = [⟨id, (outline.skeleton.ancestors id).length, some .expand, collapsedText outline.skeleton node⟩]) ∨
          (outline.folding id = .collapsed ∧ (∀ row ∈ other, row.handle ≠ some .expand) ∧
            ∃ before behind, Frames (Outline.ofText rules text) id before other behind)) := by
  have fresh := over_ofText rules text
  obtain ⟨done, basedToggled, change⟩ := based.toggleId_cases id shown folds
  have inside : id < outline.count := outline.lt_count_of_isShown id (node?_isSome outline id ▸ shown)
  obtain ⟨tree, found, parent, stands⟩ := based.tree id inside
  obtain ⟨_, _, after, _⟩ := filter_tree outline _ parent id 0 0 _ tree found stands
  obtain ⟨front, back, frames⟩ := based.frames id _ tree parent found stands shown
  have filled := (Forest.tree?_bounds _ id 0 0 _ tree found).2.1
  have here := frames outline based fun _ _ => rfl
  have skeleton : (outline.toggleId id).2.skeleton = outline.skeleton :=
    basedToggled.skeleton.trans based.skeleton.symm
  rcases change with ⟨expanded, flags⟩ | ⟨folded, flags⟩
  · have agree : Forest.AgreeOutside outline.isCollapsed id tree (outline.toggleId id).2.isCollapsed := by
      intro other apart
      rw [flags, beq_eq_false_iff_ne.mpr (by omega), Bool.or_false]
    have flag : (outline.toggleId id).2.isCollapsed id = true := by
      rw [flags, beq_self_eq_true, Bool.or_true]
    obtain ⟨node, known, row⟩ := rows_collapsed outline id _ tree parent found stands folds flag
    exact ⟨done, front, _, _, back, here, frames _ basedToggled agree, .inl ⟨expanded, node, known, skeleton ▸ row⟩⟩
  · have agree : Forest.AgreeOutside outline.isCollapsed id tree (outline.toggleId id).2.isCollapsed := by
      intro other apart
      have away : (decide (id ≤ other) && decide (other < outline.skeleton.after id)) = false := by
        rw [after, Bool.and_eq_false_iff, decide_eq_false_iff_not, decide_eq_false_iff_not]
        omega
      rw [flags, away, Bool.not_false, Bool.and_true]
    have clear : tree.view (outline.toggleId id).2.isCollapsed id = View.fresh tree := by
      apply Forest.view_fresh
      intro other lower upper
      rw [flags, after, decide_eq_true lower, decide_eq_true upper]
      simp
    have there := frames _ basedToggled agree
    have same : (Outline.ofText rules text).skeleton = outline.skeleton := based.skeleton.symm
    obtain ⟨before, behind, freshFrames⟩ := fresh.frames id _ tree parent found (same ▸ stands)
      (node?_ofText rules text id (by rwa [Outline.count, same]))
    have whole := freshFrames _ fresh fun _ _ => rfl
    rw [clear, skeleton] at there
    rw [same, Forest.view_fresh tree _ id fun other _ _ => isCollapsed_ofText rules text other] at whole
    exact ⟨done, front, _, _, back, here, there, .inr ⟨folded, View.handle_fresh tree _ _ _, before, behind, whole⟩⟩

theorem Over.mem_ownRows (based : Over rules text outline) (row : Row) (member : row ∈ outline.rows) :
    ∃ node, row ∈ outline.ownRows row.node (outline.skeleton.ancestors row.node).length node := by
  obtain ⟨node, _, own⟩ := based.filter_rows row.node (based.node?_of_row row member)
  exact ⟨node, own ▸ List.mem_filter.mpr ⟨member, beq_self_eq_true row.node⟩⟩

theorem Over.handle_iff (based : Over rules text outline) (front : List Row) (row : Row) (back : List Row)
    (split : outline.rows = front ++ row :: back) :
    (row.handle = some .expand ↔
        outline.folding row.node = .collapsed ∧ ∀ earlier ∈ front, earlier.node ≠ row.node) ∧
      (row.handle = some .collapse ↔
        outline.folding row.node = .expanded ∧ ∀ earlier ∈ front, earlier.node ≠ row.node) := by
  obtain ⟨node, _, own⟩ := based.filter_rows row.node (based.node?_of_row row (by simp [split]))
  rw [split, List.filter_append, List.filter_cons, if_pos (beq_self_eq_true row.node)] at own
  have handles := ownRows_handle outline row.node _ node _ _ row own.symm
  simp only [List.filter_eq_nil_iff, beq_iff_eq] at handles
  exact handles

/-- Whatever actions have been taken on the outline of a text, its rows are of visible nodes, one level deeper than
the nodes around them; the first row of each node that folds is its only handle; the rows in a subtree stand
together; and a toggle at a handle changes these rows only, to one row or to all that a new outline shows there. -/
theorem run_handles (rules : Line.Rules) (text : Text) (actions : List Action) :
    let fresh := Outline.ofText rules text
    let outline := (fresh.run actions).2
    (∀ row ∈ outline.rows, (outline.node? row.node).isSome = true ∧
        row.level = (outline.skeleton.ancestors row.node).length) ∧
      (∀ front row back, outline.rows = front ++ row :: back →
        (row.handle = some .expand ↔
          outline.folding row.node = .collapsed ∧ ∀ earlier ∈ front, earlier.node ≠ row.node) ∧
        (row.handle = some .collapse ↔
          outline.folding row.node = .expanded ∧ ∀ earlier ∈ front, earlier.node ≠ row.node)) ∧
      (∀ id, (outline.node? id).isSome = true → outline.folding id ≠ .leaf →
        ∃ row, outline.rows.filter (fun row => row.node == id && row.handle.isSome) = [row]) ∧
      (∀ id, (outline.node? id).isSome = true → ∃ front rows back, Frames outline id front rows back) ∧
      ∀ row ∈ outline.rows, row.handle.isSome = true →
        (outline.toggleId row.node).1 = true ∧ ∃ front rows other back,
          Frames outline row.node front rows back ∧ Frames (outline.toggleId row.node).2 row.node front other back ∧
            ((outline.folding row.node = .expanded ∧ ∃ node, outline.skeleton.nodes[row.node]? = some node ∧
                other = [⟨row.node, row.level, some .expand, collapsedText outline.skeleton node⟩]) ∨
              (outline.folding row.node = .collapsed ∧ (∀ inner ∈ other, inner.handle ≠ some .expand) ∧
                ∃ before behind, Frames fresh row.node before other behind)) := by
  intro fresh outline
  have based : Over rules text outline := ((over_ofText rules text).run_eq actions).1
  have levels : ∀ row ∈ outline.rows, row.level = (outline.skeleton.ancestors row.node).length ∧
      (row.handle.isSome = true → outline.folding row.node ≠ .leaf) := by
    intro row member
    obtain ⟨node, own⟩ := based.mem_ownRows row member
    exact (node_of_ownRows outline _ _ node row own).2
  refine ⟨?_, based.handle_iff, ?_, ?_, ?_⟩
  · intro row member
    exact ⟨based.node?_of_row row member, (levels row member).1⟩
  · intro id shown folds
    obtain ⟨node, _, own⟩ := based.filter_rows id shown
    obtain ⟨row, only⟩ := handle_ownRows outline id (outline.skeleton.ancestors id).length node folds
    rw [← own, List.filter_filter] at only
    exact ⟨row, by simpa only [Bool.and_comm] using only⟩
  · intro id shown
    have inside : id < outline.count := outline.lt_count_of_isShown id (node?_isSome outline id ▸ shown)
    obtain ⟨tree, found, parent, stands⟩ := based.tree id inside
    obtain ⟨front, back, frames⟩ := based.frames id _ tree parent found stands shown
    exact ⟨front, _, back, frames outline based fun _ _ => rfl⟩
  · intro row member handle
    obtain ⟨level, folds⟩ := levels row member
    rw [level]
    exact based.toggleId_frames row.node (based.node?_of_row row member) (folds handle)

end MarkupOutline.Outline
