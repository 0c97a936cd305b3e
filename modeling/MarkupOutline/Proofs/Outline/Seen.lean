import Mathlib.Logic.Function.Iterate
import MarkupOutline.Proofs.Outline.View

/-! All that an outline shows of its nodes is told by a view, which is found from the flags by recursion over
the forest of the text. -/
namespace MarkupOutline.Outline

open Text Block

/-- What is seen of a forest under some flags. -/
def Forest.view (collapsed : Nat → Bool) (start : Nat) : Forest → View
  | nil => .nil
  | leaf extent rest => .leaf extent (rest.view collapsed (start + 1))
  | branch extent tag inside rest =>
    if collapsed start then
      .collapsed extent tag inside (rest.view collapsed (start + 1 + inside.size))
    else
      .expanded extent tag (inside.view collapsed (start + 1))
        (rest.view collapsed (start + 1 + inside.size))

namespace Forest

theorem forest_view (forest : Forest) (collapsed : Nat → Bool) (start : Nat) :
    (forest.view collapsed start).forest = forest := by
  induction forest generalizing start with
  | nil => rfl
  | leaf extent rest restHypothesis => rw [view, View.forest, restHypothesis]
  | branch extent tag inside rest insideHypothesis restHypothesis =>
    rw [view]
    split
    · rw [View.forest, restHypothesis]
    · rw [View.forest, insideHypothesis, restHypothesis]

/-- Only the flags of its own nodes count for the view of a forest. -/
theorem view_congr (forest : Forest) (first second : Nat → Bool) (start : Nat)
    (same : ∀ id, start ≤ id → id < start + forest.size → first id = second id) :
    forest.view first start = forest.view second start := by
  induction forest generalizing start with
  | nil => rfl
  | leaf extent rest restHypothesis =>
    rw [size] at same
    rw [view, view, restHypothesis (start + 1) fun id lower upper => same id (by omega) (by omega)]
  | branch extent tag inside rest insideHypothesis restHypothesis =>
    rw [size] at same
    rw [view, view, same start (Nat.le_refl start) (by omega),
      insideHypothesis (start + 1) fun id lower upper => same id (by omega) (by omega),
      restHypothesis (start + 1 + inside.size) fun id lower upper => same id (by omega) (by omega)]

/-- Flags that agree wherever they can be seen give the same view. -/
theorem view_eq_of_seen (forest : Forest) (first second : Nat → Bool) (parent : Option Nat)
    (above : List Nat) (index start : Nat)
    (same : ∀ id sight, (forest.view first start).find? parent above index start id = some sight →
      first id = second id) : forest.view first start = forest.view second start := by
  induction forest generalizing parent above index start with
  | nil => rfl
  | leaf extent rest restHypothesis =>
    rw [view, view, restHypothesis parent above (index + 1) (start + 1) ?_]
    intro id sight seen
    have bounds := View.find?_bounds _ _ _ _ _ _ _ seen
    apply same id sight
    rw [view, View.find?, if_neg (by omega)]
    exact seen
  | branch extent tag inside rest insideHypothesis restHypothesis =>
    rw [view] at same
    have own : first start = second start := by
      cases folded : first start with
      | true =>
        rw [if_pos folded] at same
        rw [← folded]
        exact same start _ (if_pos rfl)
      | false =>
        rw [if_neg (by simp [folded])] at same
        rw [← folded]
        exact same start _ (if_pos rfl)
    rw [view, view, ← own]
    split
    · next folded =>
      rw [if_pos folded] at same
      rw [restHypothesis parent above (index + 1) (start + 1 + inside.size) ?_]
      intro id sight seen
      have bounds := View.find?_bounds _ _ _ _ _ _ _ seen
      apply same id sight
      rw [View.find?, if_neg (by omega)]
      exact seen
    · next unfolded =>
      rw [if_neg unfolded] at same
      rw [insideHypothesis (some start) (above ++ [index]) 0 (start + 1) ?_,
        restHypothesis parent above (index + 1) (start + 1 + inside.size) ?_]
      · intro id sight seen
        have bounds := View.find?_bounds _ _ _ _ _ _ _ seen
        apply same id sight
        rw [View.find?, if_neg (by omega), forest_view, if_neg (by omega)]
        exact seen
      · intro id sight seen
        have bounds := View.find?_bounds _ _ _ _ _ _ _ seen
        rw [forest_view] at bounds
        apply same id sight
        rw [View.find?, if_neg (by omega), forest_view, if_pos (by omega)]
        exact seen

theorem view_fresh (forest : Forest) (collapsed : Nat → Bool) (start : Nat)
    (clear : ∀ id, start ≤ id → id < start + forest.size → collapsed id = false) :
    forest.view collapsed start = View.fresh forest := by
  induction forest generalizing start with
  | nil => rfl
  | leaf extent rest restHypothesis =>
    rw [size] at clear
    rw [view, View.fresh, restHypothesis (start + 1) fun id lower upper => clear id (by omega) (by omega)]
  | branch extent tag inside rest insideHypothesis restHypothesis =>
    rw [size] at clear
    rw [view, View.fresh, clear start (Nat.le_refl start) (by omega),
      insideHypothesis (start + 1) fun id lower upper => clear id (by omega) (by omega),
      restHypothesis (start + 1 + inside.size) fun id lower upper => clear id (by omega) (by omega)]
    rfl

end Forest

section Observations

variable (outline : Outline)

theorem folding_leaf (id : Nat) (parent : Option Nat) (extent : Extent)
    (here : outline.skeleton.nodes[id]? = some (nodeOf parent extent none 0)) : outline.folding id = .leaf := by
  rw [folding, here]
  rfl

theorem folding_branch (id descendants : Nat) (parent : Option Nat) (extent : Extent) (tag : Line.Opener)
    (here : outline.skeleton.nodes[id]? = some (nodeOf parent extent (some tag) descendants)) :
    outline.folding id = if outline.isCollapsed id then .collapsed else .expanded := by
  rw [folding, here]
  rfl

theorem folding_collapsed_iff (id descendants : Nat) (parent : Option Nat) (extent : Extent)
    (tag : Line.Opener)
    (here : outline.skeleton.nodes[id]? = some (nodeOf parent extent (some tag) descendants)) :
    outline.folding id = .collapsed ↔ outline.isCollapsed id = true := by
  rw [outline.folding_branch id descendants parent extent tag here]
  split <;> simp_all

theorem folding_expanded_iff (id descendants : Nat) (parent : Option Nat) (extent : Extent)
    (tag : Line.Opener)
    (here : outline.skeleton.nodes[id]? = some (nodeOf parent extent (some tag) descendants)) :
    outline.folding id = .expanded ↔ outline.isCollapsed id = false := by
  rw [outline.folding_branch id descendants parent extent tag here]
  split <;> simp_all

theorem children_branch (id : Nat) (parent : Option Nat) (extent : Extent) (tag : Line.Opener)
    (inside : Forest) (here : outline.skeleton.nodes[id]? = some (nodeOf parent extent (some tag) inside.size))
    (within : Stands outline.skeleton.nodes (some id) (id + 1) inside) :
    outline.children id = if outline.isCollapsed id then [] else inside.tops (id + 1) := by
  rw [children, outline.folding_branch id _ parent extent tag here]
  split
  · rfl
  · rw [if_pos rfl, Skeleton.childrenOf, after_branch _ id parent extent tag _ here,
      siblings_eq_tops _ (some id) (id + 1) inside within]

theorem children_leaf (id : Nat) (parent : Option Nat) (extent : Extent)
    (here : outline.skeleton.nodes[id]? = some (nodeOf parent extent none 0)) : outline.children id = [] := by
  rw [children, outline.folding_leaf id parent extent here]
  rfl

/-- A path leads to the same node in the outline and in its view. -/
theorem descend_eq (parent : Option Nat) (start : Nat) (forest : Forest)
    (stands : Stands outline.skeleton.nodes parent start forest) (index : Nat) (path : List Nat) :
    ((forest.tops start)[index]?.bind fun id => outline.descend? id path) =
      (forest.view outline.isCollapsed start).idAt? start index path := by
  induction forest generalizing parent start index path with
  | nil => rfl
  | leaf extent rest restHypothesis =>
    rw [Forest.tops, Forest.view]
    cases index with
    | zero =>
      cases path with
      | nil => rfl
      | cons next path =>
        rw [List.getElem?_cons_zero, Option.bind_some, descend?, outline.children_leaf start parent extent stands.1]
        rfl
    | succ index => exact restHypothesis parent (start + 1) stands.2 index path
  | branch extent tag inside rest insideHypothesis restHypothesis =>
    obtain ⟨here, within, behind⟩ := stands
    have children := outline.children_branch start parent extent tag inside here within
    have onward := restHypothesis parent (start + 1 + inside.size) behind
    rw [Forest.tops, Forest.view]
    cases index with
    | zero =>
      cases path with
      | nil => split <;> rfl
      | cons next path =>
        rw [List.getElem?_cons_zero, Option.bind_some, descend?, children]
        split
        · rfl
        · exact insideHypothesis (some start) (start + 1) within next path
    | succ index =>
      rw [List.getElem?_cons_succ, onward]
      split
      · rfl
      · rw [View.idAt?, Forest.forest_view]

end Observations

namespace Skeleton

variable (skeleton : Skeleton)

def chain : Option Nat → List Nat
  | none => []
  | some parent => parent :: skeleton.ancestors parent

def levelStart (parent : Option Nat) : Nat := (parent.map (· + 1)).getD 0

theorem ancestors_eq (id : Nat) (node : Node) (here : skeleton.nodes[id]? = some node)
    (around : ∀ parent ∈ node.parent, parent < id) : skeleton.ancestors id = skeleton.chain node.parent := by
  rw [ancestors, parent?, here, Option.bind_some]
  cases same : node.parent with
  | none => rfl
  | some parent =>
    rw [same] at around
    exact if_pos (around parent rfl)

theorem chain_some (id : Nat) (node : Node) (here : skeleton.nodes[id]? = some node)
    (around : ∀ parent ∈ node.parent, parent < id) : skeleton.chain (some id) = id :: skeleton.chain node.parent := by
  rw [chain, skeleton.ancestors_eq id node here around]

private theorem length_siblings_iterate (index start : Nat) :
    (skeleton.siblings start (skeleton.after^[index] start)).length = index := by
  induction index generalizing start with
  | zero =>
    rw [Function.iterate_zero, id_eq, siblings, if_neg (Nat.lt_irrefl start)]
    rfl
  | succ index inductionHypothesis =>
    have later : ∀ count place, place ≤ skeleton.after^[count] place := by
      intro count
      induction count with
      | zero => exact fun place => Nat.le_refl place
      | succ count countHypothesis =>
        intro place
        exact Nat.le_of_lt (Nat.lt_of_lt_of_le (skeleton.lt_after place) (countHypothesis (skeleton.after place)))
    have before := Nat.lt_of_lt_of_le (skeleton.lt_after start) (later index (skeleton.after start))
    rw [Function.iterate_succ_apply, siblings, if_pos before, List.length_cons, inductionHypothesis]

theorem rank_eq (id index : Nat) (node : Node) (here : skeleton.nodes[id]? = some node)
    (placed : skeleton.after^[index] (levelStart node.parent) = id) : skeleton.rank id = index := by
  rw [rank, parent?, here, Option.bind_some]
  have count := skeleton.length_siblings_iterate index (levelStart node.parent)
  rwa [placed] at count

private theorem place_eq (id index : Nat) (node : Node) (here : skeleton.nodes[id]? = some node)
    (around : ∀ parent ∈ node.parent, parent < id)
    (placed : skeleton.after^[index] (levelStart node.parent) = id) :
    skeleton.place id = ((skeleton.chain node.parent).map skeleton.rank).reverse ++ [index] := by
  rw [place, skeleton.ancestors_eq id node here around, List.map_cons, List.reverse_cons,
    skeleton.rank_eq id index node here placed]

/-- The nodes around a level are around every node in it. -/
theorem ancestors_inside (parent : Option Nat) (start : Nat) (forest : Forest)
    (stands : Stands skeleton.nodes parent start forest) (around : ∀ outer ∈ parent, outer < start) (id : Nat)
    (lower : start ≤ id) (upper : id < start + forest.size) :
    ∃ front, skeleton.ancestors id = front ++ skeleton.chain parent := by
  induction forest generalizing parent start with
  | nil =>
    rw [Forest.size] at upper
    omega
  | leaf extent rest restHypothesis =>
    rw [Forest.size] at upper
    by_cases here : id = start
    · exact ⟨[], here ▸ skeleton.ancestors_eq start _ stands.1 around⟩
    · exact restHypothesis parent (start + 1) stands.2 (fun outer member => Nat.lt_succ_of_lt (around outer member))
        (by omega) (by omega)
  | branch extent tag inside rest insideHypothesis restHypothesis =>
    obtain ⟨first, within, behind⟩ := stands
    have own := skeleton.ancestors_eq start _ first around
    rw [Forest.size] at upper
    by_cases here : id = start
    · exact ⟨[], here ▸ own⟩
    · by_cases enclosed : id < start + 1 + inside.size
      · obtain ⟨front, same⟩ := insideHypothesis (some start) (start + 1) within
          (fun outer member => by cases member; exact Nat.lt_succ_self start) (by omega) enclosed
        refine ⟨front ++ [start], ?_⟩
        rw [same, chain, own, List.append_assoc]
        rfl
      · exact restHypothesis parent (start + 1 + inside.size) behind
          (fun outer member => by have earlier := around outer member; omega) (by omega) (by omega)

end Skeleton

section Visible

variable (outline : Outline)

theorem lt_count_of_isShown (id : Nat) (shown : outline.isShown id = true) : id < outline.count := by
  rw [isShown, Bool.and_eq_true, decide_eq_true_eq] at shown
  exact shown.1

def levelShown (parent : Option Nat) : Bool :=
  (outline.skeleton.chain parent).all fun ancestor => !outline.isCollapsed ancestor

def levelPath (parent : Option Nat) : List Nat :=
  ((outline.skeleton.chain parent).map outline.skeleton.rank).reverse

private theorem node?_shown (id : Nat) (node : Node) (here : outline.skeleton.nodes[id]? = some node)
    (around : ∀ parent ∈ node.parent, parent < id) (shown : outline.levelShown node.parent = true) :
    outline.node? id = some node := by
  have inside : id < outline.count := (Array.getElem?_eq_some_iff.mp here).1
  rw [levelShown, ← outline.skeleton.ancestors_eq id node here around] at shown
  rw [node?, isShown, shown, decide_eq_true inside, here]
  rfl

private theorem node?_hidden (id outer : Nat) (member : outer ∈ outline.skeleton.ancestors id)
    (folded : outline.isCollapsed outer = true) : outline.node? id = none := by
  have hidden : ((outline.skeleton.ancestors id).all fun ancestor => !outline.isCollapsed ancestor) = false := by
    rw [List.all_eq_false]
    exact ⟨outer, member, by rw [folded]; decide⟩
  rw [node?, isShown, hidden, Bool.and_false]
  rfl

section Level

variable (id : Nat) (node : Node) (here : outline.skeleton.nodes[id]? = some node)
  (around : ∀ parent ∈ node.parent, parent < id)

include here around

theorem levelShown_some (shown : outline.levelShown node.parent = true)
    (unfolded : outline.isCollapsed id = false) : outline.levelShown (some id) = true := by
  rw [levelShown, outline.skeleton.chain_some id node here around, List.all_cons, ← levelShown, shown, unfolded]
  rfl

theorem levelPath_some (index : Nat)
    (placed : outline.skeleton.after^[index] (Skeleton.levelStart node.parent) = id) :
    outline.levelPath (some id) = outline.levelPath node.parent ++ [index] := by
  rw [levelPath, outline.skeleton.chain_some id node here around, List.map_cons, List.reverse_cons, ← levelPath,
    outline.skeleton.rank_eq id index node here placed]

private theorem sight?_shown (index : Nat)
    (placed : outline.skeleton.after^[index] (Skeleton.levelStart node.parent) = id)
    (shown : outline.levelShown node.parent = true) : outline.sight? id =
      some ⟨node, outline.levelPath node.parent ++ [index], outline.folding id, outline.children id⟩ := by
  rw [sight?, outline.node?_shown id node here around shown, outline.skeleton.place_eq id index node here around placed]
  rfl

private theorem sight?_folded (inside : Forest) (within : Stands outline.skeleton.nodes (some id) (id + 1) inside)
    (folded : outline.isCollapsed id = true) (inner : Nat) (lower : id < inner)
    (upper : inner < id + 1 + inside.size) : outline.sight? inner = none := by
  have enclosed : ∀ outer ∈ some id, outer < id + 1 := by
    rintro outer ⟨⟩
    exact Nat.lt_succ_self id
  obtain ⟨front, same⟩ := outline.skeleton.ancestors_inside (some id) (id + 1) inside within enclosed inner lower upper
  have member : id ∈ outline.skeleton.ancestors inner := by
    simp [same, outline.skeleton.chain_some id node here around]
  rw [sight?, outline.node?_hidden inner id member folded]
  rfl

end Level

/-- What the outline shows of the nodes of a forest is what the view of the forest shows. -/
theorem sight?_eq (parent : Option Nat) (start index : Nat) (forest : Forest)
    (stands : Stands outline.skeleton.nodes parent start forest) (around : ∀ outer ∈ parent, outer < start)
    (placed : outline.skeleton.after^[index] (Skeleton.levelStart parent) = start)
    (shown : outline.levelShown parent = true) (id : Nat) (lower : start ≤ id)
    (upper : id < start + forest.size) : outline.sight? id =
      (forest.view outline.isCollapsed start).find? parent (outline.levelPath parent) index start id := by
  induction forest generalizing parent start index with
  | nil =>
    rw [Forest.size] at upper
    omega
  | leaf extent rest restHypothesis =>
    rw [Forest.size] at upper
    rw [Forest.view, View.find?]
    split
    · next same =>
      rw [same, outline.sight?_shown start _ stands.1 around index placed shown,
        outline.folding_leaf start parent extent stands.1, outline.children_leaf start parent extent stands.1]
      rfl
    · next other =>
      have onward : outline.skeleton.after^[index + 1] (Skeleton.levelStart parent) = start + 1 := by
        rw [Function.iterate_succ_apply', placed, after_leaf _ start parent extent stands.1]
      exact restHypothesis parent (start + 1) (index + 1) stands.2
        (fun outer member => Nat.lt_succ_of_lt (around outer member)) onward shown (by omega) (by omega)
  | branch extent tag inside rest insideHypothesis restHypothesis =>
    obtain ⟨here, within, behind⟩ := stands
    have folding := outline.folding_branch start _ parent extent tag here
    have children := outline.children_branch start parent extent tag inside here within
    have own := outline.sight?_shown start _ here around index placed shown
    have onward : outline.skeleton.after^[index + 1] (Skeleton.levelStart parent) = start + 1 + inside.size := by
      rw [Function.iterate_succ_apply', placed, after_branch _ start parent extent tag _ here]
    have later := restHypothesis parent (start + 1 + inside.size) (index + 1) behind
      (fun outer member => by have earlier := around outer member; omega) onward shown
    rw [Forest.size] at upper
    rw [Forest.view]
    split
    · next folded =>
      rw [if_pos folded] at folding children
      rw [View.find?]
      split
      · next same =>
        rw [same, own, folding, children]
        rfl
      · next other =>
        by_cases hidden : id < start + 1 + inside.size
        · rw [outline.sight?_folded start _ here around inside within folded id (by omega) hidden,
            View.find?_of_lt _ _ _ _ _ _ hidden]
        · exact later (by omega) (by omega)
    · next unfolded =>
      rw [if_neg unfolded] at folding children
      rw [View.find?, Forest.forest_view]
      split
      · next same =>
        rw [same, own, folding, children]
        rfl
      · split
        · next enclosed =>
          have inner := insideHypothesis (some start) (start + 1) 0 within
            (by rintro outer ⟨⟩; exact Nat.lt_succ_self start) rfl
            (outline.levelShown_some start _ here around shown (Bool.not_eq_true _ ▸ unfolded)) (by omega) enclosed
          rwa [outline.levelPath_some start _ here around index placed] at inner
        · exact later (by omega) (by omega)

end Visible

namespace Task

variable (outline : Outline) (start stop level : Nat) (parent : Option Nat) (extent : Extent)

private theorem performAll_closing (row : Row) (tasks : List Task) :
    performAll outline (closing row :: tasks) = row :: performAll outline tasks := by
  rw [performAll]
  rfl

theorem perform_leaf (here : outline.skeleton.nodes[start]? = some (nodeOf parent extent none 0))
    (inside : start + 1 ≤ stop) : (siblings start stop level).perform outline =
      ((outline.skeleton.range extent.first extent.stop).map fun text => ⟨start, level, none, text⟩,
        [siblings (start + 1) stop level]) := by
  rw [perform, if_pos (by omega), here]
  dsimp only
  rw [outline.folding_leaf start parent extent here, after_leaf _ start parent extent here, Nat.min_eq_left inside]
  rfl

variable (tag : Line.Opener) (descendants : Nat)
  (here : outline.skeleton.nodes[start]? = some (nodeOf parent extent (some tag) descendants))
  (inside : start + 1 + descendants ≤ stop)

include here inside

theorem perform_collapsed (folded : outline.isCollapsed start = true) : (siblings start stop level).perform outline =
    ([⟨start, level, some .expand, collapsedText outline.skeleton (nodeOf none extent (some tag) 0)⟩],
      [siblings (start + 1 + descendants) stop level]) := by
  rw [perform, if_pos (by omega), here]
  dsimp only
  rw [outline.folding_branch start _ parent extent tag here, if_pos folded,
    after_branch _ start parent extent tag _ here, Nat.min_eq_left inside]
  rfl

theorem perform_expanded (unfolded : ¬ outline.isCollapsed start = true) :
    (siblings start stop level).perform outline =
      ([⟨start, level, some .collapse, outline.skeleton.line extent.first⟩],
        [siblings (start + 1) (start + 1 + descendants) (level + 1),
          closing ⟨start, level, none, outline.skeleton.line (extent.stop - 1)⟩,
          siblings (start + 1 + descendants) stop level]) := by
  rw [perform, if_pos (by omega), here]
  dsimp only
  rw [outline.folding_branch start _ parent extent tag here, if_neg unfolded,
    after_branch _ start parent extent tag _ here, Nat.min_eq_left inside]
  rfl

end Task

/-- The rows of the nodes of a forest are those of its view. -/
theorem performAll_siblings (outline : Outline) (parent : Option Nat) (start level : Nat) (forest : Forest)
    (stands : Stands outline.skeleton.nodes parent start forest) (tasks : List Task) :
    Task.performAll outline (.siblings start (start + forest.size) level :: tasks) =
      (forest.view outline.isCollapsed start).rows outline.skeleton start level ++
        Task.performAll outline tasks := by
  induction forest generalizing parent start level tasks with
  | nil =>
    have done : (Task.siblings start (start + Forest.nil.size) level).perform outline = ([], []) :=
      if_neg (Nat.lt_irrefl start)
    rw [Task.performAll, done]
    rfl
  | leaf extent rest restHypothesis =>
    have stop : start + (Forest.leaf extent rest).size = start + 1 + rest.size := by
      rw [Forest.size]
      omega
    rw [stop, Task.performAll, Task.perform_leaf outline start _ level parent extent stands.1 (by omega),
      List.singleton_append, restHypothesis parent (start + 1) level stands.2, Forest.view, View.rows,
      List.append_assoc]
  | branch extent tag inside rest insideHypothesis restHypothesis =>
    obtain ⟨here, within, behind⟩ := stands
    have stop : start + (Forest.branch extent tag inside rest).size = start + 1 + inside.size + rest.size := by
      rw [Forest.size]
      omega
    rw [stop, Task.performAll, Forest.view]
    split
    · next folded =>
      rw [Task.perform_collapsed outline start _ level parent extent tag _ here (by omega) folded,
        List.singleton_append, List.singleton_append,
        restHypothesis parent (start + 1 + inside.size) level behind, View.rows, List.cons_append]
    · next unfolded =>
      rw [Task.perform_expanded outline start _ level parent extent tag _ here (by omega) unfolded,
        List.singleton_append, List.cons_append, List.cons_append, List.singleton_append,
        insideHypothesis (some start) (start + 1) (level + 1) within, Task.performAll_closing,
        restHypothesis parent (start + 1 + inside.size) level behind, View.rows, Forest.forest_view]
      simp

/-- An outline of a text, however it is folded. -/
structure Over (rules : Line.Rules) (text : Text) (outline : Outline) : Prop where
  skeleton : outline.skeleton = Skeleton.ofSource (.ofText rules text)
  flags : outline.collapsed.size = outline.skeleton.nodes.size

def view (rules : Line.Rules) (text : Text) (outline : Outline) : View :=
  (Forest.ofLines rules 0 (Text.lines text)).view outline.isCollapsed 0

variable {rules : Line.Rules} {text : Text} {outline : Outline}

theorem Over.stands (based : Over rules text outline) :
    Stands outline.skeleton.nodes none 0 (Forest.ofLines rules 0 (Text.lines text)) := by
  rw [based.skeleton]
  exact stands_ofSource rules text

theorem Over.count (based : Over rules text outline) :
    outline.count = (Forest.ofLines rules 0 (Text.lines text)).size := by
  rw [Outline.count, based.skeleton, ofSource_nodes, List.size_toArray, Forest.length_nodes]

theorem Over.roots_eq (based : Over rules text outline) :
    outline.skeleton.roots = (Forest.ofLines rules 0 (Text.lines text)).tops 0 := by
  have roots := siblings_eq_tops outline.skeleton none 0 _ based.stands
  rwa [Nat.zero_add, ← based.count] at roots

theorem Over.resolve?_eq (based : Over rules text outline) : outline.resolve? = (outline.view rules text).resolve? := by
  funext path
  cases path with
  | nil => rfl
  | cons index path =>
    rw [resolve?, based.roots_eq]
    exact outline.descend_eq none 0 _ based.stands index path

theorem Over.sight?_eq (based : Over rules text outline) (id : Nat) :
    outline.sight? id = (outline.view rules text).find? none [] 0 0 id := by
  by_cases inside : id < 0 + (Forest.ofLines rules 0 (Text.lines text)).size
  · exact outline.sight?_eq none 0 0 _ based.stands (by simp) rfl rfl id (Nat.zero_le id) inside
  · have beyond : outline.isShown id = false := by
      rw [isShown, based.count, decide_eq_false (by omega), Bool.false_and]
    rw [sight?, node?, beyond]
    cases found : (outline.view rules text).find? none [] 0 0 id with
    | none => rfl
    | some sight =>
      have bounds := View.find?_bounds _ _ _ _ _ _ _ found
      rw [view, Forest.forest_view] at bounds
      omega

theorem Over.rows_eq (based : Over rules text outline) :
    outline.rows = (outline.view rules text).rows outline.skeleton 0 0 := by
  have rows := performAll_siblings outline none 0 0 _ based.stands []
  rw [Nat.zero_add, ← based.count] at rows
  rw [Outline.rows, rows, Task.performAll, List.append_nil, view]

/-- A node can be seen exactly if it has a path. -/
theorem pathTo?_eq (outline : Outline) (id : Nat) :
    outline.pathTo? id = (outline.node? id).map fun _ => outline.skeleton.place id := by
  rw [pathTo?, node?]
  split
  · next shown =>
    rw [Array.getElem?_eq_getElem (outline.lt_count_of_isShown id shown)]
    rfl
  · rfl

/-- What an outline shows is told by its view. -/
theorem Over.observe_eq (based : Over rules text outline) :
    outline.observe = (outline.view rules text).observe outline.skeleton := by
  have sights : ∀ id, (outline.view rules text).find? none [] 0 0 id = outline.sight? id :=
    fun id => (based.sight?_eq id).symm
  have paths : outline.pathTo? = fun id => (outline.node? id).map fun _ => outline.skeleton.place id :=
    funext outline.pathTo?_eq
  simp only [observe, View.observe, based.resolve?_eq, based.rows_eq, paths, sights, sight?, Option.map_map,
    Function.comp_def, Option.map_id']

end MarkupOutline.Outline
