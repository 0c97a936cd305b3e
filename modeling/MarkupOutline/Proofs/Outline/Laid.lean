import MarkupOutline.Proofs.Outline.Paths
import MarkupOutline.Proofs.Outline.Recursive

/-! How the nodes of an outline lie: subtrees as runs of numbers, blocks as runs of lines. Of two nodes the later
one is behind the earlier one in both, or inside it in both. Folding changes flags and nothing else. -/
namespace MarkupOutline.Outline

open Text Block

namespace Skeleton

variable (skeleton : Skeleton)

/-- The subtree and the block of one node end before those of another one begin. -/
def Precedes (earlier later : Nat) : Prop :=
  skeleton.after earlier ≤ later ∧
    ∀ before ∈ skeleton.nodes[earlier]?, ∀ behind ∈ skeleton.nodes[later]?, before.stop ≤ behind.first

/-- The subtree of one node is in that of another one, which folds, and its block is between the first line and
the last line of the other one. -/
def Surrounds (outer inner : Nat) : Prop :=
  inner < skeleton.after outer ∧ skeleton.after inner ≤ skeleton.after outer ∧
    ∀ around ∈ skeleton.nodes[outer]?, ∀ within ∈ skeleton.nodes[inner]?,
      around.nameBytes.isSome = true ∧ around.first < within.first ∧ within.stop < around.stop

end Skeleton

namespace Forest

variable {rules : Line.Rules} {lines : List Text} {start stop : Nat} {forest : Forest} {skeleton : Skeleton}

theorem Grown.within (grown : Grown rules lines start stop forest) (inside : stop ≤ lines.length)
    {parent : Option Nat} {number : Nat} (stands : Stands skeleton.nodes parent number forest) (id : Nat)
    (lower : number ≤ id) (upper : id < number + forest.size) :
    ∃ node, skeleton.nodes[id]? = some node ∧ start ≤ node.first ∧ node.first < node.stop ∧ node.stop ≤ stop := by
  obtain ⟨outer, extent, first, last, begun, ends, found, facts⟩ := grown.found inside stands id lower upper
  have bounds := scanRange?_bounds rules lines first last extent (Nat.le_trans ends inside) found
  have placed : start ≤ extent.first ∧ extent.first < extent.stop ∧ extent.stop ≤ stop :=
    ⟨Nat.le_trans begun bounds.1, bounds.2.1, Nat.le_trans bounds.2.2 ends⟩
  rcases facts with ⟨_, here⟩ | ⟨_, _, _, here, _⟩
  · exact ⟨_, here, placed⟩
  · exact ⟨_, here, placed⟩

theorem Grown.precedes (grown : Grown rules lines start stop forest) (inside : stop ≤ lines.length)
    {parent : Option Nat} {number : Nat} (stands : Stands skeleton.nodes parent number forest) (earlier later : Nat)
    (ended : skeleton.after earlier ≤ number)
    (finished : ∀ before ∈ skeleton.nodes[earlier]?, before.stop ≤ start)
    (lower : number ≤ later) (upper : later < number + forest.size) : skeleton.Precedes earlier later := by
  refine ⟨Nat.le_trans ended lower, fun before known behind other => ?_⟩
  obtain ⟨node, same, begins, _⟩ := grown.within inside stands later lower upper
  cases Option.some.inj (same.symm.trans other)
  exact Nat.le_trans (finished before known) begins

theorem Grown.surrounds (grown : Grown rules lines start stop forest) (inside : stop ≤ lines.length)
    {parent : Option Nat} {number : Nat} (stands : Stands skeleton.nodes parent number forest) (outer inner : Nat)
    (around : Node) (here : skeleton.nodes[outer]? = some around) (folds : around.nameBytes.isSome = true)
    (opened : around.first < start) (closed : stop < around.stop)
    (ended : number + forest.size ≤ skeleton.after outer) (lower : number ≤ inner)
    (upper : inner < number + forest.size) : skeleton.Surrounds outer inner := by
  have ends := after_inside skeleton parent number forest stands inner lower upper
  refine ⟨Nat.lt_of_lt_of_le upper ended, Nat.le_trans ends ended, fun node same within known => ?_⟩
  obtain ⟨found, other, begins, _, ends⟩ := grown.within inside stands inner lower upper
  cases Option.some.inj (here.symm.trans same)
  cases Option.some.inj (other.symm.trans known)
  exact ⟨folds, Nat.lt_of_lt_of_le opened begins, Nat.lt_of_le_of_lt ends closed⟩

/-- Of two nodes of a forest the later one is behind the earlier one or inside it. -/
theorem Grown.apart (grown : Grown rules lines start stop forest) (inside : stop ≤ lines.length)
    {parent : Option Nat} {number : Nat} (stands : Stands skeleton.nodes parent number forest) (earlier later : Nat)
    (lower : number ≤ earlier) (before : earlier < later) (upper : later < number + forest.size) :
    skeleton.Precedes earlier later ∨ skeleton.Surrounds earlier later := by
  induction grown generalizing parent number with
  | nil done => exact absurd upper (Nat.not_lt.mpr (Nat.le_trans lower (Nat.le_of_lt before)))
  | @leaf start stop extent rest found flat behind restHypothesis =>
    obtain ⟨here, standing⟩ := stands
    rw [size] at upper
    by_cases first : earlier = number
    · subst first
      refine .inl (behind.precedes inside standing earlier later ?_ ?_ before (by omega))
      · exact Nat.le_of_eq (after_leaf skeleton earlier parent extent here)
      · intro node known
        cases Option.some.inj (here.symm.trans known)
        exact Nat.le_refl extent.stop
    · exact restHypothesis inside standing (by omega) (by omega)
  | @branch start stop extent tag enclosed rest found folds within behind insideHypothesis restHypothesis =>
    obtain ⟨here, standing, beyond⟩ := stands
    have bounds := scanRange?_bounds rules lines _ _ _ inside found
    have ends : extent.stop - 1 ≤ lines.length := by omega
    have after := after_branch skeleton number parent extent tag _ here
    rw [size] at upper
    by_cases first : earlier = number
    · subst first
      by_cases inner : later < earlier + 1 + enclosed.size
      · exact .inr (within.surrounds ends standing earlier later _ here rfl (Nat.lt_succ_self extent.first)
          (Nat.sub_one_lt (Nat.ne_of_gt (Nat.zero_lt_of_lt bounds.2.1))) (Nat.le_of_eq after.symm) before inner)
      · refine .inl (behind.precedes inside beyond earlier later (Nat.le_of_eq after) ?_ (by omega) (by omega))
        intro node known
        cases Option.some.inj (here.symm.trans known)
        exact Nat.le_refl extent.stop
    · by_cases outer : earlier < number + 1 + enclosed.size
      · by_cases inner : later < number + 1 + enclosed.size
        · exact insideHypothesis ends standing (by omega) inner
        · refine .inl (behind.precedes inside beyond earlier later ?_ ?_ (by omega) (by omega))
          · exact after_inside skeleton (some number) (number + 1) enclosed standing earlier (by omega) outer
          · intro node known
            obtain ⟨found, same, _, _, stops⟩ := within.within ends standing earlier (by omega) outer
            cases Option.some.inj (same.symm.trans known)
            exact Nat.le_trans stops (Nat.sub_le extent.stop 1)
      · exact restHypothesis inside beyond (by omega) (by omega)

end Forest

/-- Going back from a node, the first subtree met that it is in is that of its parent. -/
theorem nearest_of_stands {skeleton : Skeleton} (parent : Option Nat) (start : Nat) (forest : Forest)
    (stands : Stands skeleton.nodes parent start forest) (id : Nat) (lower : start ≤ id)
    (upper : id < start + forest.size) :
    (skeleton.parent? id = parent ∧ ∀ other, start ≤ other → other < id → skeleton.after other ≤ id) ∨
      ∃ outer, skeleton.parent? id = some outer ∧ start ≤ outer ∧ outer < id ∧ id < skeleton.after outer ∧
        ∀ other, outer < other → other < id → skeleton.after other ≤ id := by
  induction forest generalizing parent start with
  | nil => exact absurd upper (Nat.not_lt.mpr lower)
  | leaf extent rest restHypothesis =>
    obtain ⟨here, standing⟩ := stands
    rw [Forest.size] at upper
    by_cases first : id = start
    · subst first
      exact .inl ⟨by rw [Skeleton.parent?, here]; rfl, fun other begun before => absurd before (Nat.not_lt.mpr begun)⟩
    · rcases restHypothesis parent (start + 1) standing (by omega) (by omega) with ⟨same, apart⟩ | deeper
      · refine .inl ⟨same, fun other begun before => ?_⟩
        rcases Nat.eq_or_lt_of_le begun with rfl | later
        · rw [after_leaf skeleton start parent extent here]
          exact before
        · exact apart other later before
      · obtain ⟨outer, same, begun, rest⟩ := deeper
        exact .inr ⟨outer, same, Nat.le_of_succ_le begun, rest⟩
  | branch extent tag enclosed rest insideHypothesis restHypothesis =>
    obtain ⟨here, standing, beyond⟩ := stands
    have after := after_branch skeleton start parent extent tag _ here
    rw [Forest.size] at upper
    by_cases first : id = start
    · subst first
      exact .inl ⟨by rw [Skeleton.parent?, here]; rfl, fun other begun before => absurd before (Nat.not_lt.mpr begun)⟩
    · by_cases inner : id < start + 1 + enclosed.size
      · rcases insideHypothesis (some start) (start + 1) standing (by omega) inner with ⟨same, apart⟩ | deeper
        · exact .inr ⟨start, same, Nat.le_refl start, by omega, after ▸ inner, apart⟩
        · obtain ⟨outer, same, begun, rest⟩ := deeper
          exact .inr ⟨outer, same, Nat.le_of_succ_le begun, rest⟩
      · rcases restHypothesis parent (start + 1 + enclosed.size) beyond (by omega) (by omega) with
          ⟨same, apart⟩ | deeper
        · refine .inl ⟨same, fun other begun before => ?_⟩
          by_cases within : other < start + 1 + enclosed.size
          · rcases Nat.eq_or_lt_of_le begun with rfl | later
            · exact after ▸ Nat.le_of_not_lt inner
            · have ends := after_inside skeleton (some start) (start + 1) enclosed standing other later within
              exact Nat.le_trans ends (Nat.le_of_not_lt inner)
          · exact apart other (Nat.le_of_not_lt within) before
        · obtain ⟨outer, same, begun, rest⟩ := deeper
          exact .inr ⟨outer, same, by omega, rest⟩

/-- How nodes lie in a skeleton. The subtree of a node is the run of numbers from its own up to but without
`after`, its block is the run of lines from `first` up to but without `stop`. -/
structure Skeleton.Laid (skeleton : Skeleton) : Prop where
  ends : ∀ id, id < skeleton.nodes.size → id < skeleton.after id ∧ skeleton.after id ≤ skeleton.nodes.size
  block : ∀ (id : Nat) (node : Node), skeleton.nodes[id]? = some node → node.first < node.stop ∧
    node.stop ≤ skeleton.lines.size
  /-- A node that does not fold has nothing inside. -/
  flat : ∀ (id : Nat) (node : Node), skeleton.nodes[id]? = some node → node.nameBytes = none →
    skeleton.after id = id + 1
  /-- Subtrees are nested or disjoint. -/
  nested : ∀ earlier later, earlier < later → later < skeleton.nodes.size →
    skeleton.after earlier ≤ later ∨ skeleton.after later ≤ skeleton.after earlier
  parent : ∀ id outer, skeleton.parent? id = some outer →
    outer < id ∧ id < skeleton.after outer ∧ skeleton.after id ≤ skeleton.after outer ∧
      ∃ node, skeleton.nodes[outer]? = some node ∧ node.nameBytes.isSome = true
  /-- The parent is the nearest of the nodes around. -/
  nearest : ∀ id other, id < skeleton.nodes.size → other < id → id < skeleton.after other →
    ∃ outer, skeleton.parent? id = some outer ∧ other ≤ outer
  ordered : ∀ (earlier later : Nat) (before behind : Node), earlier < later → skeleton.nodes[earlier]? = some before →
    skeleton.nodes[later]? = some behind → before.first < behind.first
  siblings : ∀ (earlier later : Nat) (before behind : Node), earlier < later →
    skeleton.parent? earlier = skeleton.parent? later →
    skeleton.nodes[earlier]? = some before → skeleton.nodes[later]? = some behind → before.stop ≤ behind.first
  /-- The block of a child is between the first line and the last line of its parent. -/
  within : ∀ (id outer : Nat) (node around : Node), skeleton.parent? id = some outer → skeleton.nodes[id]? = some node →
    skeleton.nodes[outer]? = some around → around.first < node.first ∧ node.stop < around.stop

variable {rules : Line.Rules} {text : Text} {outline : Outline}

theorem Over.apart (based : Over rules text outline) (earlier later : Nat) (before : earlier < later)
    (inside : later < outline.count) :
    outline.skeleton.Precedes earlier later ∨ outline.skeleton.Surrounds earlier later := by
  rw [based.count] at inside
  exact (Forest.grown_whole rules (Text.lines text)).apart (Nat.le_refl _) based.stands earlier later
    (Nat.zero_le earlier) before (by omega)

/-- A node whose subtree reaches another one surrounds it. -/
theorem Over.surrounds (based : Over rules text outline) (outer inner : Nat) (before : outer < inner)
    (inside : inner < outline.count) (reached : inner < outline.skeleton.after outer) :
    outline.skeleton.Surrounds outer inner := by
  rcases based.apart outer inner before inside with precedes | surrounds
  · exact absurd reached (Nat.not_lt.mpr precedes.1)
  · exact surrounds

theorem Over.nearest (based : Over rules text outline) (id : Nat) (inside : id < outline.count) :
    (outline.skeleton.parent? id = none ∧ ∀ other, other < id → outline.skeleton.after other ≤ id) ∨
      ∃ outer, outline.skeleton.parent? id = some outer ∧ outer < id ∧ id < outline.skeleton.after outer ∧
        ∀ other, outer < other → other < id → outline.skeleton.after other ≤ id := by
  rw [based.count] at inside
  rcases nearest_of_stands none 0 _ based.stands id (Nat.zero_le id) (by omega) with ⟨none, apart⟩ | deeper
  · exact .inl ⟨none, fun other before => apart other (Nat.zero_le other) before⟩
  · obtain ⟨outer, same, _, rest⟩ := deeper
    exact .inr ⟨outer, same, rest⟩

theorem Over.surrounds_child (based : Over rules text outline) (id outer : Nat)
    (parent : outline.skeleton.parent? id = some outer) :
    outer < id ∧ outline.skeleton.Surrounds outer id := by
  have inside : id < outline.count := by
    by_contra beyond
    rw [Skeleton.parent?, Array.getElem?_eq_none (Nat.le_of_not_lt beyond)] at parent
    cases parent
  rcases based.nearest id inside with ⟨none, _⟩ | ⟨found, same, before, reached, _⟩
  · exact absurd (none.symm.trans parent) (by simp)
  · cases Option.some.inj (same.symm.trans parent)
    exact ⟨before, based.surrounds outer id before inside reached⟩

theorem lt_count {id : Nat} {node : Node} (known : outline.skeleton.nodes[id]? = some node) : id < outline.count :=
  (Array.getElem?_eq_some_iff.mp known).1

theorem Over.size_lines (based : Over rules text outline) : outline.skeleton.lines.size = (Text.lines text).length := by
  rw [based.skeleton]
  exact List.size_toArray

theorem Over.block_bounds (based : Over rules text outline) (id : Nat) (node : Node)
    (known : outline.skeleton.nodes[id]? = some node) :
    node.first < node.stop ∧ node.stop ≤ outline.skeleton.lines.size := by
  have inside := lt_count known
  rw [based.count] at inside
  obtain ⟨other, same, _, nonempty, ends⟩ := (Forest.grown_whole rules (Text.lines text)).within (Nat.le_refl _)
    based.stands id (Nat.zero_le id) (by omega)
  cases Option.some.inj (same.symm.trans known)
  exact ⟨nonempty, based.size_lines ▸ ends⟩

private theorem Over.le_parent (based : Over rules text outline) (id other : Nat) (inside : id < outline.count)
    (before : other < id) (reached : id < outline.skeleton.after other) :
    ∃ outer, outline.skeleton.parent? id = some outer ∧ other ≤ outer := by
  rcases based.nearest id inside with ⟨_, apart⟩ | ⟨outer, same, _, _, apart⟩
  · exact absurd reached (Nat.not_lt.mpr (apart other before))
  · refine ⟨outer, same, ?_⟩
    by_contra later
    exact absurd reached (Nat.not_lt.mpr (apart other (Nat.lt_of_not_le later) before))

private theorem Over.after_flat (based : Over rules text outline) (id : Nat) (node : Node)
    (known : outline.skeleton.nodes[id]? = some node) (plain : node.nameBytes = none) :
    outline.skeleton.after id = id + 1 := by
  rw [based.skeleton] at known ⊢
  obtain ⟨outer, extent, _, _, facts⟩ := node_grown rules text id node known
  rcases facts with ⟨_, rfl⟩ | ⟨tag, enclosed, _, rfl, _⟩
  · exact after_leaf _ id outer extent known
  · cases plain

private theorem Over.parent_folds (based : Over rules text outline) (id outer : Nat)
    (parent : outline.skeleton.parent? id = some outer) :
    ∃ node, outline.skeleton.nodes[outer]? = some node ∧ node.nameBytes.isSome = true := by
  obtain ⟨before, _, _, facts⟩ := based.surrounds_child id outer parent
  obtain ⟨node, known, _⟩ := Option.bind_eq_some_iff.mp parent
  have here := Array.getElem?_eq_getElem (Nat.lt_trans before (lt_count known))
  exact ⟨_, here, (facts _ here _ known).1⟩

theorem Over.laid (based : Over rules text outline) : outline.skeleton.Laid where
  ends id inside := by
    have count := based.count
    rw [Outline.count] at count
    have ends := after_inside outline.skeleton none 0 _ based.stands id (Nat.zero_le id) (by omega)
    exact ⟨outline.skeleton.lt_after id, by omega⟩
  block := based.block_bounds
  flat := based.after_flat
  nested earlier later before inside := by
    rcases based.apart earlier later before inside with precedes | surrounds
    · exact .inl precedes.1
    · exact .inr surrounds.2.1
  parent id outer parent := by
    obtain ⟨before, reached, ends, _⟩ := based.surrounds_child id outer parent
    exact ⟨before, reached, ends, based.parent_folds id outer parent⟩
  nearest := based.le_parent
  ordered earlier later before behind apart first second := by
    rcases based.apart earlier later apart (lt_count second) with precedes | surrounds
    · exact Nat.lt_of_lt_of_le (based.block_bounds earlier before first).1 (precedes.2 before first behind second)
    · exact (surrounds.2.2 before first behind second).2.1
  siblings earlier later before behind apart same first second := by
    rcases based.apart earlier later apart (lt_count second) with precedes | surrounds
    · exact precedes.2 before first behind second
    · obtain ⟨outer, parent, beyond⟩ := based.le_parent later earlier (lt_count second) apart surrounds.1
      exact absurd (based.surrounds_child earlier outer (same.trans parent)).1 (Nat.not_lt.mpr beyond)
  within id outer node around parent known here := by
    obtain ⟨_, _, _, facts⟩ := based.surrounds_child id outer parent
    exact (facts around here node known).2

end MarkupOutline.Outline
