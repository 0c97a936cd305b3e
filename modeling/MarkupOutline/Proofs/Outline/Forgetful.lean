import MarkupOutline.Proofs.Outline.Seen

/-! An outline does what a view does, which forgets what is inside a collapsed node. The flags inside such a
node may be anything: they are not seen while the node is collapsed, and expanding the node clears them. -/
namespace MarkupOutline.Outline

open Text Block

variable {rules : Line.Rules} {text : Text} {outline : Outline}

/-- A step of an outline that does to one node what a change does to the first node of a view. -/
structure Performs (outline : Outline) (id : Nat) (change : View → Option View)
    (result : Bool × Outline) : Prop where
  here : ∀ parent forest, Stands outline.skeleton.nodes parent id forest → forest ≠ .nil →
    change (forest.view outline.isCollapsed id) =
      if result.1 then some (forest.view result.2.isCollapsed id) else none
  outside : ∀ other, other < id ∨ outline.skeleton.after id ≤ other →
    result.2.isCollapsed other = outline.isCollapsed other
  refused : result.1 = false → result.2 = outline

theorem isCollapsed_collapse (outline : Outline) (id : Nat) (inside : id < outline.collapsed.size)
    (expanded : outline.folding id = .expanded) (other : Nat) :
    (outline.collapseNode id).2.isCollapsed other = (outline.isCollapsed other || other == id) := by
  rw [collapseNode, if_pos expanded, isCollapsed, isCollapsed, Array.getElem?_setIfInBounds]
  by_cases same : id = other
  · subst same
    simp [inside]
  · simp [same, Ne.symm same]

theorem isCollapsed_expand (outline : Outline) (id : Nat) (folded : outline.folding id = .collapsed)
    (other : Nat) : (outline.expandNode id).2.isCollapsed other =
      (outline.isCollapsed other && !(id ≤ other && other < outline.skeleton.after id)) := by
  rw [expandNode, if_pos folded, isCollapsed, isCollapsed, Array.getElem?_mapIdx]
  cases outline.collapsed[other]? <;> rfl

theorem collapseNode_performs (outline : Outline) (id : Nat) (bound : id < outline.collapsed.size) :
    Performs outline id View.collapse? (outline.collapseNode id) := by
  by_cases expanded : outline.folding id = .expanded
  · have flags := outline.isCollapsed_collapse id bound expanded
    have done : (outline.collapseNode id).1 = true := by rw [collapseNode, if_pos expanded]
    refine ⟨?_, ?_, ?_⟩
    · intro parent forest stands filled
      rw [done, if_pos rfl]
      cases forest with
      | nil => exact absurd rfl filled
      | leaf extent rest =>
        rw [outline.folding_leaf id parent extent stands.1] at expanded
        cases expanded
      | branch extent tag inside rest =>
        have before := (outline.folding_expanded_iff id _ parent extent tag stands.1).mp expanded
        have behind := rest.view_congr (outline.collapseNode id).2.isCollapsed outline.isCollapsed
          (id + 1 + inside.size) fun other lower upper => by
            rw [flags, beq_eq_false_iff_ne.mpr (by omega), Bool.or_false]
        rw [Forest.view, Forest.view, before, flags, behind]
        simp [View.collapse?, Forest.forest_view]
    · intro other apart
      have progress := outline.skeleton.lt_after id
      rw [flags, beq_eq_false_iff_ne.mpr (by omega), Bool.or_false]
    · intro refused
      rw [done] at refused
      cases refused
  · have still : outline.collapseNode id = (false, outline) := by rw [collapseNode, if_neg expanded]
    rw [still]
    refine ⟨?_, fun _ _ => rfl, fun _ => rfl⟩
    intro parent forest stands filled
    cases forest with
    | nil | leaf => rfl
    | branch extent tag inside rest =>
      rw [outline.folding_expanded_iff id _ parent extent tag stands.1, Bool.not_eq_false] at expanded
      rw [Forest.view, expanded]
      rfl

theorem expandNode_performs (outline : Outline) (id : Nat) :
    Performs outline id View.expand? (outline.expandNode id) := by
  by_cases folded : outline.folding id = .collapsed
  · have flags := outline.isCollapsed_expand id folded
    have done : (outline.expandNode id).1 = true := by rw [expandNode, if_pos folded]
    refine ⟨?_, ?_, ?_⟩
    · intro parent forest stands filled
      rw [done, if_pos rfl]
      cases forest with
      | nil => exact absurd rfl filled
      | leaf extent rest =>
        rw [outline.folding_leaf id parent extent stands.1] at folded
        cases folded
      | branch extent tag inside rest =>
        have after := after_branch _ id parent extent tag _ stands.1
        have before := (outline.folding_collapsed_iff id _ parent extent tag stands.1).mp folded
        have clear : ∀ other, id ≤ other → other < id + 1 + inside.size →
            (outline.expandNode id).2.isCollapsed other = false := by
          intro other lower upper
          rw [flags, after, decide_eq_true lower, decide_eq_true upper]
          simp
        have within := inside.view_fresh (outline.expandNode id).2.isCollapsed (id + 1)
          fun other lower upper => clear other (by omega) (by omega)
        have behind := rest.view_congr (outline.expandNode id).2.isCollapsed outline.isCollapsed
          (id + 1 + inside.size) fun other lower upper => by
            rw [flags, after, decide_eq_false (Nat.not_lt.mpr lower), Bool.and_false, Bool.not_false,
              Bool.and_true]
        rw [Forest.view, Forest.view, before, clear id (Nat.le_refl id) (by omega), within, behind]
        rfl
    · intro other apart
      have away : (decide (id ≤ other) && decide (other < outline.skeleton.after id)) = false := by
        rcases apart with lower | upper
        · rw [decide_eq_false (Nat.not_le.mpr lower), Bool.false_and]
        · rw [decide_eq_false (Nat.not_lt.mpr upper), Bool.and_false]
      rw [flags, away, Bool.not_false, Bool.and_true]
    · intro refused
      rw [done] at refused
      cases refused
  · have still : outline.expandNode id = (false, outline) := by rw [expandNode, if_neg folded]
    rw [still]
    refine ⟨?_, fun _ _ => rfl, fun _ => rfl⟩
    intro parent forest stands filled
    cases forest with
    | nil | leaf => rfl
    | branch extent tag inside rest =>
      rw [outline.folding_collapsed_iff id _ parent extent tag stands.1, Bool.not_eq_true] at folded
      rw [Forest.view, folded]
      rfl

theorem flipNode_performs (outline : Outline) (id : Nat) (bound : id < outline.collapsed.size) :
    Performs outline id View.toggle? (outline.flipNode id) := by
  have collapses := outline.collapseNode_performs id bound
  have expands := outline.expandNode_performs id
  rw [flipNode]
  cases state : outline.folding id with
  | leaf =>
    have stuck : (outline.collapseNode id).1 = false ∧ (outline.expandNode id).1 = false := by
      simp [collapseNode, expandNode, state]
    refine ⟨?_, fun _ _ => rfl, fun _ => rfl⟩
    intro parent forest stands filled
    rw [View.toggle?, collapses.here parent forest stands filled, expands.here parent forest stands filled,
      stuck.1, stuck.2]
    rfl
  | collapsed =>
    have stuck : (outline.collapseNode id).1 = false := by simp [collapseNode, state]
    refine ⟨?_, expands.outside, expands.refused⟩
    intro parent forest stands filled
    rw [View.toggle?, collapses.here parent forest stands filled, stuck, expands.here parent forest stands filled]
    rfl
  | expanded =>
    have stuck : (outline.expandNode id).1 = false := by simp [expandNode, state]
    refine ⟨?_, collapses.outside, collapses.refused⟩
    intro parent forest stands filled
    rw [View.toggle?, expands.here parent forest stands filled, stuck, collapses.here parent forest stands filled]
    exact Option.or_none

theorem after_inside (skeleton : Skeleton) (parent : Option Nat) (start : Nat) (forest : Forest)
    (stands : Stands skeleton.nodes parent start forest) (id : Nat) (lower : start ≤ id)
    (upper : id < start + forest.size) : skeleton.after id ≤ start + forest.size := by
  induction forest generalizing parent start with
  | nil =>
    rw [Forest.size] at upper
    omega
  | leaf extent rest restHypothesis =>
    rw [Forest.size] at upper ⊢
    by_cases here : id = start
    · subst here
      rw [after_leaf skeleton id parent extent stands.1]
      omega
    · have within := restHypothesis parent (start + 1) stands.2 (by omega) (by omega)
      omega
  | branch extent tag inside rest insideHypothesis restHypothesis =>
    rw [Forest.size] at upper ⊢
    by_cases here : id = start
    · subst here
      rw [after_branch skeleton id parent extent tag _ stands.1]
      omega
    · by_cases enclosed : id < start + 1 + inside.size
      · have within := insideHypothesis (some start) (start + 1) stands.2.1 (by omega) enclosed
        omega
      · have within := restHypothesis parent (start + 1 + inside.size) stands.2.2 (by omega) (by omega)
        omega

/-- A step on a visible node changes the view at this node and nowhere else. -/
theorem Performs.atId?_eq {id : Nat} {change : View → Option View} {result : Bool × Outline}
    (performs : Performs outline id change result) (parent : Option Nat) (start : Nat) (forest : Forest)
    (stands : Stands outline.skeleton.nodes parent start forest) (outer : Option Nat) (above : List Nat)
    (index : Nat) (sight : Sight)
    (seen : (forest.view outline.isCollapsed start).find? outer above index start id = some sight) :
    (forest.view outline.isCollapsed start).atId? change start id =
      if result.1 then some (forest.view result.2.isCollapsed start) else none := by
  induction forest generalizing parent start outer above index with
  | nil => cases seen
  | leaf extent rest restHypothesis =>
    by_cases here : id = start
    · subst here
      rw [← performs.here parent _ stands (by simp)]
      exact if_pos rfl
    · rw [Forest.view, View.find?, if_neg here] at seen
      rw [Forest.view, Forest.view, View.atId?, if_neg here,
        restHypothesis parent (start + 1) stands.2 _ _ _ seen]
      split <;> rfl
  | branch extent tag inside rest insideHypothesis restHypothesis =>
    by_cases here : id = start
    · subst here
      rw [← performs.here parent _ stands (by simp), Forest.view]
      split <;> exact if_pos rfl
    · have bounds := View.find?_bounds _ _ _ _ _ _ _ seen
      have own := performs.outside start (.inl (by omega))
      rw [Forest.view] at seen
      rw [Forest.view, Forest.view, own]
      split
      · next folded =>
        rw [if_pos folded, View.find?, if_neg here] at seen
        rw [View.atId?, if_neg here, restHypothesis parent (start + 1 + inside.size) stands.2.2 _ _ _ seen]
        split <;> rfl
      · next unfolded =>
        rw [if_neg unfolded, View.find?, if_neg here, Forest.forest_view] at seen
        rw [View.atId?, if_neg here, Forest.forest_view]
        by_cases enclosed : id < start + 1 + inside.size
        · rw [if_pos enclosed] at seen
          have ends := after_inside outline.skeleton (some start) (start + 1) inside stands.2.1 id (by omega) enclosed
          have behind := rest.view_congr result.2.isCollapsed outline.isCollapsed (start + 1 + inside.size)
            fun other lower upper => performs.outside other (.inr (by omega))
          rw [if_pos enclosed, insideHypothesis (some start) (start + 1) stands.2.1 _ _ _ seen, behind]
          split <;> rfl
        · rw [if_neg enclosed] at seen
          have before := inside.view_congr result.2.isCollapsed outline.isCollapsed (start + 1)
            fun other lower upper => performs.outside other (.inl (by omega))
          rw [if_neg enclosed, restHypothesis parent (start + 1 + inside.size) stands.2.2 _ _ _ seen, before]
          split <;> rfl

theorem Over.collapseNode (based : Over rules text outline) (id : Nat) :
    Over rules text (outline.collapseNode id).2 := by
  rw [Outline.collapseNode]
  split
  · exact ⟨based.skeleton, by rw [Array.size_setIfInBounds, based.flags]⟩
  · exact based

theorem Over.expandNode (based : Over rules text outline) (id : Nat) :
    Over rules text (outline.expandNode id).2 := by
  rw [Outline.expandNode]
  split
  · exact ⟨based.skeleton, by rw [Array.size_mapIdx, based.flags]⟩
  · exact based

theorem Over.flipNode (based : Over rules text outline) (id : Nat) :
    Over rules text (outline.flipNode id).2 := by
  rw [Outline.flipNode]
  split
  · exact based
  · exact based.expandNode id
  · exact based.collapseNode id

theorem Over.settle_eq (based : Over rules text outline) {id : Nat} {change : View → Option View}
    {result : Bool × Outline} (performs : Performs outline id change result) {sight : Sight}
    (seen : (outline.view rules text).find? none [] 0 0 id = some sight) :
    (outline.view rules text).settle ((outline.view rules text).atId? change 0 id) =
      (result.1, result.2.view rules text) := by
  have changed := performs.atId?_eq none 0 _ based.stands none [] 0 sight seen
  rw [view, changed]
  cases done : result.1 with
  | true => rfl
  | false =>
    rw [performs.refused done]
    rfl

theorem Over.flag_of_seen (based : Over rules text outline) {id : Nat} {sight : Sight}
    (seen : (outline.view rules text).find? none [] 0 0 id = some sight) : id < outline.collapsed.size := by
  have bounds := View.find?_bounds _ _ _ _ _ _ _ seen
  have count := based.count
  rw [view, Forest.forest_view] at bounds
  rw [based.flags]
  rw [Outline.count] at count
  omega

private theorem Over.onPath_eq (based : Over rules text outline) (path : List Nat) (change : View → Option View)
    (act : Outline → Nat → Bool × Outline)
    (performs : ∀ id, id < outline.collapsed.size → Performs outline id change (act outline id)) :
    (outline.view rules text).settle ((outline.view rules text).atPath? change path) =
      ((outline.onPath path act).1, (outline.onPath path act).2.view rules text) := by
  rw [View.atPath?_eq, onPath, based.resolve?_eq]
  cases found : (outline.view rules text).resolve? path with
  | none => rfl
  | some id =>
    obtain ⟨sight, seen, _⟩ := View.resolve?_seen _ path id found
    exact based.settle_eq (performs id (based.flag_of_seen seen)) seen

private theorem Over.onPath (based : Over rules text outline) (path : List Nat)
    (act : Outline → Nat → Bool × Outline) (kept : ∀ id, Over rules text (act outline id).2) :
    Over rules text (outline.onPath path act).2 := by
  rw [Outline.onPath]
  split
  · exact kept _
  · exact based

private theorem Over.toggleId_eq (based : Over rules text outline) (id : Nat) :
    (outline.view rules text).settle ((outline.view rules text).atId? View.toggle? 0 id) =
      ((outline.toggleId id).1, (outline.toggleId id).2.view rules text) := by
  have sights := based.sight?_eq id
  rw [toggleId]
  split
  · next shown =>
    have inside := outline.lt_count_of_isShown id shown
    rw [Outline.count] at inside
    rw [sight?, node?, if_pos shown, Array.getElem?_eq_getElem inside, Option.map_some] at sights
    exact based.settle_eq (outline.flipNode_performs id (based.flag_of_seen sights.symm)) sights.symm
  · next hidden =>
    rw [sight?, node?, if_neg hidden, Option.map_none] at sights
    rw [View.atId?_unseen _ _ none [] 0 0 id sights.symm]
    rfl

/-- Every action gives the same answer for an outline and its view, and leads to an outline of the view
that it leads to. -/
theorem Over.perform_eq (based : Over rules text outline) (action : Action) :
    Over rules text (outline.perform action).2 ∧
      (outline.view rules text).perform action =
        ((outline.perform action).1, (outline.perform action).2.view rules text) := by
  cases action with
  | toggle path =>
    exact ⟨based.onPath path _ based.flipNode, based.onPath_eq path _ _ outline.flipNode_performs⟩
  | expand path =>
    exact ⟨based.onPath path _ based.expandNode,
      based.onPath_eq path _ _ fun id _ => outline.expandNode_performs id⟩
  | collapse path =>
    exact ⟨based.onPath path _ based.collapseNode, based.onPath_eq path _ _ outline.collapseNode_performs⟩
  | toggleId id =>
    refine ⟨?_, based.toggleId_eq id⟩
    rw [perform, toggleId]
    split
    · exact based.flipNode id
    · exact based

theorem Over.run_eq (based : Over rules text outline) (actions : List Action) :
    Over rules text (outline.run actions).2 ∧
      (outline.view rules text).run actions =
        ((outline.run actions).1, (outline.run actions).2.view rules text) := by
  induction actions generalizing outline with
  | nil => exact ⟨based, rfl⟩
  | cons action rest inductionHypothesis =>
    obtain ⟨kept, step⟩ := based.perform_eq action
    obtain ⟨later, same⟩ := inductionHypothesis kept
    refine ⟨later, ?_⟩
    rw [View.run] at same
    rw [View.run, runWith, step, same]
    rfl

theorem over_ofText (rules : Line.Rules) (text : Text) : Over rules text (Outline.ofText rules text) :=
  ⟨rfl, Array.size_replicate⟩

private theorem view_ofText (rules : Line.Rules) (text : Text) :
    (Outline.ofText rules text).view rules text = View.fresh (Forest.ofLines rules 0 (Text.lines text)) := by
  apply Forest.view_fresh
  intro id _ _
  exact isCollapsed_ofText rules text id

/-- Outlines of a text whose visible nodes have the same flags have the same view. -/
theorem Over.view_eq {first second : Outline} (based : Over rules text first)
    (agree : ∀ id, first.isShown id = true → first.isCollapsed id = second.isCollapsed id) :
    first.view rules text = second.view rules text := by
  apply Forest.view_eq_of_seen _ _ _ none [] 0 0
  intro id sight seen
  apply agree
  have sights := based.sight?_eq id
  rw [view, seen, sight?, node?] at sights
  by_contra hidden
  rw [if_neg hidden] at sights
  cases sights

/-- A new outline of a text answers and shows under all actions what the view does that forgets, and outlines
whose visible nodes have the same flags answer and show the same under all actions. -/
theorem run_forgetful (rules : Line.Rules) (text : Text) :
    (∀ actions,
      let outline := Outline.ofText rules text
      let view := View.fresh (Forest.ofLines rules 0 (Text.lines text))
      (outline.run actions).1 = (view.run actions).1 ∧
        (outline.run actions).2.observe = (view.run actions).2.observe outline.skeleton) ∧
      ∀ first second : Outline, Over rules text first → Over rules text second →
        (∀ id, first.isShown id = true → first.isCollapsed id = second.isCollapsed id) →
          ∀ actions, (first.run actions).1 = (second.run actions).1 ∧
            (first.run actions).2.observe = (second.run actions).2.observe := by
  constructor
  · intro actions outline view
    obtain ⟨reached, same⟩ := (over_ofText rules text).run_eq actions
    rw [view_ofText] at same
    have skeleton : (outline.run actions).2.skeleton = outline.skeleton := reached.skeleton
    rw [reached.observe_eq, skeleton, same]
    exact ⟨rfl, rfl⟩
  · intro first second basedFirst basedSecond agree actions
    obtain ⟨reachedFirst, sameFirst⟩ := basedFirst.run_eq actions
    obtain ⟨reachedSecond, sameSecond⟩ := basedSecond.run_eq actions
    rw [basedFirst.view_eq agree, sameSecond, Prod.mk.injEq] at sameFirst
    refine ⟨sameFirst.1.symm, ?_⟩
    rw [reachedFirst.observe_eq, reachedSecond.observe_eq, sameFirst.2, reachedFirst.skeleton,
      reachedSecond.skeleton]

/-- Two outlines of nested elements that differ inside a collapsed one, and the actions that open it again. -/
theorem run_forgetful_nested :
    let text := "<a>\n  <b>\n    x\n  </b>\n</a>".toList
    let skeleton := Skeleton.ofSource (.ofText Line.Angle.rules text)
    let first : Outline := ⟨skeleton, #[true, true, false]⟩
    let second : Outline := ⟨skeleton, #[true, false, false]⟩
    let actions : List Action := [.toggle [0, 0], .toggleId 0, .collapse [0, 0], .toggleId 2]
    first.collapsed ≠ second.collapsed ∧ Over Line.Angle.rules text first ∧ Over Line.Angle.rules text second ∧
      (∀ id, first.isShown id = true → first.isCollapsed id = second.isCollapsed id) ∧
      (first.run actions).1 = [false, true, true, false] ∧ (second.run actions).1 = [false, true, true, false] ∧
      (first.run actions).2.observe = (second.run actions).2.observe := by
  intro text skeleton first second actions
  have size : skeleton.nodes.size = 3 := by decide +kernel
  have basedFirst : Over Line.Angle.rules text first := ⟨rfl, size.symm⟩
  have basedSecond : Over Line.Angle.rules text second := ⟨rfl, size.symm⟩
  have hidden : first.isShown 1 = false ∧ first.isShown 2 = false := by decide +kernel
  have agree : ∀ id, first.isShown id = true → first.isCollapsed id = second.isCollapsed id := by
    intro id shown
    have inside : id < 3 := by
      rw [isShown, Bool.and_eq_true, decide_eq_true_eq] at shown
      exact size ▸ shown.1
    obtain rfl | rfl | rfl : id = 0 ∨ id = 1 ∨ id = 2 := by omega
    · rfl
    · rw [hidden.1] at shown
      cases shown
    · rw [hidden.2] at shown
      cases shown
  have answers : (first.run actions).1 = [false, true, true, false] := by decide +kernel
  have same := (run_forgetful Line.Angle.rules text).2 first second basedFirst basedSecond agree actions
  exact ⟨by decide, basedFirst, basedSecond, agree, answers, same.1 ▸ answers, same.2⟩

end MarkupOutline.Outline
