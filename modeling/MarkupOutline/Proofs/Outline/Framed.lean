import MarkupOutline.Proofs.Outline.Handles

/-! Actions keep to a subtree. What an action does depends on the flags of one subtree and changes no others, so
actions on disjoint subtrees can be taken in any order. -/
namespace MarkupOutline.Outline

/-- The node that an action is for, unless it is hidden. -/
def target? (outline : Outline) : Action → Option Nat
  | .toggle path | .expand path | .collapse path => outline.resolve? path
  | .toggleId id => if outline.isShown id then some id else none

def Action.act : Action → Outline → Nat → Bool × Outline
  | .toggle _ | .toggleId _ => flipNode
  | .expand _ => expandNode
  | .collapse _ => collapseNode

theorem perform_target (outline : Outline) (action : Action) {id : Nat} (found : outline.target? action = some id) :
    outline.perform action = action.act outline id := by
  cases action with
  | toggle path | expand path | collapse path =>
    change outline.resolve? path = some id at found
    simp only [perform, toggle, expand, collapse, onPath, found, Action.act]
  | toggleId number =>
    rw [target?] at found
    split at found
    · next shown =>
      cases found
      rw [perform, toggleId, if_pos shown, Action.act]
    · cases found

theorem perform_untargeted (outline : Outline) (action : Action) (none : outline.target? action = none) :
    outline.perform action = (false, outline) := by
  cases action with
  | toggle path | expand path | collapse path =>
    change outline.resolve? path = _ at none
    simp only [perform, toggle, expand, collapse, onPath, none]
  | toggleId number =>
    rw [target?] at none
    split at none
    · cases none
    · next hidden => rw [perform, toggleId, if_neg hidden]

/-- Whether two outlines have the same flags in a subtree. -/
def AgreesIn (one other : Outline) (id : Nat) : Prop :=
  ∀ number, id ≤ number → number < one.skeleton.after id → one.collapsed[number]? = other.collapsed[number]?

/-- What is done to one node changes flags in its subtree only, and nothing else decides on the change. -/
structure Local (act : Outline → Nat → Bool × Outline) : Prop where
  skeleton : ∀ outline id, (act outline id).2.skeleton = outline.skeleton
  outside : ∀ (outline : Outline) (id number : Nat), number < id ∨ outline.skeleton.after id ≤ number →
    (act outline id).2.collapsed[number]? = outline.collapsed[number]?
  answer : ∀ (one other : Outline) (id : Nat), one.skeleton = other.skeleton → one.AgreesIn other id →
    (act one id).1 = (act other id).1
  inside : ∀ (one other : Outline) (id : Nat), one.skeleton = other.skeleton → one.AgreesIn other id →
    (act one id).2.AgreesIn (act other id).2 id

theorem folding_congr {one other : Outline} {id : Nat} (same : one.skeleton = other.skeleton)
    (flag : one.isCollapsed id = other.isCollapsed id) : one.folding id = other.folding id := by
  rw [folding, same, flag, folding]

theorem folding_agrees {one other : Outline} {id : Nat} (same : one.skeleton = other.skeleton)
    (agrees : one.AgreesIn other id) : one.folding id = other.folding id := by
  apply folding_congr same
  rw [isCollapsed, agrees id (Nat.le_refl id) (one.skeleton.lt_after id), isCollapsed]

theorem local_collapseNode : Local collapseNode where
  skeleton := collapseNode_skeleton
  outside outline id number apart := by
    rw [collapseNode]
    split
    · have progress := outline.skeleton.lt_after id
      exact Array.getElem?_setIfInBounds_ne (by omega)
    · rfl
  answer one other id same agrees := by
    rw [collapseNode, collapseNode, folding_agrees same agrees]
    split <;> rfl
  inside one other id same agrees := by
    rw [collapseNode, collapseNode, folding_agrees same agrees]
    split
    · intro number lower upper
      have here := agrees number lower upper
      by_cases own : id = number
      · subst own
        have flagged : one.collapsed.size ≤ id ↔ other.collapsed.size ≤ id := by
          rw [← Array.getElem?_eq_none_iff, here, Array.getElem?_eq_none_iff]
        simp only [Array.getElem?_setIfInBounds_self, ← Nat.not_le, flagged]
      · rw [Array.getElem?_setIfInBounds_ne own, Array.getElem?_setIfInBounds_ne own, here]
    · exact agrees

theorem local_expandNode : Local expandNode where
  skeleton := expandNode_skeleton
  outside outline id number apart := by
    rw [expandNode]
    split
    · have away : (decide (id ≤ number) && decide (number < outline.skeleton.after id)) = false := by
        rw [Bool.and_eq_false_iff, decide_eq_false_iff_not, decide_eq_false_iff_not]
        omega
      rw [Array.getElem?_mapIdx]
      dsimp only
      rw [away]
      simp
    · rfl
  answer one other id same agrees := by
    rw [expandNode, expandNode, folding_agrees same agrees]
    split <;> rfl
  inside one other id same agrees := by
    rw [expandNode, expandNode, folding_agrees same agrees]
    split
    · intro number lower upper
      rw [Array.getElem?_mapIdx, Array.getElem?_mapIdx, agrees number lower upper, same]
    · exact agrees

private theorem local_flipNode : Local flipNode where
  skeleton := flipNode_skeleton
  outside outline id number apart := by
    rw [flipNode]
    split
    · rfl
    · exact local_expandNode.outside outline id number apart
    · exact local_collapseNode.outside outline id number apart
  answer one other id same agrees := by
    rw [flipNode, flipNode, folding_agrees same agrees]
    split
    · rfl
    · exact local_expandNode.answer one other id same agrees
    · exact local_collapseNode.answer one other id same agrees
  inside one other id same agrees := by
    rw [flipNode, flipNode, folding_agrees same agrees]
    split
    · exact agrees
    · exact local_expandNode.inside one other id same agrees
    · exact local_collapseNode.inside one other id same agrees

theorem local_act (action : Action) : Local action.act := by
  cases action with
  | toggle | toggleId => exact local_flipNode
  | expand => exact local_expandNode
  | collapse => exact local_collapseNode

section Order

variable {first second : Outline → Nat → Bool × Outline} (former : Local first) (latter : Local second)
  {outline : Outline} {one other : Nat}

include former

theorem Local.agrees (apart : outline.skeleton.after one ≤ other ∨ outline.skeleton.after other ≤ one) :
    (first outline one).2.AgreesIn outline other := by
  intro number lower upper
  rw [former.skeleton] at upper
  have progress := outline.skeleton.lt_after one
  exact former.outside outline one number (by omega)

include latter

private theorem Local.elsewhere (apart : outline.skeleton.after one ≤ other ∨ outline.skeleton.after other ≤ one)
    (number : Nat) (beyond : number < one ∨ outline.skeleton.after one ≤ number) :
    (second (first outline one).2 other).2.collapsed[number]? = (second outline other).2.collapsed[number]? := by
  have skeleton := former.skeleton outline one
  by_cases inside : other ≤ number ∧ number < outline.skeleton.after other
  · refine latter.inside _ outline other skeleton (former.agrees apart) number inside.1 ?_
    rw [latter.skeleton, skeleton]
    exact inside.2
  · rw [latter.outside _ other number (by rw [skeleton]; omega), former.outside outline one number beyond,
      latter.outside outline other number (by omega)]

/-- What is done to nodes whose subtrees are apart comes to the same in any order. -/
theorem Local.commute (apart : outline.skeleton.after one ≤ other ∨ outline.skeleton.after other ≤ one) :
    (second (first outline one).2 other).1 = (second outline other).1 ∧
      (first (second outline other).2 one).1 = (first outline one).1 ∧
        (second (first outline one).2 other).2 = (first (second outline other).2 one).2 := by
  have ahead := former.skeleton outline one
  have behind := latter.skeleton outline other
  have skeleton : (second (first outline one).2 other).2.skeleton =
      (first (second outline other).2 one).2.skeleton := by
    rw [latter.skeleton, ahead, former.skeleton, behind]
  have flags : (second (first outline one).2 other).2.collapsed = (first (second outline other).2 one).2.collapsed := by
    apply Array.ext_getElem?
    intro number
    by_cases inside : one ≤ number ∧ number < outline.skeleton.after one
    · have beyond : number < other ∨ outline.skeleton.after other ≤ number := by
        have progress := outline.skeleton.lt_after one
        omega
      rw [latter.elsewhere former apart.symm number beyond, latter.outside _ other number (by rwa [ahead])]
    · have beyond : number < one ∨ outline.skeleton.after one ≤ number := by omega
      rw [former.elsewhere latter apart number beyond, former.outside _ one number (by rwa [behind])]
  refine ⟨latter.answer _ outline other ahead (former.agrees apart),
    former.answer _ outline one behind (latter.agrees apart.symm), ?_⟩
  calc (second (first outline one).2 other).2
      = ⟨(second (first outline one).2 other).2.skeleton, (second (first outline one).2 other).2.collapsed⟩ := rfl
    _ = (first (second outline other).2 one).2 := by rw [skeleton, flags]

end Order

/-- What a change of one node leads to: the node is seen and folded the other way, and nothing changes outside its
subtree. -/
structure Switches (outline next : Outline) (id : Nat) : Prop where
  shown : (outline.node? id).isSome = true
  folding : outline.folding id = .expanded ∧ next.folding id = .collapsed ∨
    outline.folding id = .collapsed ∧ next.folding id = .expanded
  skeleton : next.skeleton = outline.skeleton
  outside : ∀ other, other < id ∨ outline.skeleton.after id ≤ other → next.collapsed[other]? = outline.collapsed[other]?

theorem folding_of_flag {outline next : Outline} {id : Nat} (same : next.skeleton = outline.skeleton)
    (folds : outline.folding id ≠ .leaf) : next.folding id = if next.isCollapsed id then .collapsed else .expanded := by
  have named : ¬ (outline.skeleton.nodes[id]?.bind Node.nameBytes).isNone = true := by
    intro plain
    exact folds (by rw [folding, if_pos plain])
  rw [folding, same, if_neg named]

section Node

variable {outline : Outline} {id : Nat}

theorem collapseNode_done_iff : (outline.collapseNode id).1 = true ↔ outline.folding id = .expanded := by
  rw [collapseNode]
  split
  · next expanded => exact iff_of_true rfl expanded
  · next other => exact iff_of_false Bool.false_ne_true other

theorem expandNode_done_iff : (outline.expandNode id).1 = true ↔ outline.folding id = .collapsed := by
  rw [expandNode]
  split
  · next folded => exact iff_of_true rfl folded
  · next other => exact iff_of_false Bool.false_ne_true other

private theorem flipNode_done_iff : (outline.flipNode id).1 = true ↔ outline.folding id ≠ .leaf := by
  rw [flipNode]
  split
  · next plain => exact iff_of_false Bool.false_ne_true (not_not_intro plain)
  · next folded => exact iff_of_true (expandNode_done_iff.mpr folded) (by rw [folded]; decide)
  · next expanded => exact iff_of_true (collapseNode_done_iff.mpr expanded) (by rw [expanded]; decide)

private theorem collapseNode_folding (flagged : id < outline.collapsed.size)
    (expanded : outline.folding id = .expanded) : (outline.collapseNode id).2.folding id = .collapsed := by
  rw [folding_of_flag (outline.collapseNode_skeleton id) (by rw [expanded]; decide),
    outline.isCollapsed_collapse id flagged expanded, beq_self_eq_true, Bool.or_true, if_pos rfl]

private theorem expandNode_folding (folded : outline.folding id = .collapsed) :
    (outline.expandNode id).2.folding id = .expanded := by
  have inside := outline.skeleton.lt_after id
  rw [folding_of_flag (outline.expandNode_skeleton id) (by rw [folded]; decide),
    outline.isCollapsed_expand id folded, decide_eq_true (Nat.le_refl id), decide_eq_true inside, Bool.and_self,
    Bool.not_true, Bool.and_false]
  rfl

def Action.Starts : Action → Folding → Prop
  | .toggle _, state | .toggleId _, state => state ≠ .leaf
  | .expand _, state => state = .collapsed
  | .collapse _, state => state = .expanded

theorem act_done_iff (action : Action) : (action.act outline id).1 = true ↔ action.Starts (outline.folding id) := by
  cases action with
  | toggle | toggleId => exact flipNode_done_iff
  | expand => exact expandNode_done_iff
  | collapse => exact collapseNode_done_iff

private theorem act_folding (action : Action) (flagged : id < outline.collapsed.size)
    (starts : action.Starts (outline.folding id)) :
    outline.folding id = .expanded ∧ (action.act outline id).2.folding id = .collapsed ∨
      outline.folding id = .collapsed ∧ (action.act outline id).2.folding id = .expanded := by
  cases action with
  | toggle | toggleId =>
    simp only [Action.act, flipNode]
    split
    · next plain => exact absurd plain starts
    · next folded => exact .inr ⟨folded, expandNode_folding folded⟩
    · next expanded => exact .inl ⟨expanded, collapseNode_folding flagged expanded⟩
  | expand => exact .inr ⟨starts, expandNode_folding starts⟩
  | collapse => exact .inl ⟨starts, collapseNode_folding flagged starts⟩

end Node

/-- An action reports a change exactly if its node is seen and folded the right way. -/
theorem perform_done_iff (outline : Outline) (action : Action) : (outline.perform action).1 = true ↔
    ∃ id, outline.target? action = some id ∧ action.Starts (outline.folding id) := by
  cases found : outline.target? action with
  | none =>
    rw [outline.perform_untargeted action found]
    simp
  | some id =>
    rw [outline.perform_target action found, act_done_iff]
    simp

section Reached

variable {rules : Line.Rules} {text : Text} {outline : Outline} (based : Over rules text outline)

include based

theorem Over.target_shown (action : Action) {id : Nat} (found : outline.target? action = some id) :
    outline.isShown id = true := by
  cases action with
  | toggle path | expand path | collapse path =>
    have placed := (based.pathTo?_eq_some_iff id path).mpr found
    rw [pathTo?] at placed
    split at placed
    · assumption
    · cases placed
  | toggleId number =>
    rw [target?] at found
    split at found
    · next shown =>
      cases found
      exact shown
    · cases found

private theorem Over.act (action : Action) (id : Nat) : Over rules text (action.act outline id).2 := by
  cases action with
  | toggle | toggleId => exact based.flipNode id
  | expand => exact based.expandNode id
  | collapse => exact based.collapseNode id

/-- An action that reports a change switches its node. -/
theorem Over.perform_switches (action : Action) {id : Nat} (found : outline.target? action = some id)
    (done : (outline.perform action).1 = true) : Switches outline (outline.perform action).2 id := by
  have shown := based.target_shown action found
  have flagged : id < outline.collapsed.size := based.flags ▸ outline.lt_count_of_isShown id shown
  rw [outline.perform_target action found] at done ⊢
  exact {
    shown := (node?_isSome outline id).trans shown
    folding := act_folding action flagged ((act_done_iff action).mp done)
    skeleton := (local_act action).skeleton outline id
    outside := (local_act action).outside outline id }

private theorem Over.around_apart {id outer root : Nat} (inside : id < outline.count)
    (around : outline.skeleton.Within id outer)
    (apart : ¬ outline.skeleton.Inside id root) : outer < root ∨ outline.skeleton.after root ≤ outer := by
  by_contra within
  have below := ((based.within_iff id outer inside).mp around).1
  have enclosed := (based.inside_iff outer root (Nat.lt_trans below inside)).mpr (by omega)
  rcases enclosed with rfl | deeper
  · exact apart (.inr around)
  · exact apart (.inr (around.trans deeper))

private theorem Over.subtrees_apart {one other : Nat} (first : one < outline.count) (second : other < outline.count)
    (below : ¬ outline.skeleton.Inside one other) (above : ¬ outline.skeleton.Inside other one) :
    outline.skeleton.after one ≤ other ∨ outline.skeleton.after other ≤ one := by
  rw [based.inside_iff one other first] at below
  rw [based.inside_iff other one second] at above
  omega

/-- What is done to a node hides and shows no nodes outside its subtree. -/
theorem Over.isShown_elsewhere {act : Outline → Nat → Bool × Outline} (keeps : Local act) (root id : Nat)
    (apart : ¬ outline.skeleton.Inside id root) : (act outline root).2.isShown id = outline.isShown id := by
  have skeleton := keeps.skeleton outline root
  by_cases inside : id < outline.count
  · rw [isShown, isShown, Outline.count, skeleton, Outline.count, Bool.eq_iff_iff, Bool.and_eq_true, Bool.and_eq_true,
      List.all_eq_true, List.all_eq_true]
    refine and_congr_right fun _ => forall₂_congr fun outer around => ?_
    have beyond := based.around_apart inside ((based.mem_ancestors_iff id outer inside).mp around) apart
    rw [isCollapsed, keeps.outside outline root outer beyond, isCollapsed]
  · rw [isShown, isShown, Outline.count, skeleton, ← Outline.count, decide_eq_false inside, Bool.false_and,
      Bool.false_and]

/-- An action is for the same node after something is done elsewhere. -/
theorem Over.target_elsewhere {action acted : Action} {root id : Nat} (found : outline.target? action = some id)
    (apart : ¬ outline.skeleton.Inside id root) : (acted.act outline root).2.target? action = some id := by
  have shown := based.target_shown action found
  have still := (based.isShown_elsewhere (local_act acted) root id apart).trans shown
  cases action with
  | toggle path | expand path | collapse path =>
    have placed := (based.pathTo?_eq_some_iff id path).mpr found
    refine ((based.act acted root).pathTo?_eq_some_iff id path).mp ?_
    rw [pathTo?, if_pos shown] at placed
    rw [pathTo?, if_pos still, (local_act acted).skeleton, placed]
  | toggleId number =>
    have same : number = id := by
      rw [target?] at found
      split at found
      · exact Option.some.inj found
      · cases found
    subst same
    exact if_pos still

end Reached

/-- In every state that folding leads to, an action reports a change exactly if its node is seen and folded the right
way; then it switches the node and keeps to its subtree, and else it changes nothing. Toggling by path and by number
is the same, and actions for two nodes of which none lies inside the other can be taken in any order. -/
theorem run_framed (rules : Line.Rules) (text : Text) (actions : List Action) :
    let outline := ((Outline.ofText rules text).run actions).2
    (∀ action, (outline.perform action).1 = false → (outline.perform action).2 = outline) ∧
      (∀ action, (outline.perform action).1 = true ↔
        ∃ id, outline.target? action = some id ∧ action.Starts (outline.folding id)) ∧
      (∀ action id, outline.target? action = some id → (outline.perform action).1 = true →
        Switches outline (outline.perform action).2 id) ∧
      (∀ path id, outline.resolve? path = some id → outline.toggle path = outline.toggleId id) ∧
      ∀ first second one other, outline.target? first = some one → outline.target? second = some other →
        ¬ outline.skeleton.Inside one other → ¬ outline.skeleton.Inside other one →
          let ahead := outline.perform first
          let behind := outline.perform second
          (ahead.2.perform second).1 = behind.1 ∧ (behind.2.perform first).1 = ahead.1 ∧
            (ahead.2.perform second).2 = (behind.2.perform first).2 := by
  intro outline
  have based : Over rules text outline := ((over_ofText rules text).run_eq actions).1
  refine ⟨outline.perform_unchanged, outline.perform_done_iff, fun action id => based.perform_switches action, ?_, ?_⟩
  · intro path id found
    have shown := based.target_shown (.toggle path) found
    rw [toggle, onPath, found, toggleId, if_pos shown]
  · intro first second one other former latter below above ahead behind
    have apart := based.subtrees_apart (outline.lt_count_of_isShown one (based.target_shown first former))
      (outline.lt_count_of_isShown other (based.target_shown second latter)) below above
    have commute := (local_act first).commute (local_act second) apart
    simp only [ahead, behind, outline.perform_target first former, outline.perform_target second latter]
    rw [perform_target _ second (based.target_elsewhere latter above),
      perform_target _ first (based.target_elsewhere former below)]
    exact commute

/-- Two elements side by side, of which the first is collapsed: one is expanded and the other toggled. -/
theorem run_framed_siblings :
    let text := "<a>\n  <b>\n    x\n  </b>\n  <c>\n    y\n  </c>\n</a>".toList
    let outline := ((Outline.ofText Line.Angle.rules text).run [.collapse [0, 0]]).2
    (outline.perform (.collapse [0, 0])).1 = false ∧ (outline.perform (.collapse [0, 0])).2 = outline ∧
      outline.folding 1 = .collapsed ∧ Switches outline (outline.perform (.expand [0, 0])).2 1 ∧
        outline.toggle [0, 1] = outline.toggleId 3 ∧
          ((outline.perform (.expand [0, 0])).2.perform (.toggleId 3)).2 =
            ((outline.perform (.toggleId 3)).2.perform (.expand [0, 0])).2 := by
  intro text outline
  have based : Over Line.Angle.rules text outline := ((over_ofText Line.Angle.rules text).run_eq _).1
  have ⟨unchanged, changes, switches, toggles, commute⟩ := run_framed Line.Angle.rules text [.collapse [0, 0]]
  have refused : (outline.perform (.collapse [0, 0])).1 = false := by decide +kernel
  have first : outline.target? (.expand [0, 0]) = some 1 := by decide +kernel
  have second : outline.target? (.toggleId 3) = some 3 := by decide +kernel
  have folded : outline.folding 1 = .collapsed := by decide +kernel
  have below : ¬ outline.skeleton.Inside 1 3 := by
    rw [based.inside_iff 1 3 (by decide +kernel)]
    decide
  have above : ¬ outline.skeleton.Inside 3 1 := by
    rw [based.inside_iff 3 1 (by decide +kernel)]
    decide +kernel
  exact ⟨refused, unchanged _ refused, folded, switches _ 1 first ((changes _).mpr ⟨1, first, folded⟩),
    toggles [0, 1] 3 (by decide +kernel), (commute _ _ 1 3 first second below above).2.2⟩

end MarkupOutline.Outline
