import MarkupOutline.Proofs.Outline.Framed
import MarkupOutline.Proofs.Outline.Guarded

/-! Opening every shut node opens the whole outline. A flag that is set lies in the subtree of a shut node, and opening
one such node leaves the others as they are, so that any order leads back to the new outline, also in what was
hidden. -/
namespace MarkupOutline.Outline

/-- The shut nodes: those that can be seen and are collapsed. -/
def shut (outline : Outline) : List Nat :=
  (List.range outline.count).filter fun id => (outline.node? id).isSome && outline.folding id = .collapsed

/-- The actions that open a shut node: to expand it by its path, or to toggle it by its number. -/
inductive Opens (outline : Outline) (id : Nat) : Action → Prop where
  | path {path : List Nat} (placed : outline.pathTo? id = some path) : Opens outline id (.expand path)
  | number : Opens outline id (.toggleId id)

theorem mem_shut (outline : Outline) (id : Nat) :
    id ∈ outline.shut ↔ outline.isShown id = true ∧ outline.folding id = .collapsed := by
  rw [shut, List.mem_filter, List.mem_range, Bool.and_eq_true, decide_eq_true_eq, node?_isSome]
  refine and_iff_right_of_imp fun facts => ?_
  exact outline.lt_count_of_isShown id facts.1

private theorem nodup_shut (outline : Outline) : outline.shut.Nodup := List.nodup_range.filter _

theorem isCollapsed_of_shut {outline : Outline} {id : Nat} (member : id ∈ outline.shut) :
    outline.isCollapsed id = true := by
  have folded := ((mem_shut outline id).mp member).2
  rw [folding_of_flag rfl (by rw [folded]; decide)] at folded
  by_contra unfolded
  rw [if_neg unfolded] at folded
  cases folded

section Reached

variable {rules : Line.Rules} {text : Text} {outline : Outline} (based : Over rules text outline)

include based

/-- What lies inside a shut node cannot be seen, so it is not shut itself. -/
theorem Over.shut_apart {id outer : Nat} (inner : id ∈ outline.shut) (around : outer ∈ outline.shut) :
    ¬ outline.skeleton.Within id outer := by
  intro within
  have ⟨_, expanded⟩ := (based.isShown_iff id).mp ((mem_shut outline id).mp inner).1
  have folded := ((mem_shut outline outer).mp around).2
  exact Folding.noConfusion (folded.symm.trans (expanded outer within))

theorem Over.shut_outside {id other : Nat} (one : id ∈ outline.shut) (two : other ∈ outline.shut)
    (distinct : id ≠ other) : ¬ outline.skeleton.Inside id other := fun inner =>
  based.shut_apart one two (inner.resolve_left distinct)

/-- A flag that is set lies in the subtree of a shut node, the outermost one around it with a flag. -/
theorem Over.exists_shut (clear : Unflagged outline) {id : Nat} (flagged : outline.isCollapsed id = true)
    (inside : id < outline.count) : ∃ root ∈ outline.shut, outline.skeleton.Inside id root := by
  induction id using Nat.strongRecOn with
  | ind id inductionHypothesis =>
    by_cases shown : outline.isShown id = true
    · have folds : outline.folding id ≠ .leaf := fun plain => by
        rw [clear id plain] at flagged
        cases flagged
      have folded := folding_of_flag rfl folds
      rw [if_pos flagged] at folded
      exact ⟨id, (mem_shut outline id).mpr ⟨shown, folded⟩, .inl rfl⟩
    · -- The node is hidden by one around it, whose flag is set as well.
      rw [based.isShown_iff, not_and] at shown
      obtain ⟨outer, around, folds⟩ := not_forall₂.mp (shown inside)
      rw [based.folding_around inside around, Bool.not_eq_false] at folds
      have before := ((based.within_iff id outer inside).mp around).1
      obtain ⟨root, member, deeper⟩ := inductionHypothesis outer before folds (Nat.lt_trans before inside)
      refine ⟨root, member, .inr ?_⟩
      rcases deeper with rfl | further
      · exact around
      · exact around.trans further

theorem Over.eq_ofText (clear : Unflagged outline) (none : outline.shut = []) :
    outline = Outline.ofText rules text := by
  have unflagged : ∀ id, id < outline.count → outline.isCollapsed id = false := by
    intro id inside
    by_contra flagged
    obtain ⟨root, member, _⟩ := based.exists_shut clear (Bool.not_eq_false _ ▸ flagged) inside
    rw [none] at member
    cases member
  have flags : outline.collapsed = Array.replicate outline.count false := by
    apply Array.ext
    · rw [Array.size_replicate, based.flags, Outline.count]
    · intro id inside _
      have flag := unflagged id (by rwa [based.flags] at inside)
      rw [isCollapsed, Array.getElem?_eq_getElem inside, Option.getD_some] at flag
      rw [flag, Array.getElem_replicate]
  calc outline = ⟨outline.skeleton, outline.collapsed⟩ := rfl
    _ = Outline.ofText rules text := by rw [flags, Outline.count, based.skeleton]; rfl

section Opening

variable {id : Nat} (member : id ∈ outline.shut)

include member

private theorem Over.perform_opens {action : Action} (opens : outline.Opens id action) :
    outline.perform action = outline.expandNode id := by
  obtain ⟨shown, folded⟩ := (mem_shut outline id).mp member
  cases opens with
  | path placed =>
    have found := (based.pathTo?_eq_some_iff id _).mp placed
    exact outline.perform_target (.expand _) found
  | number =>
    have found : outline.target? (.toggleId id) = some id := if_pos shown
    rw [outline.perform_target _ found, Action.act, Outline.flipNode, folded]

private theorem Over.mem_shut_elsewhere {other : Nat} (inside : other < outline.count)
    (apart : ¬ outline.skeleton.Inside other id) : other ∈ (outline.expandNode id).2.shut ↔ other ∈ outline.shut := by
  have folded := ((mem_shut outline id).mp member).2
  have away : (decide (id ≤ other) && decide (other < outline.skeleton.after id)) = false := by
    rw [← Bool.not_eq_true, Bool.and_eq_true, decide_eq_true_eq, decide_eq_true_eq, ← based.inside_iff other id inside]
    exact apart
  have flag := outline.isCollapsed_expand id folded other
  rw [away, Bool.not_false, Bool.and_true] at flag
  rw [mem_shut, mem_shut, folding_congr (outline.expandNode_skeleton id) flag,
    based.isShown_elsewhere local_expandNode id other apart]

private theorem Over.mem_shut_expandNode (other : Nat) :
    other ∈ (outline.expandNode id).2.shut ↔ other ∈ outline.shut ∧ other ≠ id := by
  have folded := ((mem_shut outline id).mp member).2
  constructor
  · intro remains
    have inside := lt_count_of_isShown _ other ((mem_shut _ other).mp remains).1
    rw [Outline.count, expandNode_skeleton, ← Outline.count] at inside
    -- The flags of the subtree are cleared, so what is still shut lies outside.
    have flag := isCollapsed_of_shut remains
    rw [outline.isCollapsed_expand id folded, Bool.and_eq_true, Bool.not_eq_true', ← Bool.not_eq_true, Bool.and_eq_true,
      decide_eq_true_eq, decide_eq_true_eq, ← based.inside_iff other id inside] at flag
    exact ⟨(based.mem_shut_elsewhere member inside flag.2).mp remains, fun same => flag.2 (.inl same)⟩
  · rintro ⟨before, distinct⟩
    have inside := lt_count_of_isShown _ other ((mem_shut _ other).mp before).1
    exact (based.mem_shut_elsewhere member inside (based.shut_outside before member distinct)).mpr before

private theorem Over.opens_expandNode {other : Nat} {action : Action} (beyond : other ∈ outline.shut)
    (distinct : other ≠ id) (opens : outline.Opens other action) : (outline.expandNode id).2.Opens other action := by
  cases opens with
  | @path path placed =>
    have found := (based.pathTo?_eq_some_iff other path).mp placed
    have later : (Action.act (.expand path) outline id).2.target? (.expand path) = some other :=
      based.target_elsewhere found (based.shut_outside beyond member distinct)
    exact .path (((based.expandNode id).pathTo?_eq_some_iff other path).mpr later)
  | number => exact .number

end Opening

/-- Opening all shut nodes in any order leads to the new outline. -/
theorem Over.run_opens (clear : Unflagged outline) {ids : List Nat} {opening : List Action}
    (once : ids.Nodup) (all : ∀ id, id ∈ ids ↔ id ∈ outline.shut) (opens : List.Forall₂ outline.Opens ids opening) :
    outline.run opening = (List.replicate ids.length true, Outline.ofText rules text) := by
  induction ids generalizing outline opening with
  | nil =>
    cases opens
    have none : outline.shut = [] := List.eq_nil_iff_forall_not_mem.mpr fun id => mt (all id).mpr List.not_mem_nil
    rw [← based.eq_ofText clear none]
    rfl
  | cons id rest inductionHypothesis =>
    obtain ⟨fresh, distinct⟩ := List.nodup_cons.mp once
    have member := (all id).mp List.mem_cons_self
    cases opens with
    | @cons _ action _ later opens onward =>
      have folded := ((mem_shut outline id).mp member).2
      have others : ∀ other, other ∈ rest ↔ other ∈ (outline.expandNode id).2.shut := by
        intro other
        rw [based.mem_shut_expandNode member, ← all, List.mem_cons]
        constructor
        · intro behind
          exact ⟨.inr behind, fun same => fresh (same ▸ behind)⟩
        · rintro ⟨same | behind, apart⟩
          · exact absurd same apart
          · exact behind
      have beyond : ∀ other ∈ rest, other ∈ outline.shut ∧ other ≠ id := fun other behind =>
        ⟨(all other).mp (List.mem_cons_of_mem id behind), fun same => fresh (same ▸ behind)⟩
      have still : List.Forall₂ (outline.expandNode id).2.Opens rest later :=
        ((List.forall₂_and_left _ _).mpr ⟨beyond, onward⟩).imp fun _ _ ⟨⟨shut, apart⟩, opens⟩ =>
          based.opens_expandNode member shut apart opens
      have ends := inductionHypothesis (based.expandNode id) (clear.expandNode id) distinct others still
      rw [Outline.run] at ends
      rw [Outline.run, runWith, based.perform_opens member opens, ends, expandNode_done_iff.mpr folded]
      rfl

/-- A row of a collapsed node is seen exactly if a node is shut. -/
theorem Over.shut_eq_nil_iff : outline.shut = [] ↔ ∀ row ∈ outline.rows, row.handle ≠ some .expand := by
  rw [List.eq_nil_iff_forall_not_mem]
  constructor
  · intro none row member handle
    obtain ⟨front, back, split⟩ := List.append_of_mem member
    have folded := ((based.handle_iff front row back split).1.mp handle).1
    have shown := based.node?_of_row row member
    rw [node?_isSome] at shown
    exact none row.node ((mem_shut outline row.node).mpr ⟨shown, folded⟩)
  · intro none id member
    obtain ⟨shown, folded⟩ := (mem_shut outline id).mp member
    obtain ⟨node, _, own⟩ := based.filter_rows id (node?_isSome outline id ▸ shown)
    simp only [ownRows, folded] at own
    have row := (List.mem_filter.mp (own ▸ List.mem_singleton_self _)).1
    exact none _ row rfl

end Reached

private theorem shut_ofText (rules : Line.Rules) (text : Text) : (Outline.ofText rules text).shut = [] := by
  rw [List.eq_nil_iff_forall_not_mem]
  intro id member
  have flag := isCollapsed_of_shut member
  rw [isCollapsed_ofText] at flag
  cases flag

/-- In every state that folding leads to, no shut node lies inside another one; to open each of them once, in any
order, changes a node every time and ends in the new outline; and an outline is the new one exactly if no row offers
to expand a node. -/
theorem run_reopened (rules : Line.Rules) (text : Text) (actions : List Action) :
    let fresh := Outline.ofText rules text
    let outline := (fresh.run actions).2
    (∀ id ∈ outline.shut, ∀ outer ∈ outline.shut, ¬ outline.skeleton.Within id outer) ∧
      (∀ ids opening, ids.Perm outline.shut → List.Forall₂ outline.Opens ids opening →
        outline.run opening = (List.replicate ids.length true, fresh)) ∧
      (outline = fresh ↔ ∀ row ∈ outline.rows, row.handle ≠ some .expand) := by
  intro fresh outline
  have based : Over rules text outline := ((over_ofText rules text).run_eq actions).1
  have clear : Unflagged fresh := fun id _ => isCollapsed_ofText rules text id
  refine ⟨fun id inner outer around => based.shut_apart inner around, ?_, ?_⟩
  · intro ids opening order opens
    exact based.run_opens (clear.run actions) (order.nodup_iff.mpr outline.nodup_shut) (fun id => order.mem_iff) opens
  · rw [← based.shut_eq_nil_iff]
    constructor
    · intro same
      rw [same]
      exact shut_ofText rules text
    · exact based.eq_ofText (clear.run actions)

/-- Two elements in a third one, collapsed after the line in the first: opened from the last to the first, one by its
path and one by its number. -/
theorem run_reopened_hidden :
    let text := "<a>\n  <b>\n    <c>\n    </c>\n  </b>\n  <d>\n    y\n  </d>\n</a>".toList
    let fresh := Outline.ofText Line.Angle.rules text
    let outline := (fresh.run [.collapse [0, 0, 0], .toggle [0, 0], .toggleId 3]).2
    outline.collapsed = #[false, true, true, true, false] ∧ outline.shut = [1, 3] ∧
      ¬ outline.skeleton.Within 3 1 ∧ outline.run [.expand [0, 1], .toggleId 1] = ([true, true], fresh) := by
  intro text fresh outline
  have ⟨apart, reopens, _⟩ :=
    run_reopened Line.Angle.rules text [.collapse [0, 0, 0], .toggle [0, 0], .toggleId 3]
  have shut : outline.shut = [1, 3] := by decide +kernel
  have order : [3, 1].Perm outline.shut := by
    rw [shut]
    decide
  have placed : outline.pathTo? 3 = some [0, 1] := by decide +kernel
  refine ⟨by decide +kernel, shut, ?_, ?_⟩
  · exact apart 3 (order.subset (by decide)) 1 (order.subset (by decide))
  · exact reopens [3, 1] _ order (.cons (.path placed) (.cons .number .nil))

end MarkupOutline.Outline
