import MarkupOutline.Outline.Basic

/-! Folding and unfolding. An action says whether it changed anything; it never touches the skeleton,
and expanding a node forgets what was collapsed inside it. -/
namespace MarkupOutline.Outline

/-- Set the flag of one expanded node. -/
def collapseNode (outline : Outline) (id : Nat) : Bool × Outline :=
  if outline.folding id = .expanded then
    (true, { outline with collapsed := outline.collapsed.setIfInBounds id true })
  else (false, outline)

/-- Clear the flags of a collapsed node and of everything inside it. -/
def expandNode (outline : Outline) (id : Nat) : Bool × Outline :=
  if outline.folding id = .collapsed then
    let inside (index : Nat) : Bool := id ≤ index && index < outline.skeleton.after id
    (true, { outline with collapsed := outline.collapsed.mapIdx fun index flag => flag && !inside index })
  else (false, outline)

def flipNode (outline : Outline) (id : Nat) : Bool × Outline :=
  match outline.folding id with
  | .leaf => (false, outline)
  | .collapsed => outline.expandNode id
  | .expanded => outline.collapseNode id

/-- What a reader of an outline can do to it. -/
inductive Action where
  | toggle (path : List Nat)
  | expand (path : List Nat)
  | collapse (path : List Nat)
  | toggleId (id : Nat)
deriving DecidableEq

/-- Act on the node at a path, if there is one. -/
def onPath (outline : Outline) (path : List Nat) (act : Outline → Nat → Bool × Outline) : Bool × Outline :=
  match outline.resolve? path with
  | some id => act outline id
  | none => (false, outline)

def toggle (outline : Outline) (path : List Nat) : Bool × Outline := outline.onPath path flipNode

def expand (outline : Outline) (path : List Nat) : Bool × Outline := outline.onPath path expandNode

def collapse (outline : Outline) (path : List Nat) : Bool × Outline := outline.onPath path collapseNode

/-- Toggle a node by its number; a hidden one stays as it is. -/
def toggleId (outline : Outline) (id : Nat) : Bool × Outline :=
  if outline.isShown id then outline.flipNode id else (false, outline)

def perform (outline : Outline) : Action → Bool × Outline
  | .toggle path => outline.toggle path
  | .expand path => outline.expand path
  | .collapse path => outline.collapse path
  | .toggleId id => outline.toggleId id

theorem collapseNode_unchanged (outline : Outline) (id : Nat)
    (refused : (outline.collapseNode id).1 = false) : (outline.collapseNode id).2 = outline := by
  unfold collapseNode at refused ⊢
  split at refused
  · cases refused
  · next other => rw [if_neg other]

theorem expandNode_unchanged (outline : Outline) (id : Nat)
    (refused : (outline.expandNode id).1 = false) : (outline.expandNode id).2 = outline := by
  unfold expandNode at refused ⊢
  split at refused
  · cases refused
  · next other => rw [if_neg other]

theorem flipNode_unchanged (outline : Outline) (id : Nat)
    (refused : (outline.flipNode id).1 = false) : (outline.flipNode id).2 = outline := by
  unfold flipNode at refused ⊢
  cases state : outline.folding id with
  | leaf => rfl
  | collapsed => exact outline.expandNode_unchanged id (by simpa [state] using refused)
  | expanded => exact outline.collapseNode_unchanged id (by simpa [state] using refused)

private theorem onPath_unchanged (outline : Outline) (path : List Nat)
    (act : Outline → Nat → Bool × Outline)
    (kept : ∀ id, (act outline id).1 = false → (act outline id).2 = outline)
    (refused : (outline.onPath path act).1 = false) : (outline.onPath path act).2 = outline := by
  unfold onPath at refused ⊢
  cases found : outline.resolve? path with
  | none => rfl
  | some id => exact kept id (by simpa [found] using refused)

/-- An action that reports no change makes none. -/
theorem perform_unchanged (outline : Outline) (action : Action)
    (refused : (outline.perform action).1 = false) : (outline.perform action).2 = outline := by
  cases action with
  | toggle path => exact outline.onPath_unchanged path _ outline.flipNode_unchanged refused
  | expand path => exact outline.onPath_unchanged path _ outline.expandNode_unchanged refused
  | collapse path => exact outline.onPath_unchanged path _ outline.collapseNode_unchanged refused
  | toggleId id =>
    simp only [perform, toggleId] at refused ⊢
    split at refused
    · next shown =>
      rw [if_pos shown]
      exact outline.flipNode_unchanged id refused
    · next hidden => rw [if_neg hidden]

theorem collapseNode_skeleton (outline : Outline) (id : Nat) :
    (outline.collapseNode id).2.skeleton = outline.skeleton := by
  unfold collapseNode
  split <;> rfl

theorem expandNode_skeleton (outline : Outline) (id : Nat) : (outline.expandNode id).2.skeleton = outline.skeleton := by
  unfold expandNode
  split <;> rfl

theorem flipNode_skeleton (outline : Outline) (id : Nat) : (outline.flipNode id).2.skeleton = outline.skeleton := by
  unfold flipNode
  split
  · rfl
  · exact outline.expandNode_skeleton id
  · exact outline.collapseNode_skeleton id

end MarkupOutline.Outline
