import MarkupOutline.Outline.Action
import MarkupOutline.Outline.Rows
import MarkupOutline.Proofs.Outline.Forest

/-! A view is an outline that forgets: a collapsed node keeps the forest inside it but nothing of how it was
folded, and expanding it shows all of it expanded. Every operation is a recursion over the view. -/
namespace MarkupOutline.Outline

open Text Block

/-- Blocks in order, as far as a reader sees them. -/
inductive View where
  | nil
  | leaf (extent : Extent) (rest : View)
  | collapsed (extent : Extent) (tag : Line.Opener) (inside : Forest) (rest : View)
  | expanded (extent : Extent) (tag : Line.Opener) (inside rest : View)

/-- What a reader learns of one node. -/
structure Sight where
  node : Node
  path : List Nat
  folding : Folding
  children : List Nat

/-- What an outline shows of a node, unless it is hidden. -/
def sight? (outline : Outline) (id : Nat) : Option Sight :=
  (outline.node? id).map fun node =>
    ⟨node, outline.skeleton.place id, outline.folding id, outline.children id⟩

namespace View

def fresh : Forest → View
  | .nil => nil
  | .leaf extent rest => leaf extent (fresh rest)
  | .branch extent tag inside rest => expanded extent tag (fresh inside) (fresh rest)

def forest : View → Forest
  | nil => .nil
  | leaf extent rest => .leaf extent rest.forest
  | collapsed extent tag inside rest => .branch extent tag inside rest.forest
  | expanded extent tag inside rest => .branch extent tag inside.forest rest.forest

def collapse? : View → Option View
  | expanded extent tag inside rest => some (collapsed extent tag inside.forest rest)
  | _ => none

def expand? : View → Option View
  | collapsed extent tag inside rest => some (expanded extent tag (fresh inside) rest)
  | _ => none

def toggle? (view : View) : Option View := view.collapse?.or view.expand?

section Places

variable (change : View → Option View)

/-- Change the node to which an index and a path below it lead. -/
def atPlace? : View → Nat → List Nat → Option View
  | nil, _, _ => none
  | leaf extent rest, 0, [] => change (leaf extent rest)
  | leaf _ _, 0, _ :: _ => none
  | leaf extent rest, index + 1, path => (rest.atPlace? index path).map (leaf extent)
  | collapsed extent tag inside rest, 0, [] => change (collapsed extent tag inside rest)
  | collapsed _ _ _ _, 0, _ :: _ => none
  | collapsed extent tag inside rest, index + 1, path =>
    (rest.atPlace? index path).map (collapsed extent tag inside)
  | expanded extent tag inside rest, 0, [] => change (expanded extent tag inside rest)
  | expanded extent tag inside rest, 0, next :: path =>
    (inside.atPlace? next path).map (expanded extent tag · rest)
  | expanded extent tag inside rest, index + 1, path =>
    (rest.atPlace? index path).map (expanded extent tag inside)

def atPath? (view : View) : List Nat → Option View
  | [] => none
  | index :: path => view.atPlace? change index path

/-- Change the node with a number, the first node having the number `start`. -/
def atId? (start id : Nat) : View → Option View
  | nil => none
  | leaf extent rest =>
    if id = start then change (leaf extent rest) else (rest.atId? (start + 1) id).map (leaf extent)
  | collapsed extent tag inside rest =>
    if id = start then change (collapsed extent tag inside rest)
    else (rest.atId? (start + 1 + inside.size) id).map (collapsed extent tag inside)
  | expanded extent tag inside rest =>
    if id = start then change (expanded extent tag inside rest)
    else if id < start + 1 + inside.forest.size then
      (inside.atId? (start + 1) id).map (expanded extent tag · rest)
    else (rest.atId? (start + 1 + inside.forest.size) id).map (expanded extent tag inside)

end Places

def settle (view : View) : Option View → Bool × View
  | some changed => (true, changed)
  | none => (false, view)

def perform (view : View) : Action → Bool × View
  | .toggle path => view.settle (view.atPath? toggle? path)
  | .expand path => view.settle (view.atPath? expand? path)
  | .collapse path => view.settle (view.atPath? collapse? path)
  | .toggleId id => view.settle (view.atId? toggle? 0 id)

/-- The number of the node to which an index and a path below it lead. -/
def idAt? (start : Nat) : View → Nat → List Nat → Option Nat
  | nil, _, _ => none
  | leaf _ _, 0, [] | collapsed _ _ _ _, 0, [] | expanded _ _ _ _, 0, [] => some start
  | leaf _ _, 0, _ :: _ | collapsed _ _ _ _, 0, _ :: _ => none
  | expanded _ _ inside _, 0, next :: path => inside.idAt? (start + 1) next path
  | leaf _ rest, index + 1, path => rest.idAt? (start + 1) index path
  | collapsed _ _ inside rest, index + 1, path => rest.idAt? (start + 1 + inside.size) index path
  | expanded _ _ inside rest, index + 1, path => rest.idAt? (start + 1 + inside.forest.size) index path

def resolve? (view : View) : List Nat → Option Nat
  | [] => none
  | index :: path => view.idAt? 0 index path

/-- The node with a number among those at a level. The first of them comes after `index` others and has the
number `start`, and the node around the level has the path `above`. -/
def find? (parent : Option Nat) (above : List Nat) (index start id : Nat) : View → Option Sight
  | nil => none
  | leaf extent rest =>
    if id = start then some ⟨nodeOf parent extent none 0, above ++ [index], .leaf, []⟩
    else rest.find? parent above (index + 1) (start + 1) id
  | collapsed extent tag inside rest =>
    if id = start then
      some ⟨nodeOf parent extent (some tag) inside.size, above ++ [index], .collapsed, []⟩
    else rest.find? parent above (index + 1) (start + 1 + inside.size) id
  | expanded extent tag inside rest =>
    if id = start then
      some ⟨nodeOf parent extent (some tag) inside.forest.size, above ++ [index], .expanded,
        inside.forest.tops (start + 1)⟩
    else if id < start + 1 + inside.forest.size then
      inside.find? (some start) (above ++ [index]) 0 (start + 1) id
    else rest.find? parent above (index + 1) (start + 1 + inside.forest.size) id

def rows (skeleton : Skeleton) (start level : Nat) : View → List Row
  | nil => []
  | leaf extent rest =>
    ((skeleton.range extent.first extent.stop).map fun text => ⟨start, level, none, text⟩) ++
      rest.rows skeleton (start + 1) level
  | collapsed extent tag inside rest =>
    ⟨start, level, some .expand, collapsedText skeleton (nodeOf none extent (some tag) 0)⟩ ::
      rest.rows skeleton (start + 1 + inside.size) level
  | expanded extent _ inside rest =>
    ⟨start, level, some .collapse, skeleton.line extent.first⟩ ::
      (inside.rows skeleton (start + 1) (level + 1) ++
        ⟨start, level, none, skeleton.line (extent.stop - 1)⟩ ::
          rest.rows skeleton (start + 1 + inside.forest.size) level)

theorem find?_bounds (view : View) (parent : Option Nat) (above : List Nat) (index start id : Nat)
    (sight : Sight) (found : view.find? parent above index start id = some sight) :
    start ≤ id ∧ id < start + view.forest.size := by
  induction view generalizing parent above index start with
  | nil => cases found
  | leaf extent rest restHypothesis =>
    rw [forest, Forest.size]
    rw [find?] at found
    split at found
    · omega
    · have bounds := restHypothesis parent above (index + 1) (start + 1) found
      omega
  | collapsed extent tag inside rest restHypothesis =>
    rw [forest, Forest.size]
    rw [find?] at found
    split at found
    · omega
    · have bounds := restHypothesis parent above (index + 1) (start + 1 + inside.size) found
      omega
  | expanded extent tag inside rest insideHypothesis restHypothesis =>
    rw [forest, Forest.size]
    rw [find?] at found
    split at found
    · omega
    · split at found
      · have bounds := insideHypothesis (some start) (above ++ [index]) 0 (start + 1) found
        omega
      · have bounds := restHypothesis parent above (index + 1) (start + 1 + inside.forest.size) found
        omega

theorem find?_of_lt (view : View) (parent : Option Nat) (above : List Nat) (index start id : Nat)
    (before : id < start) : view.find? parent above index start id = none := by
  cases found : view.find? parent above index start id with
  | none => rfl
  | some sight =>
    have bounds := find?_bounds view parent above index start id sight found
    exact absurd before (Nat.not_lt.mpr bounds.1)

/-- The node to which a path leads can be seen, and has that path. -/
theorem idAt?_seen (view : View) (parent : Option Nat) (above : List Nat) (index start place id : Nat)
    (path : List Nat) (found : view.idAt? start place path = some id) :
    ∃ sight, view.find? parent above index start id = some sight ∧
      sight.path = above ++ (index + place) :: path := by
  induction view generalizing parent above index start place path with
  | nil => cases found
  | leaf extent rest restHypothesis =>
    cases place with
    | zero =>
      cases path with
      | nil =>
        cases found
        exact ⟨_, if_pos rfl, rfl⟩
      | cons next path => cases found
    | succ place =>
      obtain ⟨sight, seen, same⟩ := restHypothesis parent above (index + 1) (start + 1) place path found
      have bounds := find?_bounds _ _ _ _ _ _ _ seen
      rw [find?, if_neg (by omega)]
      exact ⟨sight, seen, by rw [same, Nat.succ_add_eq_add_succ]⟩
  | collapsed extent tag inside rest restHypothesis =>
    cases place with
    | zero =>
      cases path with
      | nil =>
        cases found
        exact ⟨_, if_pos rfl, rfl⟩
      | cons next path => cases found
    | succ place =>
      obtain ⟨sight, seen, same⟩ :=
        restHypothesis parent above (index + 1) (start + 1 + inside.size) place path found
      have bounds := find?_bounds _ _ _ _ _ _ _ seen
      rw [find?, if_neg (by omega)]
      exact ⟨sight, seen, by rw [same, Nat.succ_add_eq_add_succ]⟩
  | expanded extent tag inside rest insideHypothesis restHypothesis =>
    cases place with
    | zero =>
      cases path with
      | nil =>
        cases found
        exact ⟨_, if_pos rfl, rfl⟩
      | cons next path =>
        obtain ⟨sight, seen, same⟩ :=
          insideHypothesis (some start) (above ++ [index]) 0 (start + 1) next path found
        have bounds := find?_bounds _ _ _ _ _ _ _ seen
        rw [find?, if_neg (by omega), if_pos (by omega)]
        exact ⟨sight, seen, by rw [same, List.append_assoc, Nat.zero_add]; rfl⟩
    | succ place =>
      obtain ⟨sight, seen, same⟩ :=
        restHypothesis parent above (index + 1) (start + 1 + inside.forest.size) place path found
      have bounds := find?_bounds _ _ _ _ _ _ _ seen
      rw [find?, if_neg (by omega), if_neg (by omega)]
      exact ⟨sight, seen, by rw [same, Nat.succ_add_eq_add_succ]⟩

private theorem idAt?_of_seen (view : View) (parent : Option Nat) (above : List Nat) (index start id : Nat)
    (sight : Sight) (seen : view.find? parent above index start id = some sight) :
    ∃ place path, sight.path = above ++ (index + place) :: path ∧ view.idAt? start place path = some id := by
  induction view generalizing parent above index start with
  | nil => cases seen
  | leaf extent rest restHypothesis =>
    rw [find?] at seen
    split at seen
    · next here =>
      cases seen
      exact ⟨0, [], rfl, here ▸ rfl⟩
    · obtain ⟨place, path, same, found⟩ := restHypothesis parent above (index + 1) (start + 1) seen
      exact ⟨place + 1, path, by rw [same, Nat.succ_add_eq_add_succ], found⟩
  | collapsed extent tag inside rest restHypothesis =>
    rw [find?] at seen
    split at seen
    · next here =>
      cases seen
      exact ⟨0, [], rfl, here ▸ rfl⟩
    · obtain ⟨place, path, same, found⟩ :=
        restHypothesis parent above (index + 1) (start + 1 + inside.size) seen
      exact ⟨place + 1, path, by rw [same, Nat.succ_add_eq_add_succ], found⟩
  | expanded extent tag inside rest insideHypothesis restHypothesis =>
    rw [find?] at seen
    split at seen
    · next here =>
      cases seen
      exact ⟨0, [], rfl, here ▸ rfl⟩
    · split at seen
      · obtain ⟨place, path, same, found⟩ :=
          insideHypothesis (some start) (above ++ [index]) 0 (start + 1) seen
        exact ⟨0, place :: path, by rw [same, List.append_assoc, Nat.zero_add]; rfl, found⟩
      · obtain ⟨place, path, same, found⟩ :=
          restHypothesis parent above (index + 1) (start + 1 + inside.forest.size) seen
        exact ⟨place + 1, path, by rw [same, Nat.succ_add_eq_add_succ], found⟩

theorem resolve?_seen (view : View) (path : List Nat) (id : Nat) (found : view.resolve? path = some id) :
    ∃ sight, view.find? none [] 0 0 id = some sight ∧ sight.path = path := by
  cases path with
  | nil => cases found
  | cons index path =>
    obtain ⟨sight, seen, same⟩ := view.idAt?_seen none [] 0 0 index id path found
    exact ⟨sight, seen, by rw [same, Nat.zero_add]; rfl⟩

theorem resolve?_of_seen (view : View) (id : Nat) (sight : Sight)
    (seen : view.find? none [] 0 0 id = some sight) : view.resolve? sight.path = some id := by
  obtain ⟨index, path, same, found⟩ := view.idAt?_of_seen none [] 0 0 id sight seen
  rw [same, Nat.zero_add]
  exact found

private theorem idAt?_bounds (view : View) (start index id : Nat) (path : List Nat)
    (found : view.idAt? start index path = some id) : start ≤ id ∧ id < start + view.forest.size := by
  obtain ⟨sight, seen, _⟩ := view.idAt?_seen none [] 0 start index id path found
  exact find?_bounds _ _ _ _ _ _ _ seen

/-- A node that cannot be seen cannot be changed. -/
theorem atId?_unseen (change : View → Option View) (view : View) (parent : Option Nat) (above : List Nat)
    (index start id : Nat) (unseen : view.find? parent above index start id = none) :
    view.atId? change start id = none := by
  induction view generalizing parent above index start with
  | nil => rfl
  | leaf extent rest restHypothesis =>
    rw [find?] at unseen
    split at unseen
    · cases unseen
    · next other => rw [atId?, if_neg other, restHypothesis _ _ _ _ unseen, Option.map_none]
  | collapsed extent tag inside rest restHypothesis =>
    rw [find?] at unseen
    split at unseen
    · cases unseen
    · next other => rw [atId?, if_neg other, restHypothesis _ _ _ _ unseen, Option.map_none]
  | expanded extent tag inside rest insideHypothesis restHypothesis =>
    rw [find?] at unseen
    split at unseen
    · cases unseen
    · next other =>
      rw [atId?, if_neg other]
      split at unseen
      · next within => rw [if_pos within, insideHypothesis _ _ _ _ unseen, Option.map_none]
      · next beyond => rw [if_neg beyond, restHypothesis _ _ _ _ unseen, Option.map_none]

/-- Following a path comes to the same as finding the number of its node first. -/
theorem atPlace?_eq (change : View → Option View) (view : View) (start index : Nat) (path : List Nat) :
    view.atPlace? change index path =
      (view.idAt? start index path).bind fun id => view.atId? change start id := by
  induction view generalizing start index path with
  | nil => rfl
  | leaf extent rest restHypothesis =>
    cases index with
    | zero => cases path <;> simp [atPlace?, idAt?, atId?]
    | succ index =>
      rw [atPlace?, idAt?, restHypothesis (start + 1) index path]
      cases found : rest.idAt? (start + 1) index path with
      | none => rfl
      | some id =>
        have bounds := idAt?_bounds rest _ _ _ _ found
        rw [Option.bind_some, Option.bind_some, atId?, if_neg (by omega)]
  | collapsed extent tag inside rest restHypothesis =>
    cases index with
    | zero => cases path <;> simp [atPlace?, idAt?, atId?]
    | succ index =>
      rw [atPlace?, idAt?, restHypothesis (start + 1 + inside.size) index path]
      cases found : rest.idAt? (start + 1 + inside.size) index path with
      | none => rfl
      | some id =>
        have bounds := idAt?_bounds rest _ _ _ _ found
        rw [Option.bind_some, Option.bind_some, atId?, if_neg (by omega)]
  | expanded extent tag inside rest insideHypothesis restHypothesis =>
    cases index with
    | zero =>
      cases path with
      | nil => simp [atPlace?, idAt?, atId?]
      | cons next path =>
        rw [atPlace?, idAt?, insideHypothesis (start + 1) next path]
        cases found : inside.idAt? (start + 1) next path with
        | none => rfl
        | some id =>
          have bounds := idAt?_bounds inside _ _ _ _ found
          rw [Option.bind_some, Option.bind_some, atId?, if_neg (by omega), if_pos (by omega)]
    | succ index =>
      rw [atPlace?, idAt?, restHypothesis (start + 1 + inside.forest.size) index path]
      cases found : rest.idAt? (start + 1 + inside.forest.size) index path with
      | none => rfl
      | some id =>
        have bounds := idAt?_bounds rest _ _ _ _ found
        rw [Option.bind_some, Option.bind_some, atId?, if_neg (by omega), if_neg (by omega)]

theorem atPath?_eq (change : View → Option View) (view : View) (path : List Nat) :
    view.atPath? change path = (view.resolve? path).bind fun id => view.atId? change 0 id := by
  cases path with
  | nil => rfl
  | cons index path => exact atPlace?_eq change view 0 index path

end View

/-- All that a reader can find out, by paths, by numbers and on the display. -/
structure Observed where
  resolve : List Nat → Option Nat
  node : Nat → Option Node
  path : Nat → Option (List Nat)
  folding : Nat → Option Folding
  children : Nat → Option (List Nat)
  rows : List Row

/-- What an outline shows. How a node is folded and its children are told of visible nodes only. -/
def observe (outline : Outline) : Observed where
  resolve := outline.resolve?
  node := outline.node?
  path := outline.pathTo?
  folding id := (outline.node? id).map fun _ => outline.folding id
  children id := (outline.node? id).map fun _ => outline.children id
  rows := outline.rows

namespace View

/-- What a view shows of the lines of a skeleton. -/
def observe (skeleton : Skeleton) (view : View) : Observed where
  resolve := view.resolve?
  node id := (view.find? none [] 0 0 id).map Sight.node
  path id := (view.find? none [] 0 0 id).map Sight.path
  folding id := (view.find? none [] 0 0 id).map Sight.folding
  children id := (view.find? none [] 0 0 id).map Sight.children
  rows := view.rows skeleton 0 0

end View

section Runs

variable {State : Type} (perform : State → Action → Bool × State)

def runWith (state : State) : List Action → List Bool × State
  | [] => ([], state)
  | action :: rest =>
    let later := runWith (perform state action).2 rest
    ((perform state action).1 :: later.1, later.2)

end Runs

def run (outline : Outline) (actions : List Action) : List Bool × Outline := runWith perform outline actions

def View.run (view : View) (actions : List Action) : List Bool × View := runWith View.perform view actions

end MarkupOutline.Outline
