import MarkupOutline.Outline.Basic

/-! The visible part of an outline as rows, one for each line of a display. The rows are made from a
list of tasks, and each task is replaced by smaller ones. -/
namespace MarkupOutline.Outline

open Text

/-- What a reader can do at the first row of a node that folds. -/
inductive Handle where
  | expand
  | collapse
deriving DecidableEq

def Handle.symbol : Handle → Char
  | expand => '▸'
  | collapse => '▾'

/-- One line of a display, with the node that it belongs to. -/
structure Row where
  node : Nat
  /-- How many nodes lie around that node. -/
  level : Nat
  handle : Option Handle
  text : Text
deriving DecidableEq

/-- What is left to show: the siblings from a node on, or the closing line of an expanded node. -/
inductive Task where
  | siblings (start stop level : Nat)
  | closing (row : Row)

/-- A collapsed node is shown as its two tags, with nothing for a name that cannot be cut out. -/
def collapsedText (skeleton : Skeleton) (node : Node) : Text :=
  let name := (skeleton.name? node).getD []
  ['<'] ++ name ++ ['>', '.', '.', '.', '<', '/'] ++ name ++ ['>']

namespace Task

/-- Show one node or line: the rows for it and the tasks that follow. -/
def perform (outline : Outline) : Task → List Row × List Task
  | closing row => ([row], [])
  | siblings start stop level =>
    if start < stop then
      match outline.skeleton.nodes[start]? with
      | none => ([], [])
      | some node =>
        let behind := min (outline.skeleton.after start) stop
        let resumed := siblings behind stop level
        match outline.folding start with
        | .leaf =>
          ((outline.skeleton.linesOf node).map fun text => ⟨start, level, none, text⟩, [resumed])
        | .collapsed =>
          ([⟨start, level, some .expand, collapsedText outline.skeleton node⟩], [resumed])
        | .expanded =>
          ([⟨start, level, some .collapse, outline.skeleton.firstLine node⟩],
            [siblings (start + 1) behind (level + 1),
              closing ⟨start, level, none, outline.skeleton.lastLine node⟩, resumed])
    else ([], [])

/-- A bound on the tasks that can still come out of one. -/
def weight : Task → Nat
  | siblings start stop _ => 3 * (stop - start) + 1
  | closing _ => 1

/-- The bounds of some tasks together. -/
def load : List Task → Nat
  | [] => 0
  | task :: rest => task.weight + load rest

theorem load_append (first second : List Task) : load (first ++ second) = load first + load second := by
  induction first with
  | nil => simp [load]
  | cons task rest inductionHypothesis => simp only [List.cons_append, load, inductionHypothesis, Nat.add_assoc]

theorem perform_load (outline : Outline) (task : Task) : load (task.perform outline).2 < task.weight := by
  cases task with
  | closing row => simp [perform, load, weight]
  | siblings start stop level =>
    have progress := outline.skeleton.lt_after start
    rw [perform]
    split
    · next inside =>
      cases outline.skeleton.nodes[start]? with
      | none => simp [load, weight]
      | some node => cases outline.folding start <;> simp only [load, weight] <;> omega
    · simp [load, weight]

/-- The rows of all tasks in turn. -/
def performAll (outline : Outline) : List Task → List Row
  | [] => []
  | task :: rest =>
    (task.perform outline).1 ++ performAll outline ((task.perform outline).2 ++ rest)
termination_by tasks => load tasks
decreasing_by
  have smaller := task.perform_load outline
  rw [load_append, load]
  omega

end Task

/-- The rows of an outline from top to bottom. -/
def rows (outline : Outline) : List Row :=
  Task.performAll outline [.siblings 0 outline.count 0]

/-- A row as a line of plain text: two spaces for each level, the marker, and the text without its
own indentation. -/
def Row.display (row : Row) : Text :=
  List.replicate (2 * row.level) ' ' ++
    ((row.handle.map Handle.symbol).getD ' ' :: ' ' :: trimStart row.text)

def display (outline : Outline) : Text := unlines (outline.rows.map Row.display)

end MarkupOutline.Outline
