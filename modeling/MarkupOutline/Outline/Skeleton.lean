import MarkupOutline.Text.Lines
import MarkupOutline.Text.Search
import MarkupOutline.Block.Basic

/-! The fixed part of an outline: the lines of the text, and its nodes in document order. A node is
followed by all its descendants, so a subtree is a run of numbers. -/
namespace MarkupOutline.Outline

open Text

/-- A block of lines as a node of the outline. -/
structure Node where
  first : Nat
  stop : Nat
  depth : Nat
  /-- How many bytes the name of the element has. Only a node with a name folds. -/
  nameBytes : Option Nat
  parent : Option Nat
  /-- How many of the nodes right after this one lie inside it. -/
  descendants : Nat
deriving DecidableEq

structure Skeleton where
  lines : Array Text
  nodes : Array Node
deriving DecidableEq

namespace Skeleton

def line (skeleton : Skeleton) (number : Nat) : Text := skeleton.lines[number]?.getD []

/-- The lines from `first` up to but without `stop`. -/
def range (skeleton : Skeleton) (first stop : Nat) : List Text := (skeleton.lines.extract first stop).toList

def linesOf (skeleton : Skeleton) (node : Node) : List Text := skeleton.range node.first node.stop

def block (skeleton : Skeleton) (node : Node) : Block := ⟨unlines (skeleton.linesOf node), node.depth⟩

def firstLine (skeleton : Skeleton) (node : Node) : Text := skeleton.line node.first

def lastLine (skeleton : Skeleton) (node : Node) : Text := skeleton.line (node.stop - 1)

/-- The lines between the first one and the last one of a node. -/
def interior (skeleton : Skeleton) (node : Node) : Text :=
  unlines (skeleton.range (node.first + 1) (node.stop - 1))

/-- The name of the element: as many bytes as it has, behind the first byte of the trimmed line. -/
def name? (skeleton : Skeleton) (node : Node) : Option Text :=
  node.nameBytes.bind fun count => byteSlice? 1 count (trimStart (skeleton.firstLine node))

/-- The number of the first node behind a subtree. -/
def after (skeleton : Skeleton) (id : Nat) : Nat :=
  id + 1 + (skeleton.nodes[id]?.map Node.descendants).getD 0

theorem lt_after (skeleton : Skeleton) (id : Nat) : id < skeleton.after id := by
  unfold after
  omega

/-- Step from sibling to sibling up to `stop`. -/
def siblings (skeleton : Skeleton) (start stop : Nat) : List Nat :=
  if start < stop then start :: skeleton.siblings (skeleton.after start) stop else []
termination_by stop - start
decreasing_by
  have progress := skeleton.lt_after start
  omega

def roots (skeleton : Skeleton) : List Nat := skeleton.siblings 0 skeleton.nodes.size

def childrenOf (skeleton : Skeleton) (id : Nat) : List Nat := skeleton.siblings (id + 1) (skeleton.after id)

def parent? (skeleton : Skeleton) (id : Nat) : Option Nat := skeleton.nodes[id]?.bind Node.parent

/-- The nodes around a node, innermost first. A parent comes before its children. -/
def ancestors (skeleton : Skeleton) (id : Nat) : List Nat :=
  match skeleton.parent? id with
  | some parent => if parent < id then parent :: skeleton.ancestors parent else []
  | none => []
termination_by id

/-- How many siblings come before a node. -/
def rank (skeleton : Skeleton) (id : Nat) : Nat :=
  (skeleton.siblings (((skeleton.parent? id).map (· + 1)).getD 0) id).length

/-- The ranks of a node and its ancestors, outermost first. -/
def place (skeleton : Skeleton) (id : Nat) : List Nat :=
  ((id :: skeleton.ancestors id).map skeleton.rank).reverse

end Skeleton

end MarkupOutline.Outline
