import MarkupOutline.Text.Quoted
import MarkupOutline.Outline.Basic

/-! One line that tells all of a node, for a reader who looks for a fault: its number, its block,
how it is folded, and the same of its children. -/
namespace MarkupOutline.Outline

open Text

def Folding.name : Folding → Text
  | leaf => "Leaf".toList
  | collapsed => "Collapsed".toList
  | expanded => "Expanded".toList

def describeBlock (block : Block) : Text :=
  "Segment \x7b content: ".toList ++ quoted block.content ++ ", depth: ".toList ++
    decimal block.depth ++ " \x7d".toList

def describeNode (outline : Outline) (id : Nat) (node : Node) : Text :=
  "FoldNode \x7b id: ".toList ++ decimal id ++ ", segment: ".toList ++
    describeBlock (outline.skeleton.block node) ++ ", state: ".toList ++ (outline.folding id).name ++
    " \x7d".toList

/-- The numbers among some that belong to nodes, with their nodes. -/
def withNodes (outline : Outline) (ids : List Nat) : List (Nat × Node) :=
  ids.filterMap fun id => outline.skeleton.nodes[id]?.map fun node => (id, node)

/-- The node at a path, and the children that it shows. -/
def describe? (outline : Outline) (path : List Nat) : Option Text := do
  let id ← outline.resolve? path
  let node ← outline.skeleton.nodes[id]?
  let children := (outline.withNodes (outline.children id)).map fun (child, inner) =>
    outline.describeNode child inner
  return outline.describeNode id node ++ " [".toList ++ ", ".toList.intercalate children ++ "]".toList

end MarkupOutline.Outline
