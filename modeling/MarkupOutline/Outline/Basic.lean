import MarkupOutline.Outline.Builder

/-! An outline is a skeleton with one flag for each node. A node is hidden while any node around it
is collapsed, and paths lead through expanded nodes only. -/
namespace MarkupOutline

structure Outline where
  skeleton : Outline.Skeleton
  collapsed : Array Bool
deriving DecidableEq

namespace Outline

/-- What a node shows: all its lines, its two tags, or its tags around its children. -/
inductive Folding where
  | leaf
  | collapsed
  | expanded
deriving DecidableEq

/-- The outline of a text, with everything expanded. -/
def ofText (rules : Line.Rules) (text : Text) : Outline :=
  let skeleton := Skeleton.ofSource (.ofText rules text)
  ⟨skeleton, Array.replicate skeleton.nodes.size false⟩

def text (outline : Outline) : Text := Text.unlines outline.skeleton.lines.toList

def count (outline : Outline) : Nat := outline.skeleton.nodes.size

def isEmpty (outline : Outline) : Bool := outline.skeleton.nodes.isEmpty

def isCollapsed (outline : Outline) (id : Nat) : Bool := outline.collapsed[id]?.getD false

def folding (outline : Outline) (id : Nat) : Folding :=
  if (outline.skeleton.nodes[id]?.bind Node.nameBytes).isNone then .leaf
  else if outline.isCollapsed id then .collapsed
  else .expanded

/-- Whether all nodes around a node are expanded. -/
def isShown (outline : Outline) (id : Nat) : Bool :=
  id < outline.count && (outline.skeleton.ancestors id).all fun ancestor => !outline.isCollapsed ancestor

/-- A node by its number, unless it is hidden. -/
def node? (outline : Outline) (id : Nat) : Option Node :=
  if outline.isShown id then outline.skeleton.nodes[id]? else none

/-- The children that an expanded node shows. -/
def children (outline : Outline) (id : Nat) : List Nat :=
  if outline.folding id = .expanded then outline.skeleton.childrenOf id else []

/-- Follow ranks down from a node. -/
def descend? (outline : Outline) (id : Nat) : List Nat → Option Nat
  | [] => some id
  | index :: rest => (outline.children id)[index]?.bind fun child => outline.descend? child rest

/-- The node that a path leads to. -/
def resolve? (outline : Outline) : List Nat → Option Nat
  | [] => none
  | index :: rest => outline.skeleton.roots[index]?.bind fun root => outline.descend? root rest

/-- The path that leads to a node, unless it is hidden. -/
def pathTo? (outline : Outline) (id : Nat) : Option (List Nat) :=
  if outline.isShown id then some (outline.skeleton.place id) else none

end Outline

end MarkupOutline
