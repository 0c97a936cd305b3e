import MarkupOutline.Block.Source
import MarkupOutline.Outline.Skeleton

/-! Building the nodes of all levels in one pass. Each step either adds the next block of the
innermost open range or closes that range; the measure counts the lines and ranges left. -/
namespace MarkupOutline.Outline

open Block

/-- The lines inside a node that have not been looked at, or those of the whole text. -/
structure OpenRange where
  parent : Option Nat
  next : Nat
  stop : Nat

structure Builder where
  nodes : Array Node
  /-- Innermost first. -/
  ranges : List OpenRange

namespace Builder

def start (source : Source) : Builder := ⟨#[], [⟨none, 0, source.lines.size⟩]⟩

/-- The tag under which the block at a place folds; one line never does. -/
def foldingOpenerAt? (source : Source) (extent : Extent) : Option Line.Opener :=
  if extent.first + 1 < extent.stop then
    foldingOpener? source.rules (source.line extent.first) (source.line (extent.stop - 1))
  else none

/-- The node for the block at a place. -/
def nodeAt (range : OpenRange) (extent : Extent) (tag : Option Line.Opener) : Node where
  first := extent.first
  stop := extent.stop
  depth := extent.depth
  nameBytes := tag.map fun tag => Text.byteLength tag.name
  parent := range.parent
  descendants := 0

/-- All nodes made since its own lie inside a node that is closed. -/
def close (nodes : Array Node) : Option Nat → Array Node
  | none => nodes
  | some parent =>
    let count := nodes.size - (parent + 1)
    nodes.modify parent fun node => { node with descendants := count }

/-- Look for the next block of the innermost range: a block becomes a node, and its inside a new
range if it folds; without one the range is done. -/
def step (source : Source) : Builder → Option Builder
  | ⟨_, []⟩ => none
  | ⟨nodes, range :: outer⟩ =>
    match source.nextBlock? range.next range.stop with
    | none => some ⟨close nodes range.parent, outer⟩
    | some extent =>
      match foldingOpenerAt? source extent with
      | none =>
        some ⟨nodes.push (nodeAt range extent none),
          ⟨range.parent, extent.stop, range.stop⟩ :: outer⟩
      | some tag =>
        some ⟨nodes.push (nodeAt range extent (some tag)),
          ⟨some nodes.size, extent.first + 1, extent.stop - 1⟩ ::
            ⟨range.parent, extent.stop, range.stop⟩ :: outer⟩

/-- What is left to do in some ranges. -/
def work : List OpenRange → Nat
  | [] => 0
  | range :: outer => range.stop - range.next + 1 + work outer

theorem foldingOpenerAt?_long (source : Source) (extent : Extent) (tag : Line.Opener)
    (folds : foldingOpenerAt? source extent = some tag) : extent.first + 1 < extent.stop := by
  unfold foldingOpenerAt? at folds
  split at folds
  · assumption
  · cases folds

theorem step_work (source : Source) (builder next : Builder) (moved : step source builder = some next) :
    work next.ranges < work builder.ranges := by
  obtain ⟨nodes, ranges⟩ := builder
  cases ranges with
  | nil => simp [step] at moved
  | cons range outer =>
    rw [step] at moved
    split at moved
    · simp only [Option.some.injEq] at moved
      subst moved
      simp only [work]
      omega
    · next extent found =>
      have ⟨lower, nonempty, upper⟩ := source.nextBlock?_bounds _ _ extent found
      split at moved
      · simp only [Option.some.injEq] at moved
        subst moved
        simp only [work]
        omega
      · next tag folds =>
        have long := foldingOpenerAt?_long source extent tag folds
        simp only [Option.some.injEq] at moved
        subst moved
        simp only [work]
        omega

/-- Take steps until no range is open. -/
def run (source : Source) (builder : Builder) : Builder :=
  match _moved : step source builder with
  | none => builder
  | some next => run source next
termination_by work builder.ranges
decreasing_by exact step_work source builder next _moved

end Builder

def Skeleton.ofSource (source : Source) : Skeleton :=
  ⟨source.lines, (Builder.run source (Builder.start source)).nodes⟩

end MarkupOutline.Outline
