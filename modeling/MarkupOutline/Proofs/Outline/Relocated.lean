import MarkupOutline.Proofs.Outline.Forest

/-! The same forest in another place. A range of lines has one forest, which does not depend on the number of its
first line, and moving the blocks of a forest moves its nodes. -/
namespace MarkupOutline.Outline

open Text Block

namespace Forest

variable {rules : Line.Rules} {lines : List Text} {start stop : Nat} {forest : Forest}

def relocated (move : Extent → Extent) : Forest → Forest
  | nil => nil
  | leaf extent rest => leaf (move extent) (rest.relocated move)
  | branch extent tag inside rest => branch (move extent) tag (inside.relocated move) (rest.relocated move)

theorem size_relocated (move : Extent → Extent) (forest : Forest) : (forest.relocated move).size = forest.size := by
  induction forest with
  | nil => rfl
  | leaf extent rest restHypothesis => rw [relocated, size, size, restHypothesis]
  | branch extent tag inside rest insideHypothesis restHypothesis =>
    rw [relocated, size, size, insideHypothesis, restHypothesis]

/-- The forest of some lines does not depend on the number of the first of them. -/
theorem ofLines_add (rules : Line.Rules) (distance start : Nat) (lines : List Text) :
    ofLines rules (distance + start) lines = (ofLines rules start lines).relocated (Extent.shift distance) := by
  induction count : lines.length using Nat.strongRecOn generalizing start lines with
  | ind bound inductionHypothesis =>
    cases found : scanBlock? rules lines with
    | none =>
      rw [ofLines_none rules _ lines found, ofLines_none rules _ lines found]
      rfl
    | some extent =>
      have bounds := scanBlock?_bounds rules lines extent found
      have behind := inductionHypothesis _ (by rw [List.length_drop]; omega) (start + extent.stop)
        (lines.drop extent.stop) rfl
      have within := inductionHypothesis _ (by rw [length_window _ _ _ (by omega)]; omega) (start + (extent.first + 1))
        (window lines (extent.first + 1) (extent.stop - 1)) rfl
      have shifted : extent.shift (distance + start) = (extent.shift start).shift distance := by
        simp only [Extent.shift, Nat.add_assoc]
      rw [ofLines_some rules _ lines extent found, ofLines_some rules _ lines extent found]
      dsimp only
      rw [Nat.add_assoc, Nat.add_assoc, behind, within, shifted]
      split <;> rfl

/-- A range of lines has one forest. -/
theorem Grown.unique {other : Forest} (grown : Grown rules lines start stop forest)
    (again : Grown rules lines start stop other) : forest = other := by
  induction grown generalizing other with
  | nil done =>
    cases again with
    | nil => rfl
    | leaf found | branch found => cases done.symm.trans found
  | leaf found flat behind restHypothesis =>
    cases again with
    | nil done => cases done.symm.trans found
    | leaf same plain later =>
      cases same.symm.trans found
      rw [restHypothesis later]
    | branch same folds =>
      cases same.symm.trans found
      cases folds.symm.trans flat
  | branch found folds within behind insideHypothesis restHypothesis =>
    cases again with
    | nil done => cases done.symm.trans found
    | leaf same flat =>
      cases same.symm.trans found
      cases folds.symm.trans flat
    | branch same names inner later =>
      cases same.symm.trans found
      cases names.symm.trans folds
      rw [insideHypothesis inner, restHypothesis later]

end Forest

def Node.extent (node : Node) : Extent := ⟨node.first, node.stop, node.depth⟩

def Node.relocated (move : Extent → Extent) (ids : Nat) (node : Node) : Node where
  first := (move node.extent).first
  stop := (move node.extent).stop
  depth := (move node.extent).depth
  nameBytes := node.nameBytes
  parent := node.parent.map (ids + ·)
  descendants := node.descendants

theorem Forest.nodes_relocated (forest : Forest) (move : Extent → Extent) (ids : Nat) (parent : Option Nat)
    (start : Nat) :
    (forest.relocated move).nodes (parent.map (ids + ·)) (ids + start) =
      (forest.nodes parent start).map (Node.relocated move ids) := by
  induction forest generalizing parent start with
  | nil => rfl
  | leaf extent rest restHypothesis =>
    rw [relocated, nodes, nodes, List.map_cons, Nat.add_assoc, restHypothesis]
    rfl
  | branch extent tag inside rest insideHypothesis restHypothesis =>
    have within := insideHypothesis (some start) (start + 1)
    rw [Option.map_some] at within
    rw [relocated, nodes, nodes, List.map_cons, List.map_append, size_relocated, Nat.add_assoc, Nat.add_assoc,
      Nat.add_assoc, ← Nat.add_assoc start, restHypothesis, ← within]
    rfl

theorem getElem?_of_stands {nodes : Array Node} {parent : Option Nat} {start : Nat} {forest : Forest}
    (stands : Stands nodes parent start forest) (index : Nat) (inside : index < forest.size) :
    nodes[start + index]? = (forest.nodes parent start)[index]? := by
  induction forest generalizing parent start index with
  | nil => exact absurd inside (Nat.not_lt_zero index)
  | leaf extent rest restHypothesis =>
    rw [Forest.size] at inside
    cases index with
    | zero => exact stands.1
    | succ index =>
      rw [Forest.nodes, List.getElem?_cons_succ, ← restHypothesis stands.2 index (by omega), Nat.add_assoc,
        Nat.add_comm 1]
  | branch extent tag enclosed rest insideHypothesis restHypothesis =>
    obtain ⟨here, within, behind⟩ := stands
    have size : (enclosed.nodes (some start) (start + 1)).length = enclosed.size := Forest.length_nodes _ _ _
    rw [Forest.size] at inside
    cases index with
    | zero => exact here
    | succ index =>
      rw [Forest.nodes, List.getElem?_cons_succ]
      by_cases inner : index < enclosed.size
      · rw [List.getElem?_append_left (by omega), ← insideHypothesis within index inner, Nat.add_assoc, Nat.add_comm 1]
      · rw [List.getElem?_append_right (by omega), size, ← restHypothesis behind (index - enclosed.size) (by omega)]
        congr 1
        omega

end MarkupOutline.Outline
