import MarkupOutline.Outline.Basic
import MarkupOutline.Proofs.Block.Plain

/-! The nodes of an outline are a forest spelled in document order. The forest is grown by recursion: the
lines inside a block that folds are cut into blocks as a text of their own. -/
namespace MarkupOutline.Outline

open Text Block

/-- Blocks in order. A block that folds has a forest inside it. -/
inductive Forest where
  | nil
  | leaf (extent : Extent) (rest : Forest)
  | branch (extent : Extent) (tag : Line.Opener) (inside rest : Forest)

def nodeOf (parent : Option Nat) (extent : Extent) (tag : Option Line.Opener) (descendants : Nat) : Node where
  first := extent.first
  stop := extent.stop
  depth := extent.depth
  nameBytes := tag.map fun tag => byteLength tag.name
  parent := parent
  descendants := descendants

/-- The tag under which the lines of a block fold; one line never does. -/
def foldingTag? (rules : Line.Rules) (lines : List Text) : Option Line.Opener :=
  if 1 < lines.length then foldingOpener? rules (lines.head?.getD []) (lines.getLast?.getD []) else none

namespace Forest

def size : Forest → Nat
  | nil => 0
  | leaf _ rest => 1 + rest.size
  | branch _ _ inside rest => 1 + inside.size + rest.size

/-- How many blocks of a forest fold. -/
def folds : Forest → Nat
  | nil => 0
  | leaf _ rest => rest.folds
  | branch _ _ inside rest => 1 + inside.folds + rest.folds

/-- The nodes of a forest in document order, numbered from `start` on. -/
def nodes (parent : Option Nat) (start : Nat) : Forest → List Node
  | nil => []
  | leaf extent rest => nodeOf parent extent none 0 :: rest.nodes parent (start + 1)
  | branch extent tag inside rest =>
    nodeOf parent extent (some tag) inside.size ::
      (inside.nodes (some start) (start + 1) ++ rest.nodes parent (start + 1 + inside.size))

/-- The forest of some lines, of which the first has the number `start`. -/
def ofLines (rules : Line.Rules) (start : Nat) (lines : List Text) : Forest :=
  match _found : scanBlock? rules lines with
  | none => nil
  | some extent =>
    let rest := ofLines rules (start + extent.stop) (lines.drop extent.stop)
    match foldingTag? rules (window lines extent.first extent.stop) with
    | none => leaf (extent.shift start) rest
    | some tag =>
      branch (extent.shift start) tag
        (ofLines rules (start + (extent.first + 1)) (window lines (extent.first + 1) (extent.stop - 1))) rest
termination_by lines.length
decreasing_by
  all_goals
    have bounds := scanBlock?_bounds rules lines extent _found
    have after : (lines.drop extent.stop).length = lines.length - extent.stop := List.length_drop
    have within := length_window lines (extent.first + 1) (extent.stop - 1) (by omega)
    omega

theorem ofLines_none (rules : Line.Rules) (start : Nat) (lines : List Text) (none : scanBlock? rules lines = none) :
    ofLines rules start lines = nil := by
  rw [ofLines]
  split
  · rfl
  · next extent found => cases none.symm.trans found

theorem ofLines_some (rules : Line.Rules) (start : Nat) (lines : List Text) (extent : Extent)
    (found : scanBlock? rules lines = some extent) : ofLines rules start lines =
      let rest := ofLines rules (start + extent.stop) (lines.drop extent.stop)
      match foldingTag? rules (window lines extent.first extent.stop) with
      | none => leaf (extent.shift start) rest
      | some tag =>
        branch (extent.shift start) tag
          (ofLines rules (start + (extent.first + 1)) (window lines (extent.first + 1) (extent.stop - 1))) rest := by
  rw [ofLines]
  split
  · next none => cases none.symm.trans found
  · next other again =>
    cases again.symm.trans found
    rfl

theorem length_nodes (parent : Option Nat) (start : Nat) (forest : Forest) :
    (forest.nodes parent start).length = forest.size := by
  induction forest generalizing parent start with
  | nil => rfl
  | leaf extent rest restHypothesis =>
    rw [nodes, List.length_cons, restHypothesis, size, Nat.add_comm]
  | branch extent tag inside rest insideHypothesis restHypothesis =>
    rw [nodes, List.length_cons, List.length_append, insideHypothesis, restHypothesis, size]
    omega

/-- How the forest of a range of lines grows, block by block. -/
inductive Grown (rules : Line.Rules) (lines : List Text) : Nat → Nat → Forest → Prop where
  | nil {start stop : Nat} (done : scanRange? rules lines start stop = none) :
      Grown rules lines start stop .nil
  | leaf {start stop : Nat} {extent : Extent} {rest : Forest}
      (found : scanRange? rules lines start stop = some extent)
      (flat : foldingTag? rules (window lines extent.first extent.stop) = none)
      (behind : Grown rules lines extent.stop stop rest) : Grown rules lines start stop (.leaf extent rest)
  | branch {start stop : Nat} {extent : Extent} {tag : Line.Opener} {inside rest : Forest}
      (found : scanRange? rules lines start stop = some extent)
      (folds : foldingTag? rules (window lines extent.first extent.stop) = some tag)
      (within : Grown rules lines (extent.first + 1) (extent.stop - 1) inside)
      (behind : Grown rules lines extent.stop stop rest) :
      Grown rules lines start stop (.branch extent tag inside rest)

/-- The forest of a range does not depend on the lines outside the range. -/
theorem grown_ofLines (rules : Line.Rules) (lines : List Text) (start stop : Nat)
    (inside : stop ≤ lines.length) :
    Grown rules lines start stop (ofLines rules start (window lines start stop)) := by
  induction size : stop - start using Nat.strongRecOn generalizing start stop with
  | ind size inductionHypothesis =>
    rw [ofLines]
    split
    · next none => exact .nil (by rw [scanRange?, none]; rfl)
    · next extent scanned =>
      have found : scanRange? rules lines start stop = some (extent.shift start) := by
        rw [scanRange?, scanned]
        rfl
      have bounds := scanRange?_bounds rules lines start stop _ inside found
      have block : window (window lines start stop) extent.first extent.stop =
          window lines (extent.shift start).first (extent.shift start).stop :=
        window_window _ _ _ _ _ bounds.2.2
      have behind := inductionHypothesis _ (by omega) (extent.shift start).stop stop inside rfl
      rw [block, drop_window]
      dsimp only
      split
      · next flat => exact .leaf found flat behind
      · next tag folds =>
        have last : (extent.shift start).stop - 1 = start + (extent.stop - 1) := by
          simp only [Extent.shift] at bounds ⊢
          omega
        have within := inductionHypothesis _ (by omega) ((extent.shift start).first + 1)
          ((extent.shift start).stop - 1) (by omega) rfl
        rw [window_window _ _ _ _ _ (by simp only [Extent.shift] at bounds; omega), ← last]
        exact .branch found folds within behind

theorem grown_whole (rules : Line.Rules) (lines : List Text) :
    Grown rules lines 0 lines.length (ofLines rules 0 lines) := by
  have grown := grown_ofLines rules lines 0 lines.length (Nat.le_refl _)
  rwa [window_all] at grown

end Forest

namespace Builder

private theorem run_step (source : Source) (builder next : Builder) (moved : step source builder = some next) :
    run source builder = run source next := by
  rw [run]
  split
  · next stopped =>
    rw [moved] at stopped
    cases stopped
  · next other same =>
    rw [moved] at same
    cases same
    rfl

def after? (source : Source) : Nat → Builder → Option Builder
  | 0, builder => some builder
  | steps + 1, builder => (step source builder).bind (after? source steps)

theorem after?_succ (source : Source) (builder next : Builder) (steps : Nat)
    (moved : step source builder = some next) : after? source (1 + steps) builder = after? source steps next := by
  rw [Nat.add_comm, after?, moved, Option.bind_some]

theorem after?_add (source : Source) (builder : Builder) (steps more : Nat) :
    after? source (steps + more) builder = (after? source steps builder).bind (after? source more) := by
  induction steps generalizing builder with
  | zero => rw [Nat.zero_add, after?, Option.bind_some]
  | succ steps inductionHypothesis =>
    rw [Nat.add_right_comm, after?, after?, Option.bind_assoc]
    exact Option.bind_congr fun next _ => inductionHypothesis next

private theorem run_after? (source : Source) (builder later : Builder) (steps : Nat)
    (reached : after? source steps builder = some later) : run source builder = run source later := by
  induction steps generalizing builder with
  | zero => rw [Option.some.inj reached]
  | succ steps inductionHypothesis =>
    obtain ⟨next, moved, onward⟩ := Option.bind_eq_some_iff.mp reached
    rw [run_step source builder next moved, inductionHypothesis next onward]

private theorem foldingOpenerAt?_eq (rules : Line.Rules) (text : Text) (extent : Extent)
    (nonempty : extent.first < extent.stop) (inside : extent.stop ≤ (Text.lines text).length) :
    foldingOpenerAt? (.ofText rules text) extent =
      foldingTag? rules (window (Text.lines text) extent.first extent.stop) := by
  have size := length_window (Text.lines text) extent.first extent.stop inside
  have head := getElem?_window (Text.lines text) extent.first extent.stop 0 (by omega)
  have last := getElem?_window (Text.lines text) extent.first extent.stop
    (extent.stop - extent.first - 1) (by omega)
  have final : extent.first + (extent.stop - extent.first - 1) = extent.stop - 1 := by omega
  rw [foldingOpenerAt?, foldingTag?, List.head?_eq_getElem?, List.getLast?_eq_getElem?, size, head, last, final]
  by_cases long : extent.first + 1 < extent.stop
  · rw [if_pos long, if_pos (by omega), Source.line_ofText rules text _ (by omega),
      Source.line_ofText rules text _ (by omega), List.getElem?_eq_getElem (by omega),
      List.getElem?_eq_getElem (by omega)]
    rfl
  · rw [if_neg long, if_neg (by omega)]

private theorem close_push (nodes : Array Node) (node : Node) (inside : List Node) :
    close (nodes.push node ++ inside.toArray) (some nodes.size) =
      nodes.push { node with descendants := inside.length } ++ inside.toArray := by
  have count : (nodes.push node ++ inside.toArray).size - (nodes.size + 1) = inside.length := by
    simp only [Array.size_append, Array.size_push, List.size_toArray]
    omega
  apply Array.ext_getElem?
  intro index
  rw [close, count, Array.getElem?_modify]
  by_cases same : nodes.size = index
  · subst same
    simp
  · rw [if_neg same]
    by_cases before : index < nodes.size
    · simp [Array.getElem?_append, before]
    · obtain ⟨distance, later⟩ : ∃ distance, index - nodes.size = distance + 1 :=
        ⟨index - nodes.size - 1, by omega⟩
      simp [Array.getElem?_append, before, later]

/-- Working off a range adds the forest that grows in it: a step for each node, one more for each node that folds, and
one to leave the range. -/
theorem after?_grown (rules : Line.Rules) (text : Text) (start stop : Nat) (forest : Forest)
    (grown : Forest.Grown rules (Text.lines text) start stop forest)
    (inside : stop ≤ (Text.lines text).length) (nodes : Array Node) (parent : Option Nat)
    (outer : List OpenRange) :
    after? (.ofText rules text) (forest.size + forest.folds + 1) ⟨nodes, ⟨parent, start, stop⟩ :: outer⟩ =
      some ⟨close (nodes ++ (forest.nodes parent nodes.size).toArray) parent, outer⟩ := by
  induction grown generalizing nodes parent outer with
  | @nil start stop done =>
    have moved : step (.ofText rules text) ⟨nodes, ⟨parent, start, stop⟩ :: outer⟩ =
        some ⟨close nodes parent, outer⟩ := by
      simp only [step, Source.nextBlock?_eq rules text start stop inside, done]
    refine (after?_succ _ _ _ 0 moved).trans ?_
    simp [after?, Forest.nodes]
  | @leaf start stop extent rest found flat behind restHypothesis =>
    have bounds := scanRange?_bounds rules _ start stop extent inside found
    have moved : step (.ofText rules text) ⟨nodes, ⟨parent, start, stop⟩ :: outer⟩ =
        some ⟨nodes.push (nodeOf parent extent none 0), ⟨parent, extent.stop, stop⟩ :: outer⟩ := by
      simp only [step, Source.nextBlock?_eq rules text start stop inside, found,
        foldingOpenerAt?_eq rules text extent bounds.2.1 (by omega), flat]
      rfl
    rw [Forest.size, Forest.folds, Nat.add_assoc, Nat.add_assoc, after?_succ _ _ _ _ moved, ← Nat.add_assoc,
      restHypothesis inside]
    simp [Forest.nodes]
  | @branch start stop extent tag enclosed rest found folds within behind insideHypothesis restHypothesis =>
    have bounds := scanRange?_bounds rules _ start stop extent inside found
    have moved : step (.ofText rules text) ⟨nodes, ⟨parent, start, stop⟩ :: outer⟩ =
        some ⟨nodes.push (nodeOf parent extent (some tag) 0),
          ⟨some nodes.size, extent.first + 1, extent.stop - 1⟩ :: ⟨parent, extent.stop, stop⟩ :: outer⟩ := by
      simp only [step, Source.nextBlock?_eq rules text start stop inside, found,
        foldingOpenerAt?_eq rules text extent bounds.2.1 (by omega), folds]
      rfl
    have count : nodes.size + (enclosed.size + 1) = nodes.size + 1 + enclosed.size := by omega
    have steps : (Forest.branch extent tag enclosed rest).size + (Forest.branch extent tag enclosed rest).folds + 1 =
        1 + ((enclosed.size + enclosed.folds + 1) + (rest.size + rest.folds + 1)) := by
      rw [Forest.size, Forest.folds]
      omega
    rw [steps, after?_succ _ _ _ _ moved, after?_add, insideHypothesis (by omega), Option.bind_some, close_push,
      restHypothesis inside]
    simp [Forest.nodes, Forest.length_nodes, nodeOf, count]

/-- Working off all lines of a text makes the nodes of their forest and leaves no range open. -/
theorem after?_whole (rules : Line.Rules) (text : Text) :
    let forest := Forest.ofLines rules 0 (Text.lines text)
    after? (.ofText rules text) (forest.size + forest.folds + 1) (start (.ofText rules text)) =
      some ⟨(forest.nodes none 0).toArray, []⟩ := by
  have whole := after?_grown rules text _ _ _ (Forest.grown_whole rules (Text.lines text)) (Nat.le_refl _) #[] none []
  rwa [close, List.append_toArray, List.nil_append] at whole

end Builder

theorem ofSource_nodes (rules : Line.Rules) (text : Text) :
    (Skeleton.ofSource (.ofText rules text)).nodes =
      ((Forest.ofLines rules 0 (Text.lines text)).nodes none 0).toArray := by
  rw [Skeleton.ofSource, Builder.run_after? _ _ _ _ (Builder.after?_whole rules text), Builder.run]
  rfl

/-- The nodes of a forest stand in an array, from number `start` on. -/
def Stands (nodes : Array Node) : Option Nat → Nat → Forest → Prop
  | _, _, .nil => True
  | parent, start, .leaf extent rest =>
    nodes[start]? = some (nodeOf parent extent none 0) ∧ Stands nodes parent (start + 1) rest
  | parent, start, .branch extent tag inside rest =>
    nodes[start]? = some (nodeOf parent extent (some tag) inside.size) ∧
      Stands nodes (some start) (start + 1) inside ∧
        Stands nodes parent (start + 1 + inside.size) rest

theorem prefix_cons {Entry : Type} (first : Entry) (rest all : List Entry) (start : Nat)
    (spelled : first :: rest <+: all.drop start) :
    all[start]? = some first ∧ rest <+: all.drop (start + 1) := by
  obtain ⟨behind, same⟩ := spelled
  have first : (all.drop start)[0]? = some first := by rw [← same]; rfl
  refine ⟨by simpa using first, behind, ?_⟩
  rw [← List.drop_drop, ← same]
  rfl

theorem prefix_append {Entry : Type} (first second all : List Entry) (start : Nat)
    (spelled : first ++ second <+: all.drop start) :
    first <+: all.drop start ∧ second <+: all.drop (start + first.length) := by
  obtain ⟨behind, same⟩ := spelled
  refine ⟨⟨second ++ behind, by rw [← List.append_assoc, same]⟩, behind, ?_⟩
  rw [← List.drop_drop, ← same, List.append_assoc, List.drop_left]

private theorem stands_of_prefix (nodes : Array Node) (parent : Option Nat) (start : Nat) (forest : Forest)
    (spelled : forest.nodes parent start <+: nodes.toList.drop start) : Stands nodes parent start forest := by
  induction forest generalizing parent start with
  | nil => trivial
  | leaf extent rest restHypothesis =>
    obtain ⟨here, behind⟩ := prefix_cons _ _ _ start spelled
    exact ⟨by simpa using here, restHypothesis parent (start + 1) behind⟩
  | branch extent tag inside rest insideHypothesis restHypothesis =>
    obtain ⟨here, behind⟩ := prefix_cons _ _ _ start spelled
    obtain ⟨within, behind⟩ := prefix_append _ _ _ (start + 1) behind
    rw [Forest.length_nodes] at behind
    exact ⟨by simpa using here, insideHypothesis (some start) (start + 1) within,
      restHypothesis parent (start + 1 + inside.size) behind⟩

theorem stands_ofSource (rules : Line.Rules) (text : Text) :
    Stands (Skeleton.ofSource (.ofText rules text)).nodes none 0
      (Forest.ofLines rules 0 (Text.lines text)) := by
  have spelled : (Skeleton.ofSource (.ofText rules text)).nodes.toList =
      (Forest.ofLines rules 0 (Text.lines text)).nodes none 0 := by
    rw [ofSource_nodes]
  refine stands_of_prefix _ _ _ _ ⟨[], ?_⟩
  rw [List.append_nil, List.drop_zero, spelled]

namespace Forest

def tops (start : Nat) : Forest → List Nat
  | nil => []
  | leaf _ rest => start :: rest.tops (start + 1)
  | branch _ _ inside rest => start :: rest.tops (start + 1 + inside.size)

def extents : Forest → List Extent
  | nil => []
  | leaf extent rest | branch extent _ _ rest => extent :: rest.extents

end Forest

theorem after_leaf (skeleton : Skeleton) (id : Nat) (parent : Option Nat) (extent : Extent)
    (here : skeleton.nodes[id]? = some (nodeOf parent extent none 0)) : skeleton.after id = id + 1 := by
  rw [Skeleton.after, here]
  rfl

theorem after_branch (skeleton : Skeleton) (id : Nat) (parent : Option Nat) (extent : Extent)
    (tag : Line.Opener) (descendants : Nat)
    (here : skeleton.nodes[id]? = some (nodeOf parent extent (some tag) descendants)) :
    skeleton.after id = id + 1 + descendants := by
  rw [Skeleton.after, here]
  rfl

/-- Stepping from sibling to sibling visits the outermost nodes of a forest. -/
theorem siblings_eq_tops (skeleton : Skeleton) (parent : Option Nat) (start : Nat) (forest : Forest)
    (stands : Stands skeleton.nodes parent start forest) :
    skeleton.siblings start (start + forest.size) = forest.tops start := by
  induction forest generalizing parent start with
  | nil =>
    rw [Skeleton.siblings, if_neg (by simp [Forest.size])]
    rfl
  | leaf extent rest restHypothesis =>
    rw [Skeleton.siblings, if_pos (by simp only [Forest.size]; omega),
      after_leaf skeleton start parent extent stands.1, Forest.tops,
      ← restHypothesis parent (start + 1) stands.2, Forest.size, Nat.add_assoc]
  | branch extent tag inside rest insideHypothesis restHypothesis =>
    rw [Skeleton.siblings, if_pos (by simp only [Forest.size]; omega),
      after_branch skeleton start parent extent tag inside.size stands.1, Forest.tops,
      ← restHypothesis parent (start + 1 + inside.size) stands.2.2, Forest.size]
    congr 2
    omega

theorem isCollapsed_ofText (rules : Line.Rules) (text : Text) (id : Nat) :
    (Outline.ofText rules text).isCollapsed id = false := by
  rw [isCollapsed, Outline.ofText]
  simp only [Array.getElem?_replicate]
  split <;> rfl

theorem folding_ofText (rules : Line.Rules) (text : Text) (id : Nat) (node : Node)
    (found : (Outline.ofText rules text).skeleton.nodes[id]? = some node) :
    (Outline.ofText rules text).folding id = if node.nameBytes.isSome then .expanded else .leaf := by
  rw [folding, found, isCollapsed_ofText]
  cases same : node.nameBytes <;> simp [same]

end MarkupOutline.Outline
