import MarkupOutline.Proofs.Outline.Coverage

/-! The work of building an outline. Every node is made in a step of its own and starts with a line of its own, so the
steps are counted by the nodes and bounded by the lines that are not blank. -/
namespace MarkupOutline.Outline

open Text Block

namespace Forest

variable {rules : Line.Rules} {lines : List Text} {start stop : Nat} {forest : Forest}

private theorem length_solid_block {extent : Extent} (inside : stop ≤ lines.length)
    (found : scanRange? rules lines start stop = some extent) (last : Nat) (after : extent.first < last) :
    (solid (window lines extent.first last)).length = 1 + (solid (window lines (extent.first + 1) last)).length := by
  obtain ⟨line, here, _, before, _, filled, _⟩ := (scanRange?_eq_some_iff extent inside).mp found
  obtain ⟨bound, same⟩ := List.getElem?_eq_some_iff.mp here
  have alone : solid [line] = [line] := by simp [solid, filled]
  rw [window_cons lines extent.first last after bound, same, solid_cons, alone, List.length_append,
    List.length_singleton]

/-- Every block of a forest starts with a line that is not blank and that no other block starts with. -/
theorem Grown.size_le (grown : Grown rules lines start stop forest) (inside : stop ≤ lines.length) :
    forest.size ≤ (solid (window lines start stop)).length := by
  induction grown with
  | nil done => exact Nat.zero_le _
  | @leaf start stop extent rest found flat behind restHypothesis =>
    have bounds := scanRange?_bounds rules lines start stop extent inside found
    have later := restHypothesis inside
    rw [scanRange?_solid inside found, List.length_append,
      length_solid_block inside found extent.stop bounds.2.1, size]
    omega
  | @branch start stop extent tag enclosed rest found folds within behind insideHypothesis restHypothesis =>
    have bounds := scanRange?_bounds rules lines start stop extent inside found
    have long := foldingTag?_long folds
    rw [length_window _ _ _ (by omega)] at long
    have inner := insideHypothesis (by omega)
    have later := restHypothesis inside
    have split := window_append lines (extent.first + 1) (extent.stop - 1) extent.stop (by omega) (by omega)
    rw [scanRange?_solid inside found, List.length_append,
      length_solid_block inside found extent.stop bounds.2.1, ← split, solid_append, List.length_append, size]
    omega

theorem countP_nodes (parent : Option Nat) (start : Nat) (forest : Forest) :
    (forest.nodes parent start).countP (fun node => node.nameBytes.isSome) = forest.folds := by
  induction forest generalizing parent start with
  | nil => rfl
  | leaf extent rest restHypothesis =>
    rw [nodes, List.countP_cons_of_neg (by simp [nodeOf]), restHypothesis, folds]
  | branch extent tag inside rest insideHypothesis restHypothesis =>
    rw [nodes, List.countP_cons_of_pos (by simp [nodeOf]), List.countP_append, insideHypothesis, restHypothesis, folds]
    omega

theorem folds_le_size (forest : Forest) : forest.folds ≤ forest.size := by
  rw [← countP_nodes none 0, ← length_nodes none 0]
  exact List.countP_le_length

end Forest

namespace Builder

private theorem step_eq_none_iff (source : Source) (builder : Builder) :
    step source builder = none ↔ builder.ranges = [] := by
  obtain ⟨nodes, ranges⟩ := builder
  cases ranges with
  | nil => exact iff_of_true rfl rfl
  | cons range outer =>
    refine iff_of_false ?_ (List.cons_ne_nil range outer)
    rw [step]
    split
    · exact Option.some_ne_none _
    · split <;> exact Option.some_ne_none _

theorem after?_done (source : Source) (builder : Builder) (done : builder.ranges = []) (steps : Nat) :
    after? source (steps + 1) builder = none := by
  rw [after?, (step_eq_none_iff source builder).mpr done, Option.bind_none]

/-- A number of steps that leaves no range open is the number of all steps. -/
theorem after?_open_iff (source : Source) (builder last : Builder) (steps : Nat)
    (reached : after? source steps builder = some last) (done : last.ranges = []) (count : Nat) :
    (∃ later, after? source count builder = some later ∧ later.ranges ≠ []) ↔ count < steps := by
  constructor
  · rintro ⟨later, passed, left⟩
    by_contra beyond
    obtain ⟨more, rfl⟩ := Nat.exists_eq_add_of_le (Nat.le_of_not_lt beyond)
    rw [after?_add, reached, Option.bind_some] at passed
    cases more with
    | zero => exact left (Option.some.inj passed ▸ done)
    | succ more => cases (after?_done source last done more).symm.trans passed
  · intro before
    obtain ⟨more, rfl⟩ := Nat.exists_eq_add_of_lt before
    rw [Nat.add_assoc, after?_add] at reached
    obtain ⟨later, passed, onward⟩ := Option.bind_eq_some_iff.mp reached
    refine ⟨later, passed, fun none => ?_⟩
    cases (after?_done source later none more).symm.trans onward

end Builder

/-- An outline is built in one step for each node, one more for each node that folds, and one for the text itself:
after so many steps and no fewer the nodes are made and no range is open. There are at most as many nodes as lines that
are not blank. -/
theorem build_linear (rules : Line.Rules) (text : Text) :
    let source := Source.ofText rules text
    let nodes := (Skeleton.ofSource source).nodes
    let steps := nodes.size + nodes.countP (fun node => node.nameBytes.isSome) + 1
    Builder.after? source steps (Builder.start source) = some ⟨nodes, []⟩ ∧
      (∀ count, (∃ later, Builder.after? source count (Builder.start source) = some later ∧ later.ranges ≠ []) ↔
        count < steps) ∧
      nodes.size ≤ (solid (Text.lines text)).length ∧ steps ≤ 2 * (solid (Text.lines text)).length + 1 := by
  intro source nodes steps
  have forest := Forest.grown_whole rules (Text.lines text)
  have made : nodes = _ := ofSource_nodes rules text
  have size : nodes.size = (Forest.ofLines rules 0 (Text.lines text)).size := by
    rw [made, List.size_toArray, Forest.length_nodes]
  have folds : nodes.countP (fun node => node.nameBytes.isSome) = (Forest.ofLines rules 0 (Text.lines text)).folds := by
    rw [made, List.countP_toArray, Forest.countP_nodes]
  have total : steps = (Forest.ofLines rules 0 (Text.lines text)).size +
      (Forest.ofLines rules 0 (Text.lines text)).folds + 1 := by
    rw [← size, ← folds]
  have reached : Builder.after? source steps (Builder.start source) = some ⟨nodes, []⟩ := by
    rw [total, made]
    exact Builder.after?_whole rules text
  have few := forest.size_le (Nat.le_refl _)
  have fewer := Forest.folds_le_size (Forest.ofLines rules 0 (Text.lines text))
  rw [window_all] at few
  exact ⟨reached, Builder.after?_open_iff _ _ _ _ reached rfl, by omega, by omega⟩

end MarkupOutline.Outline
