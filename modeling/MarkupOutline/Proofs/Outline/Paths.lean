import Mathlib.Logic.Relation
import MarkupOutline.Proofs.Outline.Forgetful

/-! Numbers and paths name the same nodes. A number has a path exactly while the node can be seen, the path
leads to that node and no other one does, and it never changes. It is found by walking: up from parent to
parent, and at each level from sibling to sibling until the node is met. -/
namespace MarkupOutline.Outline

open Text Block

namespace Skeleton

variable (skeleton : Skeleton)

/-- Whether a node lies inside another one. -/
def Within (id outer : Nat) : Prop :=
  Relation.TransGen (fun inner parent => skeleton.parent? inner = some parent) id outer

/-- A walk from sibling to sibling that stops at a node and nowhere else, with the number of its steps. A walk
that steps over the node or off the nodes has no end. -/
inductive Meets (id : Nat) : Nat → Nat → Prop where
  | here : Meets id id 0
  | onward {place steps : Nat} (apart : place ≠ id) (inside : place < skeleton.nodes.size)
      (later : Meets id (skeleton.after place) steps) : Meets id place (steps + 1)

/-- A walk up from a node to the outermost level, with the path that it collects. -/
inductive Climbs : Nat → List Nat → Prop where
  | top {id steps : Nat} (outermost : skeleton.parent? id = none) (met : skeleton.Meets id 0 steps) :
      Climbs id [steps]
  | up {id outer steps : Nat} {path : List Nat} (parent : skeleton.parent? id = some outer)
      (met : skeleton.Meets id (outer + 1) steps) (above : Climbs outer path) : Climbs id (path ++ [steps])

variable {skeleton : Skeleton}

theorem Meets.le {id place steps : Nat} (met : skeleton.Meets id place steps) : place ≤ id := by
  induction met with
  | here => exact Nat.le_refl id
  | onward apart inside later inductionHypothesis =>
    exact Nat.le_of_lt (Nat.lt_of_lt_of_le (skeleton.lt_after _) inductionHypothesis)

theorem Meets.length_siblings {id place steps : Nat} (met : skeleton.Meets id place steps) :
    (skeleton.siblings place id).length = steps := by
  induction met with
  | here =>
    rw [siblings, if_neg (Nat.lt_irrefl id)]
    rfl
  | onward apart inside later inductionHypothesis =>
    have before := Nat.lt_of_lt_of_le (skeleton.lt_after _) later.le
    rw [siblings, if_pos before, List.length_cons, inductionHypothesis]

theorem Climbs.path_eq {id : Nat} {path : List Nat} (climbed : skeleton.Climbs id path) :
    path = skeleton.place id := by
  induction climbed with
  | @top id steps outermost met =>
    have rank : skeleton.rank id = steps := by
      rw [Skeleton.rank, outermost]
      exact met.length_siblings
    rw [place, ancestors, outermost, ← rank]
    rfl
  | @up id outer steps path parent met above inductionHypothesis =>
    have rank : skeleton.rank id = steps := by
      rw [Skeleton.rank, parent]
      exact met.length_siblings
    have around : skeleton.ancestors id = outer :: skeleton.ancestors outer := by
      rw [ancestors, parent]
      exact if_pos met.le
    rw [inductionHypothesis, ← rank, place, place, around]
    exact List.reverse_cons.symm

/-- A node among those of a forest is one of the outermost, which a walk from the first of them meets, or it is
a child of a node that folds, met by a walk from the first child. -/
theorem parent_of_stands (parent : Option Nat) (start : Nat) (forest : Forest)
    (stands : Stands skeleton.nodes parent start forest) (id : Nat) (lower : start ≤ id)
    (upper : id < start + forest.size) :
    (skeleton.parent? id = parent ∧ ∃ steps, skeleton.Meets id start steps) ∨
      ∃ outer node, skeleton.parent? id = some outer ∧ skeleton.nodes[outer]? = some node ∧
        node.nameBytes.isSome ∧ ∃ steps, skeleton.Meets id (outer + 1) steps := by
  induction forest generalizing parent start with
  | nil =>
    rw [Forest.size] at upper
    omega
  | leaf extent rest restHypothesis =>
    obtain ⟨first, behind⟩ := stands
    rw [Forest.size] at upper
    by_cases here : id = start
    · subst here
      exact .inl ⟨by rw [parent?, first]; rfl, 0, .here⟩
    · rcases restHypothesis parent (start + 1) behind (by omega) (by omega) with ⟨same, steps, met⟩ | deeper
      · have inside := (Array.getElem?_eq_some_iff.mp first).1
        rw [← after_leaf skeleton start parent extent first] at met
        exact .inl ⟨same, steps + 1, .onward (Ne.symm here) inside met⟩
      · exact .inr deeper
  | branch extent tag enclosed rest insideHypothesis restHypothesis =>
    obtain ⟨first, within, behind⟩ := stands
    rw [Forest.size] at upper
    by_cases here : id = start
    · subst here
      exact .inl ⟨by rw [parent?, first]; rfl, 0, .here⟩
    · by_cases inner : id < start + 1 + enclosed.size
      · rcases insideHypothesis (some start) (start + 1) within (by omega) inner with ⟨same, met⟩ | deeper
        · exact .inr ⟨start, _, same, first, rfl, met⟩
        · exact .inr deeper
      · rcases restHypothesis parent (start + 1 + enclosed.size) behind (by omega) (by omega) with
          ⟨same, steps, met⟩ | deeper
        · have inside := (Array.getElem?_eq_some_iff.mp first).1
          rw [← after_branch skeleton start parent extent tag _ first] at met
          exact .inl ⟨same, steps + 1, .onward (Ne.symm here) inside met⟩
        · exact .inr deeper

end Skeleton

variable {rules : Line.Rules} {text : Text} {outline : Outline}

/-- A node is outermost and met from the first node, or a child of a node that folds and met from its first
child. -/
theorem Over.parent_cases (based : Over rules text outline) (id : Nat) (inside : id < outline.count) :
    (outline.skeleton.parent? id = none ∧ ∃ steps, outline.skeleton.Meets id 0 steps) ∨
      ∃ outer node, outline.skeleton.parent? id = some outer ∧ outline.skeleton.nodes[outer]? = some node ∧
        node.nameBytes.isSome ∧ ∃ steps, outline.skeleton.Meets id (outer + 1) steps := by
  rw [based.count] at inside
  exact Skeleton.parent_of_stands none 0 _ based.stands id (Nat.zero_le id) (by omega)

theorem Over.climbs (based : Over rules text outline) (id : Nat) (inside : id < outline.count) :
    ∃ path, outline.skeleton.Climbs id path := by
  induction id using Nat.strongRecOn with
  | ind id inductionHypothesis =>
    rcases based.parent_cases id inside with ⟨outermost, steps, met⟩ | ⟨outer, node, parent, known, _, steps, met⟩
    · exact ⟨[steps], .top outermost met⟩
    · obtain ⟨path, above⟩ := inductionHypothesis outer met.le (Array.getElem?_eq_some_iff.mp known).1
      exact ⟨path ++ [steps], .up parent met above⟩

theorem Over.mem_ancestors_iff (based : Over rules text outline) (id outer : Nat) (inside : id < outline.count) :
    outer ∈ outline.skeleton.ancestors id ↔ outline.skeleton.Within id outer := by
  induction id using Nat.strongRecOn with
  | ind id inductionHypothesis =>
    rw [Skeleton.Within, Relation.TransGen.head'_iff]
    rcases based.parent_cases id inside with ⟨outermost, _⟩ | ⟨next, node, parent, known, _, steps, met⟩
    · rw [Skeleton.ancestors, outermost]
      simp
    · have above := inductionHypothesis next met.le (Array.getElem?_eq_some_iff.mp known).1
      have around : outline.skeleton.ancestors id = next :: outline.skeleton.ancestors next := by
        rw [Skeleton.ancestors, parent]
        exact if_pos met.le
      rw [around, List.mem_cons, above, Skeleton.Within, ← Relation.reflTransGen_iff_eq_or_transGen]
      simp [parent]

theorem Over.folding_around (based : Over rules text outline) {id outer : Nat} (inside : id < outline.count)
    (around : outline.skeleton.Within id outer) :
    outline.folding outer = .expanded ↔ outline.isCollapsed outer = false := by
  have folds : (outline.skeleton.nodes[outer]?.bind Node.nameBytes).isSome = true := by
    induction around using Relation.TransGen.head_induction_on with
    | single parent =>
      rcases based.parent_cases _ inside with ⟨outermost, _⟩ | ⟨next, node, same, known, folds, _⟩
      · rw [outermost] at parent
        cases parent
      · cases parent.symm.trans same
        rw [known]
        exact folds
    | head parent _ inductionHypothesis =>
      rcases based.parent_cases _ inside with ⟨outermost, _⟩ | ⟨next, node, same, known, folds, _⟩
      · rw [outermost] at parent
        cases parent
      · cases parent.symm.trans same
        exact inductionHypothesis (Array.getElem?_eq_some_iff.mp known).1
  rw [folding, ← Option.not_isSome, folds]
  cases outline.isCollapsed outer <;> simp

theorem Over.isShown_iff (based : Over rules text outline) (id : Nat) :
    outline.isShown id = true ↔ id < outline.count ∧
      ∀ outer, outline.skeleton.Within id outer → outline.folding outer = .expanded := by
  rw [isShown, Bool.and_eq_true, decide_eq_true_eq]
  refine and_congr_right fun inside => ?_
  rw [List.all_eq_true]
  refine forall_congr' fun outer => ?_
  rw [based.mem_ancestors_iff id outer inside]
  refine imp_congr_right fun around => ?_
  rw [based.folding_around inside around, Bool.not_eq_true']

theorem node?_isSome (outline : Outline) (id : Nat) : (outline.node? id).isSome = outline.isShown id := by
  rw [node?]
  split
  · next shown =>
    rw [Array.getElem?_eq_getElem (outline.lt_count_of_isShown id shown), shown]
    rfl
  · next hidden => exact (Bool.not_eq_true _ ▸ hidden).symm

/-- A path belongs to the node that it leads to, and to no other one. -/
theorem Over.pathTo?_eq_some_iff (based : Over rules text outline) (id : Nat) (path : List Nat) :
    outline.pathTo? id = some path ↔ outline.resolve? path = some id := by
  have paths : outline.pathTo? id = ((outline.view rules text).find? none [] 0 0 id).map Sight.path := by
    rw [← based.sight?_eq id, sight?, Option.map_map, pathTo?_eq]
    rfl
  rw [paths, based.resolve?_eq, Option.map_eq_some_iff]
  constructor
  · rintro ⟨sight, seen, rfl⟩
    exact View.resolve?_of_seen _ id sight seen
  · intro found
    exact View.resolve?_seen _ path id found

/-- In every state that folding leads to, numbers and paths name the visible nodes, and the walk that finds a
path ends at every node. -/
theorem pathTo?_faithful (rules : Line.Rules) (text : Text) (actions : List Action) :
    let outline := ((Outline.ofText rules text).run actions).2
    (∀ id, (outline.pathTo? id).isSome = (outline.node? id).isSome) ∧
      (∀ id, (outline.node? id).isSome ↔ id < outline.count ∧
        ∀ outer, outline.skeleton.Within id outer → outline.folding outer = .expanded) ∧
      (∀ id path, outline.pathTo? id = some path ↔ outline.resolve? path = some id) ∧
      (∀ id path others other, outline.pathTo? id = some path →
        ((Outline.ofText rules text).run others).2.pathTo? id = some other → other = path) ∧
      (∀ id, id < outline.count → ∃ path, outline.skeleton.Climbs id path) ∧
        ∀ id path, outline.pathTo? id = some path → outline.skeleton.Climbs id path := by
  intro outline
  have based : Over rules text outline := ((over_ofText rules text).run_eq actions).1
  have placed : ∀ state id path, Outline.pathTo? state id = some path →
      state.isShown id = true ∧ path = state.skeleton.place id := by
    intro state id path found
    rw [pathTo?] at found
    split at found
    · next shown =>
      cases found
      exact ⟨shown, rfl⟩
    · cases found
  refine ⟨?_, ?_, based.pathTo?_eq_some_iff, ?_, based.climbs, ?_⟩
  · intro id
    rw [pathTo?_eq, Option.isSome_map]
  · intro id
    rw [node?_isSome]
    exact based.isShown_iff id
  · intro id path others other found again
    have reached : Over rules text ((Outline.ofText rules text).run others).2 :=
      ((over_ofText rules text).run_eq others).1
    rw [(placed _ id path found).2, (placed _ id other again).2, based.skeleton, reached.skeleton]
  · intro id path found
    obtain ⟨shown, same⟩ := placed _ id path found
    obtain ⟨climbed, climbs⟩ := based.climbs id ((based.isShown_iff id).mp shown).1
    rwa [same, ← climbs.path_eq]

/-- Two nested elements of which the first is collapsed: the line in the second one keeps its path. -/
theorem pathTo?_faithful_nested :
    let text := "<a>\n  <b>\n    x\n  </b>\n  <c>\n    y\n  </c>\n</a>".toList
    let fresh := Outline.ofText Line.Angle.rules text
    let outline := (fresh.run [.collapse [0, 0], .toggleId 2]).2
    outline.pathTo? 2 = none ∧ outline.pathTo? 4 = some [0, 1, 0] ∧ outline.resolve? [0, 1, 0] = some 4 ∧
      (fresh.run []).2.pathTo? 4 = some [0, 1, 0] ∧ outline.skeleton.Climbs 4 [0, 1, 0] := by
  intro text fresh outline
  have found : outline.pathTo? 4 = some [0, 1, 0] := by decide +kernel
  have ⟨_, _, resolved, unchanged, _, climbs⟩ :=
    pathTo?_faithful Line.Angle.rules text [.collapse [0, 0], .toggleId 2]
  obtain ⟨before, known⟩ : ∃ before, (fresh.run []).2.pathTo? 4 = some before :=
    Option.isSome_iff_exists.mp (by decide +kernel)
  have same := unchanged 4 _ [] before found known
  exact ⟨by decide +kernel, found, (resolved 4 _).mp found, same ▸ known, climbs 4 _ found⟩

end MarkupOutline.Outline
