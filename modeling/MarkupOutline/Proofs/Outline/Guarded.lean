import MarkupOutline.Proofs.Outline.Coverage
import MarkupOutline.Proofs.Outline.Laid

/-! Reading an outline with every number checked. A line or node that is looked for where there is none is a
fault, and so is a walk that has no end. No reading ever meets one, and each gives what it gives unchecked. -/
namespace MarkupOutline.Outline

open Text

namespace Guarded

variable (outline : Outline)

def node (id : Nat) : Option Node := outline.skeleton.nodes[id]?

def line (number : Nat) : Option Text := outline.skeleton.lines[number]?

def lineBefore (number : Nat) : Option Text := if 0 < number then line outline (number - 1) else none

def linesFrom (start stop : Nat) : Option (List Text) := (List.range' start (stop - start)).mapM (line outline)

def opening (id : Nat) : Option Text := do
  let node ← node outline id
  line outline node.first

def closing (id : Nat) : Option Text := do
  let node ← node outline id
  lineBefore outline node.stop

def linesOf (id : Nat) : Option (List Text) := do
  let node ← node outline id
  linesFrom outline node.first node.stop

def block (id : Nat) : Option Block := do
  let node ← node outline id
  let _ ← line outline node.first
  let _ ← lineBefore outline node.stop
  return ⟨unlines (← linesFrom outline node.first node.stop), node.depth⟩

def interior (id : Nat) : Option Text := do
  let node ← node outline id
  if node.stop - node.first < 3 then return []
  else return unlines (← linesFrom outline (node.first + 1) (node.stop - 1))

def folding (id : Nat) : Option Folding := do
  let node ← node outline id
  let flag ← outline.collapsed[id]?
  return if node.nameBytes.isNone then .leaf else if flag then .collapsed else .expanded

def siblings (start stop : Nat) : Option (List Nat) :=
  if _inside : start < stop then do
    let node ← node outline start
    return start :: (← siblings (start + 1 + node.descendants) stop)
  else return []
termination_by stop - start

def children (id : Nat) : Option (List Nat) := do
  let node ← node outline id
  if (← folding outline id) = .expanded then siblings outline (id + 1) (id + 1 + node.descendants) else return []

/-- Go up from parent to parent until one is collapsed. To go up to a later node is to go in a circle. -/
def isShown (id : Nat) : Option Bool := do
  let node ← node outline id
  match node.parent with
  | none => return true
  | some outer =>
    if _above : outer < id then
      if ← outline.collapsed[outer]? then return false else isShown outer
    else none
termination_by id

def find (id : Nat) : Option (Option Node) :=
  if id < outline.count then do
    if ← isShown outline id then return some (← node outline id) else return none
  else return none

def descend (id : Nat) : List Nat → Option (Option Nat)
  | [] => return some id
  | index :: rest => do
    match (← children outline id)[index]? with
    | some child => descend child rest
    | none => return none

def resolve : List Nat → Option (Option Nat)
  | [] => return none
  | index :: rest => do
    match (← siblings outline 0 outline.count)[index]? with
    | some root => descend outline root rest
    | none => return none

def steps (place id : Nat) : Option Nat :=
  if place = id then return 0
  else if _before : place < id then do
    let node ← node outline place
    return (← steps (place + 1 + node.descendants) id) + 1
  else none
termination_by id - place

def climb (id : Nat) : Option (List Nat) := do
  let node ← node outline id
  match node.parent with
  | none => return [← steps outline 0 id]
  | some outer =>
    if _above : outer < id then return (← climb outer) ++ [← steps outline (outer + 1) id] else none
termination_by id

def path (id : Nat) : Option (Option (List Nat)) :=
  if id < outline.count then do
    if ← isShown outline id then return some (← climb outline id) else return none
  else return none

/-- Show one node or line. A subtree that goes on behind its level is a fault. -/
def perform : Task → Option (List Row × List Task)
  | .closing row => return ([row], [])
  | .siblings start stop level =>
    if start < stop then do
      let node ← node outline start
      let behind := start + 1 + node.descendants
      let resumed := Task.siblings behind stop level
      if behind ≤ stop then
        match ← folding outline start with
        | .leaf => return ((← linesOf outline start).map fun text => ⟨start, level, none, text⟩, [resumed])
        | .collapsed =>
          let _ ← opening outline start
          return ([⟨start, level, some .expand, collapsedText outline.skeleton node⟩], [resumed])
        | .expanded =>
          return ([⟨start, level, some .collapse, ← opening outline start⟩],
            [.siblings (start + 1) behind (level + 1),
              .closing ⟨start, level, none, ← closing outline start⟩, resumed])
      else none
    else return ([], [])

private theorem perform_load (task : Task) (result : List Row × List Task)
    (made : perform outline task = some result) : Task.load result.2 < task.weight := by
  cases task with
  | closing row =>
    cases made
    exact Nat.zero_lt_one
  | siblings start stop level =>
    rw [perform] at made
    split at made
    · simp only [Option.bind_eq_bind, Option.bind_eq_some_iff] at made
      obtain ⟨node, _, made⟩ := made
      split at made
      · simp only [Option.bind_eq_some_iff] at made
        obtain ⟨state, _, made⟩ := made
        cases state <;> simp only [Option.bind_eq_some_iff, Option.pure_def, Option.some.injEq] at made
        · obtain ⟨_, _, rfl⟩ := made
          simp only [Task.load, Task.weight]
          omega
        · obtain ⟨_, _, rfl⟩ := made
          simp only [Task.load, Task.weight]
          omega
        · obtain ⟨_, _, _, _, rfl⟩ := made
          simp only [Task.load, Task.weight]
          omega
      · cases made
    · cases made
      simp [Task.load, Task.weight]

def performAll : List Task → Option (List Row)
  | [] => return []
  | task :: rest =>
    match _made : perform outline task with
    | none => none
    | some result => do return result.1 ++ (← performAll (result.2 ++ rest))
termination_by tasks => Task.load tasks
decreasing_by
  have smaller := perform_load outline task result _made
  rw [Task.load_append, Task.load]
  omega

def rows : Option (List Row) := performAll outline [.siblings 0 outline.count 0]

section Lines

private theorem line_eq (number : Nat) (inside : number < outline.skeleton.lines.size) :
    line outline number = some (outline.skeleton.line number) := by
  simp [line, Skeleton.line, inside]

private theorem linesFrom_eq (start stop : Nat) (inside : stop ≤ outline.skeleton.lines.size) :
    linesFrom outline start stop = some (outline.skeleton.range start stop) := by
  induction size : stop - start generalizing start with
  | zero => simp [linesFrom, size, Skeleton.range]
  | succ more inductionHypothesis =>
    have rest := inductionHypothesis (start + 1) (by omega)
    have here : start < outline.skeleton.lines.size := by omega
    have shorter : stop - (start + 1) = more := by omega
    have first : line outline start = some outline.skeleton.lines[start] := Array.getElem?_eq_getElem here
    rw [linesFrom, shorter, Skeleton.range, extract_toList] at rest
    rw [linesFrom, size, List.range'_succ, Skeleton.range, extract_toList,
      window_cons _ _ _ (by omega) (by simpa using here), List.mapM_cons, first, rest]
    rfl

end Lines

section Nodes

variable {outline} {rules : Line.Rules} {source : Text} (based : Over rules source outline)

theorem node_eq (id : Nat) (inside : id < outline.count) :
    ∃ found, node outline id = some found ∧ outline.skeleton.nodes[id]? = some found ∧
      outline.skeleton.after id = id + 1 + found.descendants ∧ outline.skeleton.parent? id = found.parent := by
  have known : outline.skeleton.nodes[id]? = some outline.skeleton.nodes[id] := Array.getElem?_eq_getElem inside
  refine ⟨_, known, known, ?_, ?_⟩
  · rw [Skeleton.after, known]
    rfl
  · rw [Skeleton.parent?, known]
    rfl

theorem siblings_eq (start stop : Nat) (inside : stop ≤ outline.count) :
    siblings outline start stop = some (outline.skeleton.siblings start stop) := by
  fun_induction outline.skeleton.siblings start stop with
  | case1 start before inductionHypothesis =>
    obtain ⟨found, here, _, after, _⟩ := node_eq start (Nat.lt_of_lt_of_le before inside)
    rw [after] at inductionHypothesis ⊢
    rw [siblings, dif_pos before, here, Option.bind_eq_bind, Option.bind_some, inductionHypothesis]
    rfl
  | case2 start passed =>
    rw [siblings, dif_neg passed]
    rfl

theorem lt_of_mem_siblings (start stop id : Nat) (member : id ∈ outline.skeleton.siblings start stop) : id < stop := by
  fun_induction outline.skeleton.siblings start stop with
  | case1 start before inductionHypothesis =>
    rcases List.mem_cons.mp member with rfl | later
    · exact before
    · exact inductionHypothesis later
  | case2 start passed => cases member

private theorem steps_eq (id place count : Nat) (met : outline.skeleton.Meets id place count) :
    steps outline place id = some count := by
  induction met with
  | here =>
    rw [steps, if_pos rfl]
    rfl
  | @onward place count apart inside later inductionHypothesis =>
    obtain ⟨found, here, _, after, _⟩ := node_eq place inside
    have before : place < id := Nat.lt_of_lt_of_le (outline.skeleton.lt_after place) later.le
    rw [after] at inductionHypothesis
    rw [steps, if_neg apart, dif_pos before, here, Option.bind_eq_bind, Option.bind_some, inductionHypothesis]
    rfl

private theorem climb_eq (id : Nat) (ranks : List Nat) (climbed : outline.skeleton.Climbs id ranks)
    (inside : id < outline.count) : climb outline id = some ranks := by
  induction climbed with
  | @top id count outermost met =>
    obtain ⟨found, here, _, _, parent⟩ := node_eq id inside
    rw [climb, here, Option.bind_eq_bind, Option.bind_some, parent.symm.trans outermost]
    simp [steps_eq id 0 count met]
  | @up id outer count ranks around met above inductionHypothesis =>
    obtain ⟨found, here, _, _, parent⟩ := node_eq id inside
    have before : outer < id := met.le
    rw [climb, here, Option.bind_eq_bind, Option.bind_some, parent.symm.trans around]
    simp [before, inductionHypothesis (Nat.lt_trans before inside), steps_eq id (outer + 1) count met]

include based

theorem parts_eq (id : Nat) (node : Node) (known : outline.skeleton.nodes[id]? = some node) :
    opening outline id = some (outline.skeleton.firstLine node) ∧
      closing outline id = some (outline.skeleton.lastLine node) ∧
        linesOf outline id = some (outline.skeleton.linesOf node) ∧
          block outline id = some (outline.skeleton.block node) ∧
            interior outline id = some (outline.skeleton.interior node) := by
  have ⟨nonempty, ends⟩ := based.laid.block id node known
  have here : Guarded.node outline id = some node := known
  have first := line_eq outline node.first (Nat.lt_of_lt_of_le nonempty ends)
  have last : lineBefore outline node.stop = some (outline.skeleton.lastLine node) := by
    rw [lineBefore, if_pos (Nat.zero_lt_of_lt nonempty), line_eq outline _ (by omega), Skeleton.lastLine]
  have all := linesFrom_eq outline node.first node.stop ends
  have inner := linesFrom_eq outline (node.first + 1) (node.stop - 1) (by omega)
  refine ⟨?_, ?_, ?_, ?_, ?_⟩
  · simp [opening, here, first, Skeleton.firstLine]
  · simp [closing, here, last]
  · simp [linesOf, here, all, Skeleton.linesOf]
  · simp [block, here, first, last, all, Skeleton.block, Skeleton.linesOf]
  · by_cases short : node.stop - node.first < 3
    · have none : outline.skeleton.range (node.first + 1) (node.stop - 1) = [] := by
        rw [Skeleton.range, extract_toList, window_empty _ _ _ (by omega)]
      simp [interior, here, short, Skeleton.interior, none, unlines]
    · simp [interior, here, short, inner, Skeleton.interior]

theorem flag_eq (id : Nat) (inside : id < outline.count) :
    outline.collapsed[id]? = some (outline.isCollapsed id) := by
  have flagged : id < outline.collapsed.size := based.flags ▸ inside
  simp [isCollapsed, flagged]

theorem folding_eq (id : Nat) (inside : id < outline.count) :
    folding outline id = some (outline.folding id) := by
  obtain ⟨found, here, known, _⟩ := node_eq id inside
  simp [folding, here, flag_eq based id inside, Outline.folding, known]

theorem children_eq (id : Nat) (inside : id < outline.count) :
    children outline id = some (outline.children id) := by
  obtain ⟨found, here, _, after, _⟩ := node_eq id inside
  have within := siblings_eq (id + 1) (outline.skeleton.after id) (based.laid.ends id inside).2
  rw [after] at within
  simp only [children, here, folding_eq based id inside, Option.bind_eq_bind, Option.bind_some, Outline.children,
    Skeleton.childrenOf, after, within]
  split <;> rfl

/-- The walk up finds every node around, or a collapsed one before that. -/
theorem isShown_eq (id : Nat) (inside : id < outline.count) :
    isShown outline id = some (outline.isShown id) := by
  induction id using Nat.strongRecOn with
  | ind id inductionHypothesis =>
    obtain ⟨found, here, _, _, parent⟩ := node_eq id inside
    rw [isShown, here, Option.bind_eq_bind, Option.bind_some, Outline.isShown, decide_eq_true inside, Bool.true_and,
      Skeleton.ancestors, parent]
    cases around : found.parent with
    | none => simp
    | some outer =>
      have above := (based.laid.parent id outer (parent.trans around)).1
      have upper := inductionHypothesis outer above (Nat.lt_trans above inside)
      rw [Outline.isShown, decide_eq_true (Nat.lt_trans above inside), Bool.true_and] at upper
      have flag := flag_eq based outer (Nat.lt_trans above inside)
      cases folded : outline.isCollapsed outer <;> simp [above, flag, folded, upper]

private theorem find_eq (id : Nat) : find outline id = some (outline.node? id) := by
  by_cases inside : id < outline.count
  · obtain ⟨found, here, known, _⟩ := node_eq id inside
    simp only [find, if_pos inside, isShown_eq based id inside, here, node?, known, Option.bind_eq_bind,
      Option.bind_some]
    split <;> rfl
  · have hidden : ¬ outline.isShown id = true := mt (outline.lt_count_of_isShown id) inside
    rw [find, if_neg inside, node?, if_neg hidden]
    rfl

private theorem path_eq (id : Nat) : path outline id = some (outline.pathTo? id) := by
  by_cases inside : id < outline.count
  · obtain ⟨ranks, climbed⟩ := based.climbs id inside
    simp only [path, if_pos inside, isShown_eq based id inside, climb_eq id ranks climbed inside, pathTo?,
      climbed.path_eq, Option.bind_eq_bind, Option.bind_some]
    split <;> rfl
  · have hidden : ¬ outline.isShown id = true := mt (outline.lt_count_of_isShown id) inside
    rw [path, if_neg inside, pathTo?, if_neg hidden]
    rfl

private theorem lt_of_mem_children (id child : Nat) (inside : id < outline.count)
    (member : child ∈ outline.children id) : child < outline.count := by
  rw [Outline.children] at member
  split at member
  · exact Nat.lt_of_lt_of_le (lt_of_mem_siblings _ _ child member) (based.laid.ends id inside).2
  · cases member

private theorem descend_eq (id : Nat) (ranks : List Nat) (inside : id < outline.count) :
    descend outline id ranks = some (outline.descend? id ranks) := by
  induction ranks generalizing id with
  | nil => rfl
  | cons index rest inductionHypothesis =>
    rw [descend, children_eq based id inside, descend?]
    cases chosen : (outline.children id)[index]? with
    | none => simp [chosen]
    | some child =>
      have below := lt_of_mem_children based id child inside (List.mem_of_getElem? chosen)
      simp [chosen, inductionHypothesis child below]

private theorem resolve_eq (ranks : List Nat) : resolve outline ranks = some (outline.resolve? ranks) := by
  cases ranks with
  | nil => rfl
  | cons index rest =>
    rw [resolve, siblings_eq 0 outline.count (Nat.le_refl _), resolve?, Skeleton.roots, ← Outline.count]
    cases chosen : (outline.skeleton.siblings 0 outline.count)[index]? with
    | none => simp [chosen]
    | some root =>
      have inside := lt_of_mem_siblings _ _ root (List.mem_of_getElem? chosen)
      simp [chosen, descend_eq based root rest inside]

end Nodes

section Rows

variable {outline} {rules : Line.Rules} {source : Text} (based : Over rules source outline)

/-- The walk over the siblings of a task comes to its end. -/
def Fits (outline : Outline) : Task → Prop
  | .siblings start stop _ => stop ≤ outline.count ∧ ∃ count, outline.skeleton.Meets stop start count
  | .closing _ => True

theorem meets_of_stands (skeleton : Skeleton) (parent : Option Nat) (start : Nat) (forest : Forest)
    (stands : Stands skeleton.nodes parent start forest) :
    ∃ count, skeleton.Meets (start + forest.size) start count := by
  induction forest generalizing parent start with
  | nil => exact ⟨0, .here⟩
  | leaf extent rest restHypothesis =>
    obtain ⟨here, behind⟩ := stands
    obtain ⟨count, met⟩ := restHypothesis parent (start + 1) behind
    have inside := (Array.getElem?_eq_some_iff.mp here).1
    have stop : start + (Forest.leaf extent rest).size = start + 1 + rest.size := by
      rw [Forest.size, Nat.add_assoc]
    rw [← stop, ← after_leaf skeleton start parent extent here] at met
    refine ⟨count + 1, .onward (Nat.ne_of_lt ?_) inside met⟩
    exact Nat.lt_of_lt_of_le (skeleton.lt_after start) met.le
  | branch extent tag enclosed rest _ restHypothesis =>
    obtain ⟨here, _, behind⟩ := stands
    obtain ⟨count, met⟩ := restHypothesis parent (start + 1 + enclosed.size) behind
    have inside := (Array.getElem?_eq_some_iff.mp here).1
    have stop : start + (Forest.branch extent tag enclosed rest).size = start + 1 + enclosed.size + rest.size := by
      simp only [Forest.size, Nat.add_assoc]
    rw [← stop, ← after_branch skeleton start parent extent tag _ here] at met
    refine ⟨count + 1, .onward (Nat.ne_of_lt ?_) inside met⟩
    exact Nat.lt_of_lt_of_le (skeleton.lt_after start) met.le

include based

/-- The walk over the children of a node ends behind its subtree. -/
theorem meets_after (id : Nat) (inside : id < outline.count) :
    ∃ count, outline.skeleton.Meets (outline.skeleton.after id) (id + 1) count := by
  obtain ⟨found, _, known, _⟩ := node_eq id inside
  rw [based.skeleton] at known ⊢
  obtain ⟨outer, extent, _, _, facts⟩ := node_grown rules source id found known
  rcases facts with ⟨_, rfl⟩ | ⟨tag, enclosed, _, rfl, _, stands⟩
  · rw [after_leaf _ id outer extent known]
    exact ⟨0, .here⟩
  · rw [after_branch _ id outer extent tag _ known]
    exact meets_of_stands _ (some id) (id + 1) enclosed stands

private theorem perform_eq (task : Task) (fits : Fits outline task) :
    perform outline task = some (task.perform outline) ∧ ∀ next ∈ (task.perform outline).2, Fits outline next := by
  cases task with
  | closing row => exact ⟨rfl, fun next member => absurd member List.not_mem_nil⟩
  | siblings start stop level =>
    obtain ⟨ends, count, met⟩ := fits
    cases met with
    | here =>
      have passed : ¬ start < start := Nat.lt_irrefl start
      rw [perform, Task.perform, if_neg passed, if_neg passed]
      exact ⟨rfl, fun next member => absurd member List.not_mem_nil⟩
    | @onward _ count apart inside later =>
      obtain ⟨found, here, known, after, _⟩ := node_eq start inside
      have behind : outline.skeleton.after start ≤ stop := later.le
      have before : start < stop := Nat.lt_of_lt_of_le (outline.skeleton.lt_after start) behind
      have resumed : Fits outline (.siblings (outline.skeleton.after start) stop level) := ⟨ends, count, later⟩
      have within : Fits outline (.siblings (start + 1) (outline.skeleton.after start) (level + 1)) :=
        ⟨Nat.le_trans behind ends, meets_after based start inside⟩
      obtain ⟨first, last, all, _, _⟩ := parts_eq based start found known
      have folded := folding_eq based start inside
      rw [perform, Task.perform, if_pos before, if_pos before, here, known, Option.bind_eq_bind, Option.bind_some]
      dsimp only
      rw [← after, if_pos behind, Nat.min_eq_left behind, folded]
      cases outline.folding start with
      | leaf =>
        rw [all]
        refine ⟨rfl, ?_⟩
        simpa using resumed
      | collapsed =>
        rw [first]
        refine ⟨rfl, ?_⟩
        simpa using resumed
      | expanded =>
        rw [first, last]
        refine ⟨rfl, ?_⟩
        simpa [Fits] using And.intro within resumed

private theorem performAll_eq (tasks : List Task) (fits : ∀ task ∈ tasks, Fits outline task) :
    performAll outline tasks = some (Task.performAll outline tasks) := by
  fun_induction Task.performAll outline tasks with
  | case1 => rw [performAll]; rfl
  | case2 task rest inductionHypothesis =>
    obtain ⟨here, next⟩ := perform_eq based task (fits task List.mem_cons_self)
    have later : ∀ other ∈ (task.perform outline).2 ++ rest, Fits outline other := by
      intro other member
      rcases List.mem_append.mp member with new | old
      · exact next other new
      · exact fits other (List.mem_cons_of_mem task old)
    rw [performAll]
    split
    · next failed =>
      rw [here] at failed
      cases failed
    · next result made =>
      rw [here] at made
      cases made
      rw [inductionHypothesis later]
      rfl

private theorem rows_eq : rows outline = some outline.rows := by
  have walk := meets_of_stands outline.skeleton none 0 _ based.stands
  rw [Nat.zero_add, ← based.count] at walk
  apply performAll_eq based
  intro task member
  rw [List.mem_singleton.mp member]
  exact ⟨Nat.le_refl outline.count, walk⟩

end Rows

end Guarded

/-- Every reading of an outline, with its numbers checked, gives what it gives unchecked and no fault. -/
structure Faultless (outline : Outline) : Prop where
  resolve : ∀ ranks, Guarded.resolve outline ranks = some (outline.resolve? ranks)
  node : ∀ id, Guarded.find outline id = some (outline.node? id)
  path : ∀ id, Guarded.path outline id = some (outline.pathTo? id)
  folding : ∀ id, id < outline.count → Guarded.folding outline id = some (outline.folding id)
  children : ∀ id, id < outline.count → Guarded.children outline id = some (outline.children id)
  parts : ∀ (id : Nat) (node : Node), outline.skeleton.nodes[id]? = some node →
    Guarded.opening outline id = some (outline.skeleton.firstLine node) ∧
      Guarded.closing outline id = some (outline.skeleton.lastLine node) ∧
        Guarded.linesOf outline id = some (outline.skeleton.linesOf node) ∧
          Guarded.block outline id = some (outline.skeleton.block node) ∧
            Guarded.interior outline id = some (outline.skeleton.interior node)
  rows : Guarded.rows outline = some outline.rows

theorem Over.faultless {rules : Line.Rules} {source : Text} {outline : Outline} (based : Over rules source outline) :
    Faultless outline where
  resolve := Guarded.resolve_eq based
  node := Guarded.find_eq based
  path := Guarded.path_eq based
  folding := Guarded.folding_eq based
  children := Guarded.children_eq based
  parts := Guarded.parts_eq based
  rows := Guarded.rows_eq based

def Unflagged (outline : Outline) : Prop := ∀ id, outline.folding id = .leaf → outline.isCollapsed id = false

theorem folding_leaf_iff (outline : Outline) (id : Nat) :
    outline.folding id = .leaf ↔ outline.skeleton.nodes[id]?.bind Node.nameBytes = none := by
  rw [folding, ← Option.isNone_iff_eq_none]
  split
  · next plain => exact iff_of_true rfl plain
  · next folds =>
    refine iff_of_false ?_ folds
    split <;> exact Folding.noConfusion

section Unflagged

variable {outline : Outline} (clear : Unflagged outline)

include clear

theorem Unflagged.collapseNode (id : Nat) : Unflagged (outline.collapseNode id).2 := by
  by_cases expanded : outline.folding id = .expanded
  · intro other plain
    rw [Outline.collapseNode, if_pos expanded, folding_leaf_iff] at plain
    have before := (folding_leaf_iff outline other).mpr plain
    have apart : id ≠ other := by
      rintro rfl
      exact Folding.noConfusion (before.symm.trans expanded)
    rw [Outline.collapseNode, if_pos expanded, isCollapsed, Array.getElem?_setIfInBounds_ne apart]
    exact clear other before
  · rw [Outline.collapseNode, if_neg expanded]
    exact clear

theorem Unflagged.expandNode (id : Nat) : Unflagged (outline.expandNode id).2 := by
  by_cases folded : outline.folding id = .collapsed
  · intro other plain
    rw [Outline.expandNode, if_pos folded, folding_leaf_iff] at plain
    rw [outline.isCollapsed_expand id folded, clear other ((folding_leaf_iff outline other).mpr plain)]
    rfl
  · rw [Outline.expandNode, if_neg folded]
    exact clear

theorem Unflagged.flipNode (id : Nat) : Unflagged (outline.flipNode id).2 := by
  rw [Outline.flipNode]
  split
  · exact clear
  · exact clear.expandNode id
  · exact clear.collapseNode id

theorem Unflagged.onPath (path : List Nat) (act : Outline → Nat → Bool × Outline)
    (kept : ∀ id, Unflagged (act outline id).2) : Unflagged (outline.onPath path act).2 := by
  rw [Outline.onPath]
  split
  · exact kept _
  · exact clear

theorem Unflagged.perform (action : Action) : Unflagged (outline.perform action).2 := by
  cases action with
  | toggle path => exact clear.onPath path _ clear.flipNode
  | expand path => exact clear.onPath path _ clear.expandNode
  | collapse path => exact clear.onPath path _ clear.collapseNode
  | toggleId id =>
    rw [Outline.perform, toggleId]
    split
    · exact clear.flipNode id
    · exact clear

theorem Unflagged.run (actions : List Action) : Unflagged (outline.run actions).2 := by
  induction actions generalizing outline with
  | nil => exact clear
  | cons action rest inductionHypothesis => exact inductionHypothesis (clear.perform action)

end Unflagged

/-- Whatever actions are taken on the outline of a text, its nodes and its text stay and lie as they should, only
nodes that fold get flags, and no reading of it meets a fault. -/
theorem run_laid (rules : Line.Rules) (text : Text) (actions : List Action) :
    let fresh := Outline.ofText rules text
    let outline := (fresh.run actions).2
    outline.skeleton = fresh.skeleton ∧ outline.collapsed.size = outline.count ∧ outline.text = text ∧
      outline.skeleton.Laid ∧ (∀ id, outline.folding id = .leaf → outline.isCollapsed id = false) ∧
        Faultless outline := by
  intro fresh outline
  have based : Over rules text outline := ((over_ofText rules text).run_eq actions).1
  have clear : Unflagged fresh := fun id _ => isCollapsed_ofText rules text id
  exact ⟨based.skeleton, based.flags, based.text_eq, based.laid, clear.run actions, based.faultless⟩

end MarkupOutline.Outline
