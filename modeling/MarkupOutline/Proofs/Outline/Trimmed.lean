import MarkupOutline.Proofs.Line.Opening
import MarkupOutline.Proofs.Outline.Handles

/-! What an outline does not depend on. Rules that look at trimmed lines only see no margins: texts whose lines
are the same when trimmed have the same nodes, which differ in their depth alone. -/
namespace MarkupOutline

open Text

/-- Rules that read no more of a line than what trimming leaves of it. -/
structure Line.Rules.Trimming (rules : Line.Rules) : Prop where
  opener : ∀ first second, trim first = trim second → rules.opener? first = rules.opener? second
  closer : ∀ first second, trim first = trim second → rules.isCloser first = rules.isCloser second
  tags : ∀ first second, trim first = trim second → rules.tags first = rules.tags second

namespace Line.Angle

theorem trimming : rules.Trimming where
  opener first second same := by
    change opener? first = opener? second
    rw [opener?, opener?, same]
  closer first second same := by
    change isCloser first = isCloser second
    rw [isCloser, isCloser, same]
  tags first second same := by
    change tags first = tags second
    rw [tags, tags, same]

private theorem trimStart_opener (line : Text) (tag : Opener) (opens : opener? line = some tag) :
    ∃ tail, trimStart line = '<' :: (tag.name ++ tail) := by
  obtain ⟨cut, same, _⟩ := dropEndWhile_append isWhite (trimStart line)
  obtain ⟨middle, opening⟩ := opening_of_opener? line tag opens
  have spelled : dropEndWhile isWhite (trimStart line) = _ := opening.spelled
  refine ⟨middle ++ '>' :: tag.rest ++ cut, ?_⟩
  rw [same, spelled, List.cons_append, List.append_assoc]

end Line.Angle

namespace Block

def Extent.bare (extent : Extent) : Extent := { extent with depth := 0 }

theorem isBlank_congr (first second : Text) (same : trim first = trim second) : isBlank first = isBlank second := by
  apply Bool.eq_iff_iff.mpr
  rw [isBlank_iff, isBlank_iff, same]

section Trimming

variable {rules : Line.Rules} (trimming : rules.Trimming)

include trimming

theorem weightOf_congr (name first second : Text) (same : trim first = trim second) :
    weightOf rules name first = weightOf rules name second := by
  rw [weightOf, weightOf, trimming.tags first second same]

theorem openName?_congr (first second : Text) (same : trim first = trim second) :
    openName? rules first = openName? rules second := by
  rw [openName?, openName?, trimming.opener first second same]

private theorem scanClosing?_congr (name : Text) (count : Int) (first second : List Text)
    (same : first.map trim = second.map trim) :
    scanClosing? rules name count first = scanClosing? rules name count second := by
  induction first generalizing count second with
  | nil =>
    cases second with
    | nil => rfl
    | cons other others => cases same
  | cons line rest inductionHypothesis =>
    cases second with
    | nil => cases same
    | cons other others =>
      obtain ⟨here, later⟩ := List.cons.inj same
      rw [scanClosing?, scanClosing?, weightOf_congr trimming name line other here, inductionHypothesis _ others later]

private theorem followers_congr (line other : Text) (rest others : List Text) (here : trim line = trim other)
    (later : rest.map trim = others.map trim) : followers rules line rest = followers rules other others := by
  have scans : ∀ name, scanClosing? rules name 1 rest = scanClosing? rules name 1 others :=
    fun name => scanClosing?_congr trimming name 1 rest others later
  simp only [followers, openName?_congr trimming line other here, scans]

private theorem scanBlock?_congr (first second : List Text) (same : first.map trim = second.map trim) :
    (scanBlock? rules first).map Extent.bare = (scanBlock? rules second).map Extent.bare := by
  induction first generalizing second with
  | nil =>
    cases second with
    | nil => rfl
    | cons other others => cases same
  | cons line rest inductionHypothesis =>
    cases second with
    | nil => cases same
    | cons other others =>
      obtain ⟨here, later⟩ := List.cons.inj same
      have shift : Extent.bare ∘ Extent.shift 1 = Extent.shift 1 ∘ Extent.bare := rfl
      rw [scanBlock?, scanBlock?, isBlank_congr line other here]
      split
      · rw [Option.map_map, Option.map_map, shift, ← Option.map_map, ← Option.map_map, inductionHypothesis others later]
      · rw [followers_congr trimming line other rest others here later]
        rfl

theorem foldingOpener?_congr (first second last final : Text) (starts : trim first = trim second)
    (ends : trim last = trim final) : foldingOpener? rules first last = foldingOpener? rules second final := by
  rw [foldingOpener?, foldingOpener?, trimming.opener first second starts, trimming.closer last final ends]

end Trimming

end Block

namespace Outline

open Block

theorem foldingTag?_congr {rules : Line.Rules} (trimming : rules.Trimming) (first second : List Text)
    (same : first.map trim = second.map trim) : foldingTag? rules first = foldingTag? rules second := by
  have size : first.length = second.length := by simpa using congrArg List.length same
  have pick : ∀ (choose : List Text → Option Text),
      (∀ lines : List Text, choose (lines.map trim) = (choose lines).map trim) →
      trim ((choose first).getD []) = trim ((choose second).getD []) := by
    intro choose natural
    have chosen := congrArg choose same
    rw [natural, natural] at chosen
    cases left : choose first <;> cases right : choose second <;> simp_all
  rw [foldingTag?, foldingTag?, size, foldingOpener?_congr trimming _ _ _ _
    (pick List.head? fun _ => List.head?_map) (pick List.getLast? fun _ => List.getLast?_map)]

namespace Forest

def bare : Forest → Forest
  | nil => nil
  | leaf extent rest => leaf extent.bare rest.bare
  | branch extent tag inside rest => branch extent.bare tag inside.bare rest.bare

theorem size_bare (forest : Forest) : forest.bare.size = forest.size := by
  induction forest with
  | nil => rfl
  | leaf extent rest restHypothesis => rw [bare, size, size, restHypothesis]
  | branch extent tag inside rest insideHypothesis restHypothesis =>
    rw [bare, size, size, insideHypothesis, restHypothesis]

private theorem ofLines_congr {rules : Line.Rules} (trimming : rules.Trimming) (start : Nat) (first second : List Text)
    (same : first.map trim = second.map trim) :
    (ofLines rules start first).bare = (ofLines rules start second).bare := by
  induction size : first.length using Nat.strongRecOn generalizing start first second with
  | ind size inductionHypothesis =>
    have scanned := scanBlock?_congr trimming first second same
    have windows : ∀ lower upper, (window first lower upper).map trim = (window second lower upper).map trim := by
      intro lower upper
      rw [window_map, window_map, same]
    cases found : scanBlock? rules first with
    | none =>
      rw [found, Option.map_none, eq_comm, Option.map_eq_none_iff] at scanned
      rw [ofLines_none rules start first found, ofLines_none rules start second scanned]
    | some extent =>
      rw [found, Option.map_some, eq_comm, Option.map_eq_some_iff] at scanned
      obtain ⟨other, again, place⟩ := scanned
      obtain ⟨nonempty, inside⟩ := scanBlock?_bounds rules first extent found
      have first_eq : other.first = extent.first := (congrArg Extent.first place :)
      have stop_eq : other.stop = extent.stop := (congrArg Extent.stop place :)
      have shifted : (other.shift start).bare = (extent.shift start).bare := by
        rw [Extent.bare, Extent.bare, Extent.shift, Extent.shift, first_eq, stop_eq]
      have behind := inductionHypothesis _ (by rw [List.length_drop]; omega) (start + extent.stop)
        (first.drop extent.stop) (second.drop extent.stop) (by rw [List.map_drop, List.map_drop, same]) rfl
      have block := foldingTag?_congr trimming _ _ (windows extent.first extent.stop)
      rw [ofLines_some rules start first extent found, ofLines_some rules start second other again, first_eq, stop_eq,
        ← block]
      dsimp only
      split
      · rw [bare, bare, shifted, behind]
      · have within := inductionHypothesis _ (by rw [length_window _ _ _ (by omega)]; omega)
          (start + (extent.first + 1))
          _ _ (windows (extent.first + 1) (extent.stop - 1)) rfl
        rw [bare, bare, shifted, behind, within]

end Forest

def Node.bare (node : Node) : Node := { node with depth := 0 }

private theorem Forest.nodes_bare (forest : Forest) (parent : Option Nat) (start : Nat) :
    forest.bare.nodes parent start = (forest.nodes parent start).map Node.bare := by
  induction forest generalizing parent start with
  | nil => rfl
  | leaf extent rest restHypothesis =>
    rw [bare, nodes, nodes, List.map_cons, restHypothesis]
    rfl
  | branch extent tag inside rest insideHypothesis restHypothesis =>
    rw [bare, nodes, nodes, List.map_cons, List.map_append, size_bare, insideHypothesis, restHypothesis]
    rfl

namespace Skeleton

variable (skeleton : Skeleton)

def bare : Skeleton := ⟨skeleton.lines.map trim, skeleton.nodes.map Node.bare⟩

theorem getElem?_bare (id : Nat) : skeleton.bare.nodes[id]? = skeleton.nodes[id]?.map Node.bare := Array.getElem?_map

private theorem after_bare (id : Nat) : skeleton.bare.after id = skeleton.after id := by
  rw [after, getElem?_bare, Option.map_map, after]
  rfl

theorem parent?_bare (id : Nat) : skeleton.bare.parent? id = skeleton.parent? id := by
  rw [parent?, getElem?_bare, parent?]
  cases skeleton.nodes[id]? <;> rfl

private theorem siblings_bare (start stop : Nat) :
    skeleton.bare.siblings start stop = skeleton.siblings start stop := by
  fun_induction skeleton.siblings start stop with
  | case1 start before inductionHypothesis =>
    rw [siblings, if_pos before, after_bare, inductionHypothesis]
  | case2 start passed => rw [siblings, if_neg passed]

private theorem ancestors_bare (id : Nat) : skeleton.bare.ancestors id = skeleton.ancestors id := by
  induction id using Nat.strongRecOn with
  | ind id inductionHypothesis =>
    rw [ancestors, parent?_bare, ancestors]
    cases skeleton.parent? id with
    | none => rfl
    | some outer =>
      dsimp only
      split
      · next above => rw [inductionHypothesis outer above]
      · rfl

private theorem place_bare (id : Nat) : skeleton.bare.place id = skeleton.place id := by
  have ranks : skeleton.bare.rank = skeleton.rank := by
    funext id
    rw [rank, parent?_bare, siblings_bare, rank]
  rw [place, ranks, ancestors_bare, place]

end Skeleton

private theorem bare_ofSource (rules : Line.Rules) (text : Text) : (Skeleton.ofSource (.ofText rules text)).bare =
    ⟨((Text.lines text).map trim).toArray, ((Forest.ofLines rules 0 (Text.lines text)).bare.nodes none 0).toArray⟩ := by
  have lines : (Skeleton.ofSource (.ofText rules text)).lines = (Text.lines text).toArray := rfl
  rw [Skeleton.bare, ofSource_nodes, lines, List.map_toArray, List.map_toArray, Forest.nodes_bare]

theorem foldingTag?_opener {rules : Line.Rules} {lines : List Text} {tag : Line.Opener}
    (folds : foldingTag? rules lines = some tag) : rules.opener? (lines.head?.getD []) = some tag := by
  rw [foldingTag?] at folds
  split at folds
  · rw [foldingOpener?] at folds
    split at folds
    · next found opens =>
      split at folds
      · cases folds
        exact opens
      · cases folds
    · cases folds
  · cases folds

/-- The name that is cut out of the first line of a node is the one under which the node folds. -/
theorem name?_ofText (text : Text) (id : Nat) (node : Node)
    (known : (Skeleton.ofSource (.ofText Line.Angle.rules text)).nodes[id]? = some node) :
    (Skeleton.ofSource (.ofText Line.Angle.rules text)).name? node =
      (foldingTag? Line.Angle.rules (window (Text.lines text) node.first node.stop)).map Line.Opener.name := by
  obtain ⟨outer, extent, nonempty, inside, facts⟩ := node_grown Line.Angle.rules text id node known
  rcases facts with ⟨flat, rfl⟩ | ⟨tag, enclosed, folds, rfl, _, _⟩
  · change _ = (foldingTag? Line.Angle.rules (window (Text.lines text) extent.first extent.stop)).map Line.Opener.name
    rw [flat]
    rfl
  · have opens := foldingTag?_opener folds
    rw [List.head?_eq_getElem?, getElem?_window _ _ _ _ nonempty, Nat.add_zero] at opens
    obtain ⟨tail, starts⟩ := Line.Angle.trimStart_opener _ tag opens
    have first : (Skeleton.ofSource (.ofText Line.Angle.rules text)).firstLine
        (nodeOf outer extent (some tag) enclosed.size) = (Text.lines text)[extent.first]?.getD [] := by
      rw [Skeleton.firstLine, Skeleton.line, ← List.getElem?_toArray]
      rfl
    change _ = (foldingTag? Line.Angle.rules (window (Text.lines text) extent.first extent.stop)).map Line.Opener.name
    rw [folds, Skeleton.name?, first, starts]
    exact byteSlice?_behind '<' rfl tag.name tail

private theorem pathTo?_ofText (rules : Line.Rules) (text : Text) (id : Nat) :
    (Outline.ofText rules text).pathTo? id =
      if id < (Outline.ofText rules text).count then some ((Skeleton.ofSource (.ofText rules text)).place id)
      else none := by
  by_cases inside : id < (Outline.ofText rules text).count
  · have shown := node?_ofText rules text id inside
    rw [node?_isSome] at shown
    rw [pathTo?, if_pos shown, if_pos inside]
    rfl
  · have hidden : ¬ (Outline.ofText rules text).isShown id = true := mt (Outline.lt_count_of_isShown _ id) inside
    rw [pathTo?, if_neg hidden, if_neg inside]

private theorem folding_bare (rules : Line.Rules) (text : Text) (id : Nat) : (Outline.ofText rules text).folding id =
      if ((Skeleton.ofSource (.ofText rules text)).bare.nodes[id]?.bind Node.nameBytes).isNone then .leaf
      else .expanded := by
  have named : (Skeleton.ofSource (.ofText rules text)).bare.nodes[id]?.bind Node.nameBytes =
      (Skeleton.ofSource (.ofText rules text)).nodes[id]?.bind Node.nameBytes := by
    rw [Skeleton.getElem?_bare, Option.bind_map]
    rfl
  rw [folding, isCollapsed_ofText, named]
  rfl

private theorem name?_bare (text : Text) (id : Nat) :
    (Skeleton.ofSource (.ofText Line.Angle.rules text)).nodes[id]?.bind
        (Skeleton.ofSource (.ofText Line.Angle.rules text)).name? =
      (Skeleton.ofSource (.ofText Line.Angle.rules text)).bare.nodes[id]?.bind fun node =>
        (foldingTag? Line.Angle.rules (window (Text.lines text) node.first node.stop)).map Line.Opener.name := by
  rw [Skeleton.getElem?_bare, Option.bind_map]
  cases known : (Skeleton.ofSource (.ofText Line.Angle.rules text)).nodes[id]? with
  | none => rfl
  | some node => exact name?_ofText text id node known

/-- Outlines that are the same but for the depths of their nodes and the white space around their lines. -/
structure Alike (one other : Outline) : Prop where
  count : one.count = other.count
  node : ∀ id : Nat, one.skeleton.nodes[id]?.map Node.bare = other.skeleton.nodes[id]?.map Node.bare
  path : ∀ id, one.pathTo? id = other.pathTo? id
  folding : ∀ id, one.folding id = other.folding id
  name : ∀ id : Nat, one.skeleton.nodes[id]?.bind one.skeleton.name? =
    other.skeleton.nodes[id]?.bind other.skeleton.name?
  lines : one.skeleton.lines.map trim = other.skeleton.lines.map trim

/-- Texts whose lines are the same when trimmed have outlines that are alike. -/
theorem alike_ofText (one other : Text) (same : (Text.lines one).map trim = (Text.lines other).map trim) :
    Alike (Outline.ofText Line.Angle.rules one) (Outline.ofText Line.Angle.rules other) := by
  have bare : (Skeleton.ofSource (.ofText Line.Angle.rules one)).bare =
      (Skeleton.ofSource (.ofText Line.Angle.rules other)).bare := by
    rw [bare_ofSource, bare_ofSource, same, Forest.ofLines_congr Line.Angle.trimming 0 _ _ same]
  have count : (Outline.ofText Line.Angle.rules one).count = (Outline.ofText Line.Angle.rules other).count := by
    have sizes := congrArg (fun skeleton : Skeleton => skeleton.nodes.size) bare
    simp only [Skeleton.bare, Array.size_map] at sizes
    exact sizes
  have tags : ∀ first stop, foldingTag? Line.Angle.rules (window (Text.lines one) first stop) =
      foldingTag? Line.Angle.rules (window (Text.lines other) first stop) := by
    intro first stop
    apply foldingTag?_congr Line.Angle.trimming
    rw [window_map, window_map, same]
  refine ⟨count, ?_, ?_, ?_, ?_, congrArg Skeleton.lines bare⟩
  · intro id
    change (Skeleton.ofSource (.ofText Line.Angle.rules one)).nodes[id]?.map Node.bare = _
    rw [← Skeleton.getElem?_bare, bare, Skeleton.getElem?_bare]
    rfl
  · intro id
    rw [pathTo?_ofText, pathTo?_ofText, count, ← Skeleton.place_bare, bare, Skeleton.place_bare]
  · intro id
    rw [folding_bare, folding_bare, bare]
  · intro id
    have names := name?_bare one id
    simp only [bare, tags] at names
    exact names.trans (name?_bare other id).symm

end Outline

end MarkupOutline
