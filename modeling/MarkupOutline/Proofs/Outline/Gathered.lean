import MarkupOutline.Proofs.Outline.Flattened
import MarkupOutline.Proofs.Outline.Relocated
import MarkupOutline.Proofs.Outline.Trimmed

/-! Blank lines and margins do not fold. Of any lines, those that are not blank and have no margins give the same
outline; only the numbers of its lines are others. -/
namespace MarkupOutline

namespace Text

/-- The lines that are not blank, without their margins. -/
def gist (lines : List Text) : List Text := (solid lines).map trim

def solidBefore (lines : List Text) (number : Nat) : Nat := (gist (lines.take number)).length

theorem gist_append (front back : List Text) : gist (front ++ back) = gist front ++ gist back := by
  rw [gist, solid_append, List.map_append, gist, gist]

section Line

variable {line : Text} {rest : List Text}

theorem gist_blank (blank : isBlank line = true) : gist (line :: rest) = gist rest := by
  rw [gist, solid, List.filter_cons_of_neg (by simp [blank]), gist, solid]

theorem gist_solid (starts : isBlank line = false) : gist (line :: rest) = trim line :: gist rest := by
  rw [gist, solid, List.filter_cons_of_pos (by simp [starts]), List.map_cons, gist, solid]

theorem solidBefore_blank (blank : isBlank line = true) (number : Nat) :
    solidBefore (line :: rest) (number + 1) = solidBefore rest number := by
  rw [solidBefore, List.take_succ_cons, gist_blank blank, solidBefore]

theorem solidBefore_solid (starts : isBlank line = false) (number : Nat) :
    solidBefore (line :: rest) (number + 1) = solidBefore rest number + 1 := by
  rw [solidBefore, List.take_succ_cons, gist_solid starts, List.length_cons, solidBefore]

end Line

theorem solidBefore_succ (lines : List Text) (number : Nat) (line : Text) (here : lines[number]? = some line)
    (starts : isBlank line = false) : solidBefore lines (number + 1) = solidBefore lines number + 1 := by
  rw [solidBefore, List.take_add_one, here, gist_append, Option.toList_some, gist_solid starts, List.length_append,
    solidBefore]
  rfl

theorem solidBefore_add (lines : List Text) (start distance : Nat) :
    solidBefore lines (start + distance) = solidBefore lines start + solidBefore (lines.drop start) distance := by
  rw [solidBefore, List.take_add, gist_append, List.length_append, solidBefore, solidBefore]

private theorem solidBefore_length (lines : List Text) : solidBefore lines lines.length = (gist lines).length := by
  rw [solidBefore, List.take_length]

theorem window_gist (lines : List Text) (start stop : Nat) (ordered : start ≤ stop) :
    window (gist lines) (solidBefore lines start) (solidBefore lines stop) = gist (window lines start stop) := by
  obtain ⟨size, rfl⟩ := Nat.exists_eq_add_of_le ordered
  have split := gist_append (lines.take start) (lines.drop start)
  have within := gist_append ((lines.drop start).take size) ((lines.drop start).drop size)
  rw [List.take_append_drop] at split within
  have front : (gist lines).drop (solidBefore lines start) = gist (lines.drop start) := by
    rw [split, solidBefore, List.drop_left]
  rw [window, front, solidBefore_add, Nat.add_sub_cancel_left, window, Nat.add_sub_cancel_left, within, solidBefore,
    List.take_left]

/-- Lines that have other white space around them, and other blank lines between them. -/
inductive Respaced : List Text → List Text → Prop where
  | done : Respaced [] []
  | line {rest others : List Text} (body front back before behind : Text)
      (white : ∀ letter ∈ front ++ back ++ before ++ behind, isWhite letter = true) (later : Respaced rest others) :
      Respaced ((front ++ (body ++ back)) :: rest) ((before ++ (body ++ behind)) :: others)
  | dropped {line : Text} {rest others : List Text} (blank : isBlank line = true) (later : Respaced rest others) :
      Respaced (line :: rest) others
  | inserted {line : Text} {rest others : List Text} (blank : isBlank line = true) (later : Respaced rest others) :
      Respaced rest (line :: others)

private theorem trim_between (front line back : Text) (before : ∀ letter ∈ front, isWhite letter = true)
    (behind : ∀ letter ∈ back, isWhite letter = true) : trim (front ++ (line ++ back)) = trim line := by
  rw [trim_behind front _ before, trim_before line back behind]

private theorem Respaced.gist_eq {lines others : List Text} (respaced : Respaced lines others) :
    gist lines = gist others := by
  induction respaced with
  | done => rfl
  | @line rest others body front back before behind white later inductionHypothesis =>
    simp only [List.mem_append] at white
    have first := trim_between front body back (fun letter member => white letter (by simp [member]))
      (fun letter member => white letter (by simp [member]))
    have second := trim_between before body behind (fun letter member => white letter (by simp [member]))
      (fun letter member => white letter (by simp [member]))
    have blank := Block.isBlank_congr _ _ (first.trans second.symm)
    cases starts : isBlank (before ++ (body ++ behind)) with
    | true => rw [gist_blank starts, gist_blank (blank.trans starts), inductionHypothesis]
    | false => rw [gist_solid starts, gist_solid (blank.trans starts), first, second, inductionHypothesis]
  | dropped blank later inductionHypothesis => rw [gist_blank blank, inductionHypothesis]
  | inserted blank later inductionHypothesis => rw [gist_blank blank, inductionHypothesis]

end Text

namespace Block

open Text

private theorem depthOf_trim (line : Text) : depthOf (trim line) = 0 := by
  obtain ⟨tail, same, _⟩ := dropEndWhile_append isWhite (trimStart line)
  change line.dropWhile isWhite = trim line ++ tail at same
  have starts := List.head?_dropWhile_not isWhite line
  rw [same] at starts
  cases trimmed : trim line with
  | nil => rfl
  | cons letter rest =>
    rw [trimmed] at starts
    have dark : isWhite letter = false := starts
    rw [depthOf, List.takeWhile_cons_of_neg (by simp [dark])]
    rfl

/-- The place of a block among the lines that are not blank. -/
def Extent.gathered (lines : List Text) (extent : Extent) : Extent :=
  ⟨solidBefore lines extent.first, solidBefore lines extent.stop, 0⟩

variable {rules : Line.Rules}

section Scans

variable (trimming : rules.Trimming) (silent : rules.tags [] = [])

include trimming

private theorem weightOf_trim (name line : Text) : weightOf rules name (trim line) = weightOf rules name line :=
  weightOf_congr trimming name _ _ (trim_trim line)

include silent

theorem weightOf_blank (name : Text) {line : Text} (blank : isBlank line = true) : weightOf rules name line = 0 := by
  have tags : rules.tags line = [] := by
    rw [← silent]
    exact trimming.tags line [] (((isBlank_iff line).mp blank).trans rfl)
  rw [weightOf, tags]
  rfl

private theorem scanClosing?_gist (name : Text) (count : Int) (positive : 0 < count) (lines : List Text) :
    scanClosing? rules name count (gist lines) = (scanClosing? rules name count lines).map (solidBefore lines) := by
  induction lines generalizing count with
  | nil => rfl
  | cons line rest inductionHypothesis =>
    cases starts : isBlank line with
    | true =>
      rw [gist_blank starts, inductionHypothesis count positive, scanClosing?,
        weightOf_blank trimming silent name starts, Int.add_zero, if_neg (Int.not_le.mpr positive), Option.map_map]
      congr 1
      funext number
      exact (solidBefore_blank starts number).symm
    | false =>
      rw [gist_solid starts, scanClosing?, weightOf_trim trimming, scanClosing?]
      split
      · rfl
      · next more =>
        rw [inductionHypothesis _ (Int.not_le.mp more), Option.map_map, Option.map_map]
        congr 1
        funext number
        exact (solidBefore_solid starts number).symm

theorem scanClosing?_solid (name : Text) (count : Int) (positive : 0 < count) (lines : List Text) (position : Nat)
    (found : scanClosing? rules name count lines = some position) :
    ∃ line, lines[position]? = some line ∧ isBlank line = false := by
  induction lines generalizing count position with
  | nil => cases found
  | cons line rest inductionHypothesis =>
    rw [scanClosing?] at found
    split at found
    · next spent =>
      cases found
      refine ⟨line, rfl, Bool.eq_false_iff.mpr fun blank => ?_⟩
      rw [weightOf_blank trimming silent name blank] at spent
      omega
    · next more =>
      obtain ⟨inner, scanned, rfl⟩ := Option.map_eq_some_iff.mp found
      exact inductionHypothesis _ (Int.not_le.mp more) inner scanned

private theorem followers_last (line : Text) (rest : List Text) (several : 0 < followers rules line rest) :
    ∃ last, rest[followers rules line rest - 1]? = some last ∧ isBlank last = false := by
  rw [followers] at several ⊢
  cases found : (openName? rules line).bind fun name => scanClosing? rules name 1 rest with
  | none =>
    rw [found] at several
    exact absurd several (Nat.lt_irrefl 0)
  | some distance =>
    obtain ⟨name, _, scanned⟩ := Option.bind_eq_some_iff.mp found
    exact scanClosing?_solid trimming silent name 1 (by decide) rest distance scanned

private theorem followers_gist (line : Text) (rest : List Text) :
    followers rules (trim line) (gist rest) = solidBefore rest (followers rules line rest) := by
  rw [followers, followers, openName?_congr trimming _ _ (trim_trim line)]
  cases openName? rules line with
  | none => rfl
  | some name =>
    rw [Option.bind_some, Option.bind_some, scanClosing?_gist trimming silent name 1 (by decide)]
    cases scanned : scanClosing? rules name 1 rest with
    | none => rfl
    | some distance =>
      obtain ⟨last, here, starts⟩ := scanClosing?_solid trimming silent name 1 (by decide) rest distance scanned
      exact (solidBefore_succ rest distance last here starts).symm

private theorem scanBlock?_gist (lines : List Text) :
    scanBlock? rules (gist lines) = (scanBlock? rules lines).map (Extent.gathered lines) := by
  induction lines with
  | nil => rfl
  | cons line rest inductionHypothesis =>
    cases starts : isBlank line with
    | true =>
      rw [gist_blank starts, inductionHypothesis, scanBlock?, if_pos starts, Option.map_map]
      congr 1
      funext extent
      simp only [Function.comp_apply, Extent.gathered, Extent.shift, Nat.add_comm 1, solidBefore_blank starts]
    | false =>
      have still : isBlank (trim line) = false := (isBlank_congr _ _ (trim_trim line)).trans starts
      rw [gist_solid starts, scanBlock?, if_neg (by simp [still]), scanBlock?, if_neg (by simp [starts]),
        followers_gist trimming silent, depthOf_trim, Option.map_some, Extent.gathered]
      simp only [Nat.add_comm 1, solidBefore_solid starts]
      rfl

private theorem scanRange?_gist (lines : List Text) (start stop : Nat) (ordered : start ≤ stop)
    (inside : stop ≤ lines.length) : scanRange? rules (gist lines) (solidBefore lines start) (solidBefore lines stop) =
      (scanRange? rules lines start stop).map (Extent.gathered lines) := by
  rw [scanRange?, window_gist lines start stop ordered, scanBlock?_gist trimming silent, scanRange?, Option.map_map,
    Option.map_map]
  cases found : scanBlock? rules (window lines start stop) with
  | none => rfl
  | some extent =>
    have bounds := scanBlock?_bounds rules _ extent found
    rw [length_window _ _ _ inside] at bounds
    have part : ∀ number, number ≤ stop - start →
        solidBefore lines (start + number) =
          solidBefore lines start + solidBefore (window lines start stop) number := by
      intro number within
      have front : (window lines start stop).take number = (lines.drop start).take number := by
        rw [window, List.take_take, Nat.min_eq_left within]
      rw [solidBefore_add, solidBefore.eq_1 (window lines start stop), front, solidBefore.eq_1 (lines.drop start)]
    simp only [Option.map_some, Function.comp_apply, Extent.gathered, Extent.shift, part extent.first (by omega),
      part extent.stop bounds.2]

variable {lines : List Text} {start stop : Nat} {extent : Extent}

/-- The first line and the last line of a block are not blank. -/
theorem scanRange?_ends (inside : stop ≤ lines.length) (found : scanRange? rules lines start stop = some extent) :
    (∃ first, lines[extent.first]? = some first ∧ isBlank first = false) ∧
      ∃ last, lines[extent.stop - 1]? = some last ∧ isBlank last = false := by
  obtain ⟨line, here, _, _, _, starts, stops, _⟩ := (scanRange?_eq_some_iff extent inside).mp found
  refine ⟨⟨line, here, starts⟩, ?_⟩
  rcases Nat.eq_zero_or_pos (followers rules line (window lines (extent.first + 1) stop)) with alone | several
  · have same : extent.stop - 1 = extent.first := by omega
    exact ⟨line, same ▸ here, starts⟩
  · obtain ⟨last, known, ends⟩ := followers_last trimming silent line _ several
    have within := followers_le rules line (window lines (extent.first + 1) stop)
    rw [length_window _ _ _ inside] at within
    rw [getElem?_window _ _ _ _ (by omega)] at known
    have same : extent.stop - 1 =
        extent.first + 1 + (followers rules line (window lines (extent.first + 1) stop) - 1) := by omega
    exact ⟨last, same ▸ known, ends⟩

end Scans

end Block

namespace Outline

open Text Block

section Gathered

variable {rules : Line.Rules} (trimming : rules.Trimming) (silent : rules.tags [] = []) {lines : List Text}

include trimming silent

theorem foldingTag?_gist {start stop : Nat} {extent : Extent} (inside : stop ≤ lines.length)
    (found : scanRange? rules lines start stop = some extent) :
    foldingTag? rules (gist (window lines extent.first extent.stop)) =
      foldingTag? rules (window lines extent.first extent.stop) := by
  obtain ⟨⟨first, here, starts⟩, last, there, ends⟩ := scanRange?_ends trimming silent inside found
  have bounds := scanRange?_bounds rules lines start stop extent inside found
  by_cases long : extent.first + 1 < extent.stop
  · have block := window_ends lines extent.first extent.stop long (by omega)
    rw [here, there, Option.getD_some, Option.getD_some] at block
    rw [block, gist_solid starts, gist_append, gist_solid ends, foldingTag?, foldingTag?,
      if_pos (by rw [List.length_cons, List.length_append, List.length_cons]; omega), if_pos (by simp),
        ← List.cons_append, ← List.cons_append, List.getLast?_append, List.getLast?_append]
    exact foldingOpener?_congr trimming _ _ _ _ (trim_trim first) (trim_trim last)
  · obtain ⟨_, same⟩ := List.getElem?_eq_some_iff.mp here
    have block : window lines extent.first extent.stop = [first] := by
      rw [window_cons lines _ _ bounds.2.1 (by omega), same, window_empty _ _ _ (by omega)]
    rw [block, gist_solid starts]
    rfl

/-- The forest of some lines is that of the lines that are not blank, its blocks being in other places. -/
theorem Forest.Grown.gathered {start stop : Nat} {forest : Forest} (grown : Grown rules lines start stop forest)
    (ordered : start ≤ stop) (inside : stop ≤ lines.length) :
    Grown rules (gist lines) (solidBefore lines start) (solidBefore lines stop)
      (forest.relocated (Extent.gathered lines)) := by
  have moved : ∀ {start stop extent}, start ≤ stop → stop ≤ lines.length →
      scanRange? rules lines start stop = some extent →
        scanRange? rules (gist lines) (solidBefore lines start) (solidBefore lines stop) =
          some (extent.gathered lines) ∧
        foldingTag? rules (window (gist lines) (extent.gathered lines).first (extent.gathered lines).stop) =
          foldingTag? rules (window lines extent.first extent.stop) := by
    intro start stop extent ordered inside found
    have bounds := scanRange?_bounds rules lines start stop extent inside found
    rw [scanRange?_gist trimming silent lines start stop ordered inside, found, Extent.gathered,
      window_gist lines _ _ (Nat.le_of_lt bounds.2.1)]
    exact ⟨rfl, foldingTag?_gist trimming silent inside found⟩
  induction grown with
  | @nil start stop done =>
    exact .nil (by rw [scanRange?_gist trimming silent lines start stop ordered inside, done]; rfl)
  | @leaf start stop extent rest found flat behind restHypothesis =>
    have bounds := scanRange?_bounds rules lines start stop extent inside found
    obtain ⟨place, tag⟩ := moved ordered inside found
    exact .leaf place (tag.trans flat) (restHypothesis bounds.2.2 inside)
  | @branch start stop extent tag enclosed rest found folds within behind insideHypothesis restHypothesis =>
    have bounds := scanRange?_bounds rules lines start stop extent inside found
    have long := foldingTag?_long folds
    rw [length_window _ _ _ (by omega)] at long
    obtain ⟨place, same⟩ := moved ordered inside found
    obtain ⟨⟨first, here, starts⟩, last, there, ends⟩ := scanRange?_ends trimming silent inside found
    have lower := solidBefore_succ lines extent.first first here starts
    have upper := solidBefore_succ lines (extent.stop - 1) last there ends
    rw [Nat.sub_add_cancel (by omega)] at upper
    have inner := insideHypothesis (by omega) (by omega)
    rw [lower, Nat.eq_sub_of_add_eq upper.symm] at inner
    exact .branch place (same.trans folds) inner (restHypothesis bounds.2.2 inside)

theorem Forest.ofLines_gist : ofLines rules 0 (gist lines) =
    (ofLines rules 0 lines).relocated (Extent.gathered lines) := by
  have grown := (grown_whole rules lines).gathered trimming silent (Nat.zero_le _) (Nat.le_refl _)
  rw [solidBefore_length] at grown
  exact (grown_whole rules (gist lines)).unique grown

/-- Blank lines and margins do not show in the nodes but for where the blocks are. -/
theorem nodes_gist (text : Text) (id : Nat) :
    (Skeleton.ofSource (.ofText rules text)).nodes[id]?.map (Node.relocated (Extent.gathered (Text.lines text)) 0) =
      ((Forest.ofLines rules 0 (gist (Text.lines text))).nodes none 0)[id]? := by
  have nodes := Forest.nodes_relocated (Forest.ofLines rules 0 (Text.lines text)) (Extent.gathered (Text.lines text)) 0
    none 0
  rw [ofSource_nodes, Forest.ofLines_gist trimming silent, List.getElem?_toArray, ← List.getElem?_map, ← nodes]
  rfl

end Gathered

theorem Over.found {rules : Line.Rules} {text : Text} {outline : Outline} (based : Over rules text outline) {id : Nat}
    {node : Node} (known : outline.skeleton.nodes[id]? = some node) : ∃ first last,
      last ≤ (Text.lines text).length ∧ scanRange? rules (Text.lines text) first last = some node.extent := by
  have upper := lt_count known
  rw [based.count] at upper
  obtain ⟨outer, extent, first, last, _, ends, found, facts⟩ :=
    (Forest.grown_whole rules (Text.lines text)).found (Nat.le_refl _) based.stands id (Nat.zero_le id) (by omega)
  refine ⟨first, last, ends, ?_⟩
  rcases facts with ⟨_, here⟩ | ⟨_, _, _, here, _⟩
  · cases here.symm.trans known
    exact found
  · cases here.symm.trans known
    exact found

private theorem gist_block (rules : Line.Rules) (text : Text) (id : Nat) (node : Node)
    (known : (Outline.ofText rules text).skeleton.nodes[id]? = some node) :
    gist ((Outline.ofText rules text).skeleton.block node).lines = window (gist (Text.lines text))
      (node.relocated (Extent.gathered (Text.lines text)) 0).first
      (node.relocated (Extent.gathered (Text.lines text)) 0).stop := by
  have based := over_ofText rules text
  rw [Block.lines, based.lines_content known]
  exact (window_gist _ _ _ (Nat.le_of_lt (based.block_bounds id node known).1)).symm

/-- The name of a node shows without blank lines and margins. -/
theorem name?_gist (text : Text) (id : Nat) :
    (Outline.ofText Line.Angle.rules text).skeleton.nodes[id]?.bind (Outline.ofText Line.Angle.rules text).skeleton.name? =
      ((Outline.ofText Line.Angle.rules text).skeleton.nodes[id]?.map fun node =>
        gist ((Outline.ofText Line.Angle.rules text).skeleton.block node).lines).bind fun lines =>
          (foldingTag? Line.Angle.rules lines).map Line.Opener.name := by
  have based := over_ofText Line.Angle.rules text
  cases known : (Outline.ofText Line.Angle.rules text).skeleton.nodes[id]? with
  | none => rfl
  | some node =>
    obtain ⟨first, last, inside, found⟩ := based.found known
    have tag := foldingTag?_gist Line.Angle.trimming rfl inside found
    rw [Option.map_some, Option.bind_some, Option.bind_some, Block.lines, based.lines_content known]
    exact (name?_ofText text id node known).trans (congrArg _ tag.symm)

/-- Outlines that are the same but for blank lines, margins and depths. -/
structure Corresponds (one other : Outline) : Prop where
  count : one.count = other.count
  parent : ∀ id, one.skeleton.parent? id = other.skeleton.parent? id
  after : ∀ id, one.skeleton.after id = other.skeleton.after id
  folding : ∀ id, one.folding id = other.folding id
  name : ∀ id : Nat, one.skeleton.nodes[id]?.bind one.skeleton.name? =
    other.skeleton.nodes[id]?.bind other.skeleton.name?
  lines : ∀ id : Nat, one.skeleton.nodes[id]?.map (fun node => gist (one.skeleton.block node).lines) =
    other.skeleton.nodes[id]?.map fun node => gist (other.skeleton.block node).lines

section Gist

variable {one other : Text} (same : gist (Text.lines one) = gist (Text.lines other))

include same

theorem nodes_of_gist (id : Nat) : (Outline.ofText Line.Angle.rules one).skeleton.nodes[id]?.map
    (Node.relocated (Extent.gathered (Text.lines one)) 0) =
      (Outline.ofText Line.Angle.rules other).skeleton.nodes[id]?.map
        (Node.relocated (Extent.gathered (Text.lines other)) 0) := by
  have first := nodes_gist Line.Angle.trimming rfl one id
  rw [same] at first
  exact first.trans (nodes_gist Line.Angle.trimming rfl other id).symm

section Reading

variable {Reading : Type}

private theorem map_of_gist (read : Node → Reading) (kept : ∀ move node, read (Node.relocated move 0 node) = read node)
    (id : Nat) : (Outline.ofText Line.Angle.rules one).skeleton.nodes[id]?.map read =
      (Outline.ofText Line.Angle.rules other).skeleton.nodes[id]?.map read := by
  have nodes := congrArg (Option.map read) (nodes_of_gist same id)
  simpa only [Option.map_map, Function.comp_def, kept] using nodes

private theorem bind_of_gist (read : Node → Option Reading)
    (kept : ∀ move node, read (Node.relocated move 0 node) = read node)
    (id : Nat) : (Outline.ofText Line.Angle.rules one).skeleton.nodes[id]?.bind read =
      (Outline.ofText Line.Angle.rules other).skeleton.nodes[id]?.bind read := by
  have nodes := congrArg (Option.bind · read) (nodes_of_gist same id)
  simpa only [Option.bind_map, Function.comp_def, kept] using nodes

end Reading

private theorem blocks_of_gist (id : Nat) : (Outline.ofText Line.Angle.rules one).skeleton.nodes[id]?.map
    (fun node => gist ((Outline.ofText Line.Angle.rules one).skeleton.block node).lines) =
      (Outline.ofText Line.Angle.rules other).skeleton.nodes[id]?.map
        fun node => gist ((Outline.ofText Line.Angle.rules other).skeleton.block node).lines := by
  have moved := nodes_of_gist same id
  cases first : (Outline.ofText Line.Angle.rules one).skeleton.nodes[id]? <;>
    cases second : (Outline.ofText Line.Angle.rules other).skeleton.nodes[id]? <;> rw [first, second] at moved
  · rfl
  · cases moved
  · cases moved
  · rw [Option.map_some, Option.map_some, gist_block _ one id _ first, gist_block _ other id _ second, same,
      Option.some.inj moved]

private theorem corresponds_of_gist :
    Corresponds (Outline.ofText Line.Angle.rules one) (Outline.ofText Line.Angle.rules other) where
  count := by
    rw [(over_ofText Line.Angle.rules one).count, (over_ofText Line.Angle.rules other).count,
      ← Forest.size_relocated, ← Forest.ofLines_gist Line.Angle.trimming rfl, same,
      Forest.ofLines_gist Line.Angle.trimming rfl, Forest.size_relocated]
  parent := bind_of_gist same Node.parent fun move node => by simp [Node.relocated]
  after id := by
    rw [Skeleton.after, map_of_gist same Node.descendants (fun _ _ => rfl) id, Skeleton.after]
  folding id := by
    rw [folding, folding, isCollapsed_ofText, isCollapsed_ofText, bind_of_gist same Node.nameBytes (fun _ _ => rfl) id]
  name id := by
    rw [name?_gist, name?_gist, blocks_of_gist same]
  lines := blocks_of_gist same

end Gist

/-- Texts whose lines that are not blank are the same when trimmed have outlines that correspond. So it is when white
space around lines is put in, cut off or replaced, and when blank lines come and go. -/
theorem ofText_corresponds :
    (∀ one other, gist (Text.lines one) = gist (Text.lines other) →
      Corresponds (Outline.ofText Line.Angle.rules one) (Outline.ofText Line.Angle.rules other)) ∧
        ∀ one other, Respaced (Text.lines one) (Text.lines other) →
          Corresponds (Outline.ofText Line.Angle.rules one) (Outline.ofText Line.Angle.rules other) :=
  ⟨fun _ _ same => corresponds_of_gist same, fun _ _ respaced => corresponds_of_gist respaced.gist_eq⟩

/-- An element with other margins, line ends and blank lines, and a smaller one line by line. -/
theorem ofText_corresponds_spread :
    let one := "<a>\n  <b>\n    x\n  </b>\n</a>\n<c>".toList
    let other := "\n<a>\r\n\t\n<b> \n\n\u00a0x\r\n\n  </b>\r\n      </a>\n\n\u2003<c>\n \n".toList
    gist (Text.lines one) = gist (Text.lines other) ∧ (Outline.ofText Line.Angle.rules one).count = 4 ∧
      Corresponds (Outline.ofText Line.Angle.rules one) (Outline.ofText Line.Angle.rules other) ∧
        Corresponds (Outline.ofText Line.Angle.rules "<a>\n</a>".toList)
          (Outline.ofText Line.Angle.rules "  <a>\r\n\n</a>".toList) := by
  intro one other
  have same : gist (Text.lines one) = gist (Text.lines other) := by decide +kernel
  have respaced : Respaced (Text.lines "<a>\n</a>".toList) (Text.lines "  <a>\r\n\n</a>".toList) :=
    .line "<a>".toList [] [] "  ".toList "\r".toList (List.all_eq_true.mp (by decide))
      (.inserted rfl (.line "</a>".toList [] [] [] [] (List.all_eq_true.mp (by decide)) .done))
  exact ⟨same, by decide +kernel, ofText_corresponds.1 one other same, ofText_corresponds.2 _ _ respaced⟩

end Outline

end MarkupOutline
