import MarkupOutline.Proofs.Outline.Forest
import MarkupOutline.Proofs.Pretty.TreeLines

/-! The outline of a formatted document mirrors its element tree. Inside an element of a name the count of
open elements of that name never falls below what it was before, and the first line where it does is that
of its own end tag. -/
namespace MarkupOutline.Outline

open Text Block Line.Angle Markup

theorem isBlank_margin (level : Nat) : isBlank (margin level) = true := by
  rw [isBlank, margin, List.all_replicate]
  split
  · rfl
  · decide

theorem depthOf_line (level : Nat) (body : Text) : depthOf (margin level ++ '<' :: body) = level := by
  have front : (margin level ++ '<' :: body).takeWhile isWhite = margin level := by
    rw [List.takeWhile_append_of_pos (List.all_eq_true.mp (isBlank_margin level)),
      List.takeWhile_cons_of_neg (by decide), List.append_nil]
  rw [depthOf, front, margin, List.length_replicate]
  exact Nat.mul_div_cancel_left level (by decide)

theorem isBlank_line (level : Nat) (body : Text) : isBlank (margin level ++ '<' :: body) = false := by
  have solid : isWhite '<' = false := by decide
  simp [isBlank, solid]

section Weights

variable (level : Nat) (name : Text)

private theorem weightOf_mark (event : Event) (plain : PlainMark event)
    (letters : ∀ letter ∈ name, letter ∉ ['/', '!', '?'])
    (apart : ∀ content, event = .emptyTag content → content ≠ tagName content → tagName content ≠ name) :
    weightOf rules name (margin level ++ event.written) = 0 := by
  have none := tags_mark (isBlank_margin level) event plain name letters apart
  change List.sum (List.map _ (List.filter _ (tags _))) = 0
  rw [List.filter_eq_nil_iff.mpr fun tag membership => by simpa using none tag membership]
  rfl

private theorem weightOf_startTag (content : Text) (plain : PlainTag content) :
    weightOf rules name (margin level ++ (Event.startTag content).written) =
      if tagName content = name then 1 else 0 := by
  change List.sum (List.map _ (List.filter _ (tags _))) = _
  rw [tags_startTag (isBlank_margin level) content plain]
  by_cases same : tagName content = name <;> simp [Line.Tag.name, same, Line.Tag.weight]

theorem weightOf_endTag (content : Text) (plain : PlainTag content) :
    weightOf rules name (margin level ++ (Event.endTag (tagName content)).written) =
      if tagName content = name then -1 else 0 := by
  change List.sum (List.map _ (List.filter _ (tags _))) = _
  rw [tags_endTag (isBlank_margin level) (tagName content) plain.named plain.unmarkedName plain.unclosedName]
  by_cases same : tagName content = name <;> simp [Line.Tag.name, same, Line.Tag.weight]

private theorem weightOf_element (content text : Text) (plain : PlainTag content) (unmarked : '<' ∉ text) :
    weightOf rules name (margin level ++ (Event.startTag content).written ++ text ++
      (Event.endTag (tagName content)).written) = 0 := by
  change List.sum (List.map _ (List.filter _ (tags _))) = _
  rw [tags_element (isBlank_margin level) content text plain unmarked]
  by_cases same : tagName content = name <;> simp [Line.Tag.name, same, Line.Tag.weight]

end Weights

/-- A scan for the end of an element passes over every tree inside it with the count unchanged. -/
theorem scanClosing?_tidy (around : List Text) (tree : ElementTree) (tidy : tree.Tidy around)
    (name : Text) (within : name ∈ around) (letters : ∀ letter ∈ name, letter ∉ ['/', '!', '?'])
    (level : Nat) (count : Int) (positive : 0 < count) (more : List Text) :
    scanClosing? rules name count (tree.lines level ++ more) =
      (scanClosing? rules name count more).map (· + (tree.lines level).length) := by
  induction tidy generalizing level count more with
  | nil => cases scanned : scanClosing? rules name count more <;> simp [ElementTree.lines, scanned]
  | @mark around rest event single plain apart behind behindHypothesis =>
    have weight := weightOf_mark level name event plain letters fun content same filled other =>
      apart content same filled (other ▸ within)
    rw [ElementTree.lines, List.cons_append, scanClosing?_onward _ _ _ _ _ (by omega), weight, Int.add_zero,
      behindHypothesis within level count positive, Option.map_map, List.length_cons]
    rfl
  | @line around inside rest content text plain sole unmarked unbroken behind behindHypothesis =>
    have weight := weightOf_element level name content text plain unmarked
    rw [ElementTree.lines_line level content text inside rest sole, List.cons_append,
      scanClosing?_onward _ _ _ _ _ (by omega), weight, Int.add_zero,
      behindHypothesis within level count positive, Option.map_map, List.length_cons]
    rfl
  | @block around inside rest content plain unslashed filled inner behind innerHypothesis behindHypothesis =>
    have opening := weightOf_startTag level name content plain
    have closing := weightOf_endTag level name content plain
    have counts : 0 < count + weightOf rules name (margin level ++ (Event.startTag content).written) ∧
        count + weightOf rules name (margin level ++ (Event.startTag content).written) +
          weightOf rules name (margin level ++ (Event.endTag (tagName content)).written) = count := by
      rw [opening, closing]
      split <;> omega
    rw [ElementTree.lines_block level content inside rest (inner.several filled), List.cons_append,
      List.append_assoc, List.cons_append, scanClosing?_onward _ _ _ _ _ counts.1,
      innerHypothesis (List.mem_cons_of_mem _ within) _ _ counts.1,
      scanClosing?_onward _ _ _ _ _ (by rw [counts.2]; exact positive), counts.2,
      behindHypothesis within level count positive]
    simp only [Option.map_map, List.length_cons, List.length_append]
    congr 1
    funext position
    simp only [Function.comp_apply]
    omega

namespace Forest

variable (rules : Line.Rules) (start : Nat)

theorem ofLines_line (line : Text) (more : List Text) (solid : isBlank line = false)
    (single : openName? rules line = none) : ofLines rules start (line :: more) =
      leaf ⟨start, start + 1, depthOf line⟩ (ofLines rules (start + 1) more) := by
  have found : scanBlock? rules (line :: more) = some ⟨0, 1, depthOf line⟩ := by
    rw [scanBlock?, solid, followers, single]
    rfl
  have flat : foldingTag? rules (window (line :: more) 0 1) = none := rfl
  rw [ofLines_some rules start _ _ found]
  simp only [flat]
  rfl

private theorem ofLines_block (line last : Text) (inner more : List Text) (tag : Line.Opener)
    (solid : isBlank line = false) (opens : rules.opener? line = some tag)
    (name : openName? rules line = some tag.name)
    (closes : scanClosing? rules tag.name 1 (inner ++ last :: more) = some inner.length)
    (closer : rules.isCloser last = true) : ofLines rules start (line :: (inner ++ last :: more)) =
      branch ⟨start, start + (inner.length + 2), depthOf line⟩ tag (ofLines rules (start + 1) inner)
        (ofLines rules (start + (inner.length + 2)) more) := by
  have size : 1 + (inner.length + 1) = inner.length + 2 := by omega
  have found : scanBlock? rules (line :: (inner ++ last :: more)) =
      some ⟨0, inner.length + 2, depthOf line⟩ := by
    rw [scanBlock?, solid, followers, name, Option.bind_some, closes, ← size]
    rfl
  have block : window (line :: (inner ++ last :: more)) 0 (inner.length + 2) = line :: (inner ++ [last]) := by
    simp [window, List.take_append]
  have folds : foldingTag? rules (line :: (inner ++ [last])) = some tag := by
    have ends : (line :: (inner ++ [last])).getLast? = some last := by
      rw [← List.cons_append, List.getLast?_concat]
    rw [foldingTag?, ends, foldingOpener?]
    simp [opens, closer]
  have within : window (line :: (inner ++ last :: more)) (0 + 1) (inner.length + 2 - 1) = inner := by
    simp [window]
  have beyond : (line :: (inner ++ last :: more)).drop (inner.length + 2) = more := by
    simp
  rw [ofLines_some rules start _ _ found]
  simp only [block, folds, within, beyond]
  rfl

end Forest

/-- The element, or the other piece of markup, that a node is made for. -/
structure Item where
  /-- Its start tag, if it has one. -/
  event : Event
  parent : Option Nat
  /-- How many elements are around it. -/
  depth : Nat
  /-- The name of an element with more inside it than character data. -/
  name : Option Text

end MarkupOutline.Outline

namespace MarkupOutline.Markup.ElementTree

open Outline

/-- How many nodes a tree has. Character data belongs to the line around it. -/
def size : ElementTree → Nat
  | nil => 0
  | leaf event _ rest => if event.isInline then rest.size else 1 + rest.size
  | element _ inside rest => 1 + inside.size + rest.size

/-- What stands in a tree, in document order and numbered from `start` on. -/
def items (parent : Option Nat) (depth start : Nat) : ElementTree → List Item
  | nil => []
  | leaf event _ rest =>
    if event.isInline then rest.items parent depth start
    else ⟨event, parent, depth, none⟩ :: rest.items parent depth (start + 1)
  | element content inside rest =>
    ⟨.startTag content, parent, depth, if inside.size = 0 then none else some (tagName content)⟩ ::
      (inside.items (some start) (depth + 1) (start + 1) ++
        rest.items parent depth (start + 1 + inside.size))

theorem length_items (parent : Option Nat) (depth start : Nat) (tree : ElementTree) :
    (tree.items parent depth start).length = tree.size := by
  induction tree generalizing parent depth start with
  | nil => rfl
  | leaf event single rest restHypothesis =>
    rw [items, size]
    split
    · exact restHypothesis parent depth start
    · rw [List.length_cons, restHypothesis, Nat.add_comm]
  | element content inside rest insideHypothesis restHypothesis =>
    rw [items, List.length_cons, List.length_append, insideHypothesis, restHypothesis, size]
    omega

end MarkupOutline.Markup.ElementTree

namespace MarkupOutline.Outline

open Text Block Line.Angle Markup

/-- A node made for an item of a document with certain lines. -/
structure Shows (rows : List Text) (item : Item) (node : Node) : Prop where
  parent : node.parent = item.parent
  depth : node.depth = item.depth
  named : node.nameBytes = item.name.map byteLength
  first : ∃ rest, rows[node.first]? = some (margin item.depth ++ (item.event.written ++ rest))
  tags : ∀ name, item.name = some name →
    (∃ rest, item.event.written = '<' :: (name ++ rest)) ∧
      rows[node.stop - 1]? = some (margin item.depth ++ (Event.endTag name).written)

theorem size_inline (inside : ElementTree) (text : Text) (sole : inside.inline? = some text) :
    inside.size = 0 := by
  cases inside with
  | nil => rfl
  | element => cases sole
  | leaf event single rest =>
    cases event with
    | startTag | endTag | emptyTag | comment | cdata | instruction | doctype => cases sole
    | text content =>
      cases rest with
      | leaf | element => cases sole
      | nil => rfl

private theorem items_inline (inside : ElementTree) (text : Text) (sole : inside.inline? = some text)
    (parent : Option Nat) (depth start : Nat) : inside.items parent depth start = [] := by
  rw [← List.length_eq_zero_iff, ElementTree.length_items, size_inline inside text sole]

theorem isInline_mark (event : Event) (plain : PlainMark event) : event.isInline = false := by
  cases event with
  | text | cdata | startTag | endTag => exact plain.elim
  | emptyTag | comment | instruction | doctype => rfl

theorem size_tidy (around : List Text) (tree : ElementTree) (tidy : tree.Tidy around)
    (filled : tree ≠ .nil) : tree.size ≠ 0 := by
  cases tidy with
  | nil => exact absurd rfl filled
  | mark event single plain apart behind => simp [ElementTree.size, isInline_mark event plain]
  | line | block => simp [ElementTree.size]

private theorem ofLines_mark (event : Event) (plain : PlainMark event) (level first : Nat) (more : List Text) :
    Forest.ofLines rules first ((margin level ++ event.written) :: more) =
      .leaf ⟨first, first + 1, level⟩ (Forest.ofLines rules (first + 1) more) := by
  obtain ⟨body, written⟩ : ∃ body, event.written = '<' :: body := by
    cases event with
    | text | cdata | startTag | endTag => exact plain.elim
    | emptyTag | comment | instruction | doctype => exact ⟨_, rfl⟩
  have silent : openName? rules (margin level ++ event.written) = none := by
    change (opener? _).bind _ = none
    rw [opener?_mark (isBlank_margin level) event plain]
    rfl
  rw [Forest.ofLines_line rules first _ _ (by rw [written]; exact isBlank_line level body) silent, written,
    depthOf_line]

private theorem ofLines_element (content text : Text) (plain : PlainTag content) (unmarked : '<' ∉ text)
    (level first : Nat) (more : List Text) :
    Forest.ofLines rules first ((margin level ++ (Event.startTag content).written ++ text ++
        (Event.endTag (tagName content)).written) :: more) =
      .leaf ⟨first, first + 1, level⟩ (Forest.ofLines rules (first + 1) more) := by
  have whole : margin level ++ (Event.startTag content).written ++ text ++ (Event.endTag (tagName content)).written =
      margin level ++ '<' :: (content ++ '>' :: (text ++ (Event.endTag (tagName content)).written)) := by
    simp [Event.written]
  rw [Forest.ofLines_line rules first _ _ (by rw [whole]; exact isBlank_line level _)
    (openName?_element (isBlank_margin level) content text plain unmarked), whole, depthOf_line]

private theorem ofLines_block {around : List Text} (content : Text) (inside : ElementTree) (plain : PlainTag content)
    (unslashed : content.getLast? ≠ some '/') (within : inside.Tidy (tagName content :: around))
    (level first : Nat) (more : List Text) :
    Forest.ofLines rules first ((margin level ++ (Event.startTag content).written) ::
        (inside.lines (level + 1) ++ (margin level ++ (Event.endTag (tagName content)).written) :: more)) =
      .branch ⟨first, first + ((inside.lines (level + 1)).length + 2), level⟩ ⟨tagName content, []⟩
        (Forest.ofLines rules (first + 1) (inside.lines (level + 1)))
        (Forest.ofLines rules (first + ((inside.lines (level + 1)).length + 2)) more) := by
  have depth : depthOf (margin level ++ (Event.startTag content).written) = level := depthOf_line level _
  have solid : isBlank (margin level ++ (Event.startTag content).written) = false := isBlank_line level _
  have opens := opener?_startTag (isBlank_margin level) content plain unslashed
  have name : openName? rules (margin level ++ (Event.startTag content).written) = some (tagName content) := by
    change (opener? _).bind _ = _
    rw [opens]
    rfl
  have ends : scanClosing? rules (tagName content) 1
      ((margin level ++ (Event.endTag (tagName content)).written) :: more) = some 0 := by
    rw [scanClosing?, weightOf_endTag level (tagName content) content plain, if_pos rfl]
    rfl
  have closes : scanClosing? rules (tagName content) 1 (inside.lines (level + 1) ++
      (margin level ++ (Event.endTag (tagName content)).written) :: more) =
      some (inside.lines (level + 1)).length := by
    rw [scanClosing?_tidy _ inside within (tagName content) List.mem_cons_self
      (fun letter membership => (plain.letters letter membership).2) (level + 1) 1 (by decide), ends,
      Option.map_some, Nat.zero_add]
  rw [Forest.ofLines_block rules first _ _ _ more ⟨tagName content, []⟩ solid opens name closes
    (isCloser_endTag (isBlank_margin level) _ plain.named plain.unclosedName), depth]

/-- The nodes of the lines of a tidy tree are made for its items, one for each in order. -/
theorem nodes_tidy (rows around : List Text) (tree : ElementTree) (tidy : tree.Tidy around)
    (level first number : Nat) (parent : Option Nat) (placed : tree.lines level <+: rows.drop first) :
    List.Forall₂ (Shows rows) (tree.items parent level number)
      ((Forest.ofLines rules first (tree.lines level)).nodes parent number) := by
  induction tidy generalizing level first number parent with
  | nil =>
    rw [ElementTree.lines, Forest.ofLines]
    exact .nil
  | @mark around rest event single plain apart behind behindHypothesis =>
    obtain ⟨here, after⟩ := prefix_cons _ _ _ first placed
    rw [ElementTree.items, isInline_mark event plain, ElementTree.lines, ofLines_mark event plain, Forest.nodes]
    refine .cons ⟨rfl, rfl, rfl, ⟨[], ?_⟩, ?_⟩ (behindHypothesis level _ _ parent after)
    · rw [List.append_nil]
      exact here
    · rintro name ⟨⟩
  | @line around inside rest content text plain sole unmarked unbroken behind behindHypothesis =>
    rw [ElementTree.lines_line level content text inside rest sole] at placed ⊢
    obtain ⟨here, after⟩ := prefix_cons _ _ _ first placed
    rw [ElementTree.items, size_inline inside text sole, ofLines_element content text plain unmarked, Forest.nodes,
      items_inline inside text sole, List.nil_append]
    refine .cons ⟨rfl, rfl, rfl, ⟨text ++ (Event.endTag (tagName content)).written, ?_⟩, ?_⟩
      (behindHypothesis level _ _ parent after)
    · rw [List.append_assoc, List.append_assoc] at here
      exact here
    · rintro name ⟨⟩
  | @block around inside rest content plain unslashed filled within behind withinHypothesis behindHypothesis =>
    rw [ElementTree.lines_block level content inside rest (within.several filled)] at placed ⊢
    obtain ⟨here, after⟩ := prefix_cons _ _ _ first placed
    obtain ⟨inner, after⟩ := prefix_append _ _ _ (first + 1) after
    obtain ⟨last, after⟩ := prefix_cons _ _ _ _ after
    have innerNodes := withinHypothesis (level + 1) (first + 1) (number + 1) (some number) inner
    have size := innerNodes.length_eq
    rw [ElementTree.length_items, Forest.length_nodes] at size
    have beyond : first + 1 + (inside.lines (level + 1)).length + 1 =
        first + ((inside.lines (level + 1)).length + 2) := by omega
    rw [beyond] at after
    rw [ofLines_block content inside plain unslashed within, ElementTree.items,
      if_neg (size_tidy _ inside within filled), Forest.nodes, ← size]
    refine .cons ⟨rfl, rfl, rfl, ⟨[], ?_⟩, ?_⟩
      (List.rel_append innerNodes (behindHypothesis level _ _ parent after))
    · rw [List.append_nil]
      exact here
    · rintro name ⟨⟩
      refine ⟨written_startTag content, ?_⟩
      · have stop : (nodeOf parent ⟨first, first + ((inside.lines (level + 1)).length + 2), level⟩
            (some ⟨tagName content, []⟩) inside.size).stop - 1 =
            first + 1 + (inside.lines (level + 1)).length := by
          simp only [nodeOf]
          omega
        rw [stop]
        exact last

section Shown

variable {rows : List Text} {item : Item} {node : Node} (shows : Shows rows item node)
variable (skeleton : Skeleton) (lines : skeleton.lines = rows.toArray)
include shows lines

theorem Shows.firstLine : ∃ rest,
    skeleton.firstLine node = margin item.depth ++ (item.event.written ++ rest) := by
  obtain ⟨rest, first⟩ := shows.first
  refine ⟨rest, ?_⟩
  rw [Skeleton.firstLine, Skeleton.line, lines, List.getElem?_toArray, first]
  rfl

private theorem Shows.name (name : Text) (named : item.name = some name) : skeleton.name? node = some name := by
  obtain ⟨rest, first⟩ := shows.firstLine skeleton lines
  obtain ⟨⟨tail, written⟩, _⟩ := shows.tags name named
  have opening : skeleton.firstLine node = margin item.depth ++ '<' :: (name ++ (tail ++ rest)) := by
    rw [first, written, List.cons_append, List.append_assoc]
  have trimmed : trimStart (margin item.depth ++ '<' :: (name ++ (tail ++ rest))) =
      '<' :: (name ++ (tail ++ rest)) := by
    rw [trimStart, List.dropWhile_append_of_pos (List.all_eq_true.mp (isBlank_margin item.depth)),
      List.dropWhile_cons_of_neg (by decide)]
  rw [Skeleton.name?, shows.named, named, opening, trimmed, Option.map_some, Option.bind_some,
    byteSlice?_behind '<' rfl]

private theorem Shows.lastLine (name : Text) (named : item.name = some name) :
    skeleton.lastLine node = margin item.depth ++ (Event.endTag name).written := by
  rw [Skeleton.lastLine, Skeleton.line, lines, List.getElem?_toArray, (shows.tags name named).2]
  rfl

end Shown

/-- The tree of a regular document that can be formatted is tidy and not empty, and the formatted text has
the lines of this tree. -/
theorem lines_format (raw out : Text) (tree : ElementTree) (known : Markup.read raw = .ok tree.events)
    (formatted : Pretty.Style.standard.format raw = .ok out) (regular : Regular tree.events) :
    tree.Tidy [] ∧ Text.lines out = tree.lines 0 := by
  have transcript := Pretty.transcript_of_read raw tree.events known
  have split : tree.events = [] ++ (tree.events ++ []) := by rw [List.nil_append, List.append_nil]
  have tidy : tree.Tidy [] :=
    ElementTree.tidy_of_regular tree.events [] [] tree [] regular (transcript.readable readerLaws)
    split rfl (ElementTree.no_text_first tree.events [] [] tree regular split rfl)
  obtain ⟨events, again, complete, written⟩ := Pretty.Style.standard.format_cases raw out formatted
  cases Except.ok.inj (known.symm.trans again)
  have filled : tree ≠ .nil := by
    intro same
    subst same
    cases complete
  rw [Pretty.Style.standard.write_ascii (by decide), Pretty.Style.standard.separate_lineFeed rfl] at written
  refine ⟨tidy, ?_⟩
  rw [← Except.ok.inj written]
  exact Pretty.lines_spellFrom [] tree tidy filled

private theorem tree_of_format (raw out : Text) (events : List Event) (known : Markup.read raw = .ok events)
    (formatted : Pretty.Style.standard.format raw = .ok out) : ∃ tree : ElementTree, tree.events = events := by
  obtain ⟨others, again, complete, _⟩ := Pretty.Style.standard.format_cases raw out formatted
  cases Except.ok.inj (known.symm.trans again)
  exact ElementTree.exists_events readerLaws events (Pretty.transcript_of_read raw events known)
    (Pretty.openElements_of_checkDocument events complete)

/-- The nodes of a regular document that was formatted are made for the items of its tree. -/
theorem ofText_shows (raw out : Text) (tree : ElementTree) (known : Markup.read raw = .ok tree.events)
    (formatted : Pretty.Style.standard.format raw = .ok out) (regular : Regular tree.events) :
    List.Forall₂ (Shows (Text.lines out)) (tree.items none 0 0) (Outline.ofText rules out).skeleton.nodes.toList := by
  obtain ⟨tidy, lines⟩ := lines_format raw out tree known formatted regular
  have nodes : (Outline.ofText rules out).skeleton.nodes.toList =
      (Forest.ofLines rules 0 (tree.lines 0)).nodes none 0 := by
    rw [← lines]
    exact congrArg Array.toList (ofSource_nodes rules out)
  rw [nodes, lines]
  exact nodes_tidy (tree.lines 0) [] tree tidy 0 0 0 none (List.prefix_refl _)

/-- A regular document that was formatted has one node for each element and other piece of markup. -/
theorem ofText_mirrors (raw out : Text) (events : List Event) (known : Markup.read raw = .ok events)
    (formatted : Pretty.Style.standard.format raw = .ok out) (regular : Regular events) :
    (∃ tree : ElementTree, tree.events = events) ∧
      ∀ tree : ElementTree, tree.events = events →
        let outline := Outline.ofText rules out
        outline.count = (tree.items none 0 0).length ∧
          ∀ id item, (tree.items none 0 0)[id]? = some item →
            ∃ node, outline.skeleton.nodes[id]? = some node ∧ node.parent = item.parent ∧
              node.depth = item.depth ∧
              outline.folding id = (if item.name.isSome then .expanded else .leaf) ∧
              (∃ rest, outline.skeleton.firstLine node = margin item.depth ++ (item.event.written ++ rest)) ∧
              ∀ name, item.name = some name → outline.skeleton.name? node = some name ∧
                outline.skeleton.lastLine node = margin item.depth ++ (Event.endTag name).written := by
  constructor
  · exact tree_of_format raw out events known formatted
  · intro tree same outline
    subst same
    have matched := ofText_shows raw out tree known formatted regular
    constructor
    · rw [matched.length_eq, Array.length_toList]
      rfl
    · intro id item found
      obtain ⟨inside, same⟩ := List.getElem?_eq_some_iff.mp found
      have bound : id < outline.skeleton.nodes.size := by
        rw [← Array.length_toList, ← matched.length_eq]
        exact inside
      have shows : Shows (Text.lines out) item outline.skeleton.nodes[id] := by
        have related := matched.get inside bound
        rw [List.get_eq_getElem, same] at related
        exact related
      have here : outline.skeleton.nodes[id]? = some outline.skeleton.nodes[id] :=
        Array.getElem?_eq_getElem bound
      have folding : outline.folding id = if item.name.isSome then .expanded else .leaf := by
        rw [folding_ofText rules out id _ here, shows.named, Option.isSome_map]
      have lines : outline.skeleton.lines = (Text.lines out).toArray := rfl
      exact ⟨_, here, shows.parent, shows.depth, folding, shows.firstLine _ lines,
        fun name named => ⟨shows.name _ lines name named, shows.lastLine _ lines name named⟩⟩

/-- An element inside one of the same name, with empty elements of that name and of another one. -/
theorem ofText_mirrors_nested :
    let raw := "<!DOCTYPE r><r><!--n--><a k='1'><a>t</a><a/><b x=''/></a><a></a></r>".toList
    let out := ("<!DOCTYPE r>\n<r>\n  <!--n-->\n  <a k='1'>\n    <a>t</a>\n    <a/>\n    <b x=''/>\n  </a>\n" ++
      "  <a></a>\n</r>").toList
    let events : List Event :=
      [.doctype ['r'], .startTag ['r'], .comment ['n'], .startTag "a k='1'".toList, .startTag ['a'], .text ['t'],
        .endTag ['a'], .emptyTag ['a'], .emptyTag "b x=''".toList, .endTag ['a'], .startTag ['a'], .endTag ['a'],
        .endTag ['r']]
    Markup.read raw = .ok events ∧ Pretty.Style.standard.format raw = .ok out ∧ Regular events ∧
      (Outline.ofText rules out).count = 8 ∧
      ∃ node, (Outline.ofText rules out).skeleton.nodes[3]? = some node ∧ node.parent = some 1 ∧
        node.depth = 1 ∧ (Outline.ofText rules out).folding 3 = .expanded ∧
        (Outline.ofText rules out).skeleton.name? node = some ['a'] ∧
        (Outline.ofText rules out).skeleton.lastLine node = "  </a>".toList := by
  intro raw out events
  have known : Markup.read raw = .ok events := by decide +kernel
  have formatted : Pretty.Style.standard.format raw = .ok out := by decide +kernel
  have regular : Regular events := by decide +kernel
  have mirrored := (ofText_mirrors raw out events known formatted regular).2
    (.leaf (.doctype ['r']) rfl (.element ['r'] (.leaf (.comment ['n']) rfl
      (.element "a k='1'".toList (.element ['a'] (.leaf (.text ['t']) rfl .nil)
        (.leaf (.emptyTag ['a']) rfl (.leaf (.emptyTag "b x=''".toList) rfl .nil)))
          (.element ['a'] .nil .nil))) .nil)) rfl
  obtain ⟨node, here, parent, depth, folding, _, tags⟩ := mirrored.2 3 _ rfl
  exact ⟨known, formatted, regular, mirrored.1, node, here, parent, depth, folding, tags ['a'] rfl⟩

end MarkupOutline.Outline
