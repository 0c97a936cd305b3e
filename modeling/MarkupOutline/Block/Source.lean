import Std.Data.TreeMap.Lemmas
import MarkupOutline.Block.Basic
import MarkupOutline.Block.Closing

/-! A text cut into lines, with a table of closing lines for every name in it. The tables are made
once for the whole text, and a range of lines only cuts their answers off at its end. -/
namespace MarkupOutline.Block

open Text

/-- A tag and the number of its line. -/
abbrev Mark := Nat × Line.Tag

/-- All tags of some lines, in order. -/
def marksOf (rules : Line.Rules) (lines : List Text) : List Mark :=
  lines.zipIdx.flatMap fun (line, number) => (rules.tags line).map fun tag => (number, tag)

/-- The balances of every name. -/
abbrev Tallies := Std.TreeMap Text (List Balance)

def noteMark (tallies : Tallies) (mark : Mark) : Tallies :=
  let name := mark.2.name
  tallies.insert name (record mark.1 mark.2.weight (tallies.getD name []))

/-- The balances of one name, from its tags alone. -/
def balancesOf (name : Text) (marks : List Mark) (balances : List Balance) : List Balance :=
  (marks.filter fun mark => mark.2.name == name).foldl
    (fun balances mark => record mark.1 mark.2.weight balances) balances

/-- Every name has the balances that its own tags give. -/
theorem noteMark_fold (marks : List Mark) (tallies : Tallies) (name : Text) :
    (marks.foldl noteMark tallies).getD name [] = balancesOf name marks (tallies.getD name []) := by
  induction marks generalizing tallies with
  | nil => simp [balancesOf]
  | cons mark rest inductionHypothesis =>
    rw [List.foldl_cons, inductionHypothesis, noteMark, Std.TreeMap.getD_insert]
    by_cases same : mark.2.name = name
    · simp [balancesOf, same]
    · simp [balancesOf, same]

/-- A text prepared for cutting into blocks. -/
structure Source where
  rules : Line.Rules
  lines : Array Text
  closings : Std.TreeMap Text ClosingTable

/-- The place of a block: the lines from `first` up to but without `stop`. -/
structure Extent where
  first : Nat
  stop : Nat
  depth : Nat
deriving DecidableEq

namespace Source

def ofText (rules : Line.Rules) (text : Text) : Source :=
  let lines := Text.lines text
  let tallies := (marksOf rules lines).foldl noteMark ∅
  ⟨rules, lines.toArray, tallies.map fun _ balances => .ofBalances balances⟩

/-- A line by its number; beyond the text there are only empty lines. -/
def line (source : Source) (number : Nat) : Text := source.lines[number]?.getD []

/-- The lines of a range, joined. -/
def span (source : Source) (first stop : Nat) : Text :=
  unlines (source.lines.extract first stop).toList

/-- The first line of a range that is not blank. -/
def firstSolid? (source : Source) (start stop : Nat) : Option Nat :=
  if start < stop then
    if isBlank (source.line start) then source.firstSolid? (start + 1) stop else some start
  else none
termination_by stop - start

/-- The line of a range that closes the element opened in line `opening`, if that line opens one
and does not close it itself. -/
def closingLine? (source : Source) (opening stop : Nat) : Option Nat :=
  match source.rules.opener? (source.line opening) with
  | none => none
  | some tag =>
    if source.rules.closingCount tag.rest tag.name = 0 then
      (source.closings[tag.name]?.bind (·.closingLine? opening)).filter fun closing =>
        opening < closing && closing < stop
    else none

/-- The next block of the lines from `start` up to but without `stop`. -/
def nextBlock? (source : Source) (start stop : Nat) : Option Extent :=
  (source.firstSolid? start stop).map fun first =>
    let depth := depthOf (source.line first)
    match source.closingLine? first stop with
    | some closing => ⟨first, closing + 1, depth⟩
    | none => ⟨first, first + 1, depth⟩

theorem firstSolid?_bounds (source : Source) (start stop first : Nat)
    (found : source.firstSolid? start stop = some first) : start ≤ first ∧ first < stop := by
  fun_induction source.firstSolid? start stop with
  | case1 start inside blank inductionHypothesis =>
    have ⟨lower, upper⟩ := inductionHypothesis found
    exact ⟨Nat.le_of_succ_le lower, upper⟩
  | case2 start inside solid =>
    cases found
    exact ⟨Nat.le_refl _, inside⟩
  | case3 => cases found

theorem closingLine?_bounds (source : Source) (opening stop closing : Nat)
    (found : source.closingLine? opening stop = some closing) : opening < closing ∧ closing < stop := by
  unfold closingLine? at found
  split at found
  · cases found
  · split at found
    · simpa using (Option.filter_eq_some_iff.mp found).2
    · cases found

/-- A block has at least one line and stays in the range it was looked for in. -/
theorem nextBlock?_bounds (source : Source) (start stop : Nat) (extent : Extent)
    (found : source.nextBlock? start stop = some extent) :
    start ≤ extent.first ∧ extent.first < extent.stop ∧ extent.stop ≤ stop := by
  obtain ⟨first, solid, same⟩ := Option.map_eq_some_iff.mp found
  have ⟨lower, upper⟩ := source.firstSolid?_bounds start stop first solid
  subst same
  split
  · next closing closed =>
    have ⟨after, inside⟩ := source.closingLine?_bounds first stop closing closed
    exact ⟨lower, Nat.lt_succ_of_lt after, inside⟩
  · exact ⟨lower, Nat.lt_succ_self first, upper⟩

/-- The block at a place. -/
def block (source : Source) (extent : Extent) : Block :=
  ⟨source.span extent.first extent.stop, extent.depth⟩

/-- All places of blocks in a range, one after the other. -/
def extentsFrom (source : Source) (start stop : Nat) : List Extent :=
  match _found : source.nextBlock? start stop with
  | none => []
  | some extent => extent :: source.extentsFrom extent.stop stop
termination_by stop - start
decreasing_by
  have ⟨lower, nonempty, upper⟩ := source.nextBlock?_bounds start stop extent _found
  omega

/-- The blocks of the whole text. -/
def blocks (source : Source) : List Block :=
  (source.extentsFrom 0 source.lines.size).map source.block

end Source

/-- Cut a text into blocks. Blank lines between blocks are left out. -/
def split (rules : Line.Rules) (text : Text) : List Block := (Source.ofText rules text).blocks

/-- Cutting a text on demand, one block at a time. -/
structure Splitter where
  source : Source
  /-- The line from which the next block is looked for. -/
  line : Nat

namespace Splitter

def ofText (rules : Line.Rules) (text : Text) : Splitter := ⟨.ofText rules text, 0⟩

/-- Hand out the next block. If only blank lines are left, there is none and never will be. -/
def step (splitter : Splitter) : Option Block × Splitter :=
  match splitter.source.nextBlock? splitter.line splitter.source.lines.size with
  | some extent => (some (splitter.source.block extent), { splitter with line := extent.stop })
  | none => (none, { splitter with line := splitter.source.lines.size })

/-- What is handed out in so many steps. -/
def answers (splitter : Splitter) : Nat → List (Option Block)
  | 0 => []
  | count + 1 => splitter.step.1 :: splitter.step.2.answers count

end Splitter

end MarkupOutline.Block
