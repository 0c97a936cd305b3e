import MarkupOutline.Proofs.Block.Plain

/-! The next block of a range, told line by line as a reader would look for it, with nothing prepared. The
search in the table of closing lines finds the same block in every range of every text. -/
namespace MarkupOutline.Block

open Text

variable (rules : Line.Rules) (lines : List Text)

/-- Go forward with a count of open elements of a name. Every opening tag of a line counts one up, every
closing tag one down, and the first line that leaves no element open closes. -/
def forwardClosing? (name : Text) (count : Int) (number stop : Nat) : Option Nat :=
  if number < stop then
    let tags := rules.tags (lines[number]?.getD [])
    let left := count + tags.count (.opening name) - tags.count (.closing name)
    if left ≤ 0 then some number else forwardClosing? name left (number + 1) stop
  else none
termination_by stop - number

/-- The block that starts in a line: up to the line that closes its element, if the line opens one and does
not close it itself; the line alone if not. -/
def forwardExtent (number stop : Nat) : Extent :=
  let line := lines[number]?.getD []
  let alone : Extent := ⟨number, number + 1, depthOf line⟩
  match rules.opener? line with
  | none => alone
  | some tag =>
    if rules.closingCount tag.rest tag.name = 0 then
      match forwardClosing? rules lines tag.name 1 (number + 1) stop with
      | none => alone
      | some closing => ⟨number, closing + 1, depthOf line⟩
    else alone

/-- Pass over blank lines; the first other line starts a block. -/
def forwardBlock? (number stop : Nat) : Option Extent :=
  if number < stop then
    if trim (lines[number]?.getD []) = [] then forwardBlock? (number + 1) stop
    else some (forwardExtent rules lines number stop)
  else none
termination_by stop - number

theorem weightOf_eq_count (name line : Text) : weightOf rules name line =
    (rules.tags line).count (.opening name) - (rules.tags line).count (.closing name) := by
  rw [weightOf]
  induction rules.tags line with
  | nil => rfl
  | cons tag rest inductionHypothesis =>
    by_cases same : tag.name = name
    · rw [List.filter_cons_of_pos (by simpa using same), List.map_cons, List.sum_cons, inductionHypothesis]
      cases tag with
      | opening other =>
        cases same
        rw [Line.Tag.name, List.count_cons_self, List.count_cons_of_ne (by simp), Line.Tag.weight]
        omega
      | closing other =>
        cases same
        rw [Line.Tag.name, List.count_cons_self, List.count_cons_of_ne (by simp), Line.Tag.weight]
        omega
    · have opening : tag ≠ .opening name := fun equal => same (by rw [equal, Line.Tag.name])
      have closing : tag ≠ .closing name := fun equal => same (by rw [equal, Line.Tag.name])
      rw [List.filter_cons_of_neg (by simpa using same), inductionHypothesis, List.count_cons_of_ne opening,
        List.count_cons_of_ne closing]

theorem getD_of_lt (number : Nat) (inside : number < lines.length) :
    lines[number]?.getD [] = lines[number] := by
  rw [List.getElem?_eq_getElem inside, Option.getD_some]

private theorem forwardClosing?_eq (name : Text) (count : Int) (number stop : Nat) (inside : stop ≤ lines.length) :
    forwardClosing? rules lines name count number stop =
      (scanClosing? rules name count (window lines number stop)).map (number + ·) := by
  fun_induction forwardClosing? rules lines name count number stop with
  | case1 count number reached tags left used =>
    have weight : count + weightOf rules name lines[number] = left := by
      rw [weightOf_eq_count, ← getD_of_lt lines number (by omega)]
      exact (add_sub_assoc _ _ _).symm
    rw [window_cons _ _ _ reached (by omega), scanClosing?, weight, if_pos used]
    rfl
  | case2 count number reached tags left unused inductionHypothesis =>
    have weight : count + weightOf rules name lines[number] = left := by
      rw [weightOf_eq_count, ← getD_of_lt lines number (by omega)]
      exact (add_sub_assoc _ _ _).symm
    rw [window_cons _ _ _ reached (by omega), scanClosing?, weight, if_neg unused, inductionHypothesis,
      Option.map_map]
    congr 1
    funext distance
    simp only [Function.comp_apply]
    omega
  | case3 count number passed =>
    rw [window_empty _ _ _ (by omega)]
    rfl

/-- The search for a closing line in the table is a scan forward. -/
theorem forwardExtent_eq (text : Text) (number stop : Nat) (reached : number < stop)
    (inside : stop ≤ (Text.lines text).length) :
    forwardExtent rules (Text.lines text) number stop =
      ⟨number, (((Source.ofText rules text).closingLine? number stop).map (· + 1)).getD (number + 1),
        depthOf (Text.lines text)[number]⟩ := by
  rw [forwardExtent, Source.closingLine?_eq rules text number stop (by omega), getD_of_lt _ number (by omega),
    openName?]
  cases rules.opener? (Text.lines text)[number] with
  | none => rfl
  | some tag =>
    dsimp only
    rw [forwardClosing?_eq rules _ tag.name 1 (number + 1) stop inside, Option.bind_some]
    split
    · rw [Option.bind_some]
      cases scanClosing? rules tag.name 1 (window (Text.lines text) (number + 1) stop) <;> rfl
    · rfl

/-- In every range of a text the next block is the one that a reader finds who goes forward line by line. -/
theorem nextBlock?_forward (text : Text) (start stop : Nat) (inside : stop ≤ (Text.lines text).length) :
    (Source.ofText rules text).nextBlock? start stop = forwardBlock? rules (Text.lines text) start stop := by
  rw [Source.nextBlock?]
  fun_induction forwardBlock? rules (Text.lines text) start stop with
  | case1 start reached blank inductionHypothesis =>
    rw [getD_of_lt _ start (by omega), ← isBlank_iff] at blank
    rw [Source.firstSolid?, if_pos reached, Source.line_ofText rules text start (by omega), if_pos blank,
      inductionHypothesis]
  | case2 start reached solid =>
    rw [getD_of_lt _ start (by omega), ← isBlank_iff] at solid
    have reads := Source.line_ofText rules text start (by omega)
    rw [Source.firstSolid?, if_pos reached, reads, if_neg solid, Option.map_some,
      forwardExtent_eq rules text start stop reached inside, ← reads]
    cases (Source.ofText rules text).closingLine? start stop <;> rfl
  | case3 start passed =>
    rw [Source.firstSolid?, if_neg passed]
    rfl

/-- An element that closes behind the range it was opened in is cut off there, and is whole in a longer one. -/
theorem nextBlock?_forward_crossed :
    let text := "<a>\n\n  <b>\n</a>\n</b></b>\n<b>".toList
    4 ≤ (Text.lines text).length ∧ 6 ≤ (Text.lines text).length ∧
      (Source.ofText Line.Angle.rules text).nextBlock? 1 4 = some ⟨2, 3, 1⟩ ∧
      forwardBlock? Line.Angle.rules (Text.lines text) 1 4 = some ⟨2, 3, 1⟩ ∧
      (Source.ofText Line.Angle.rules text).nextBlock? 1 6 = some ⟨2, 5, 1⟩ ∧
      forwardBlock? Line.Angle.rules (Text.lines text) 1 6 = some ⟨2, 5, 1⟩ := by
  intro text
  have shorter : 4 ≤ (Text.lines text).length := by decide +kernel
  have longer : 6 ≤ (Text.lines text).length := by decide +kernel
  have cut : (Source.ofText Line.Angle.rules text).nextBlock? 1 4 = some ⟨2, 3, 1⟩ := by decide +kernel
  have whole : (Source.ofText Line.Angle.rules text).nextBlock? 1 6 = some ⟨2, 5, 1⟩ := by decide +kernel
  refine ⟨shorter, longer, cut, ?_, whole, ?_⟩
  · rw [← nextBlock?_forward Line.Angle.rules text 1 4 shorter, cut]
  · rw [← nextBlock?_forward Line.Angle.rules text 1 6 longer, whole]

end MarkupOutline.Block
