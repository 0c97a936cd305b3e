import Mathlib.Data.List.TakeWhile
import Mathlib.Data.Nat.Find
import Mathlib.Order.Bounds.Basic
import MarkupOutline.Proofs.Block.Closing

/-! The table of closing lines told by numbers: how many balances come before a line, what they sum up to, and after how
many more the sum is lower. Every number is checked before something is read or written with it. None is ever out of
bounds, and the closing lines are those of the table that is swept without numbers. -/
namespace MarkupOutline.Block

/-- What stands before a number; there is nothing before the first one. -/
def entryBefore? {Entry : Type} (entries : Array Entry) (number : Nat) : Option Entry :=
  if 0 < number then entries[number - 1]? else none

/-- The lines of one name whose tags do not cancel out, and for each number of them the first larger one whose balances
have a lower sum. -/
structure NumberedTable where
  lines : Array Nat
  lower : Array (Option Nat)

namespace NumberedTable

def pushSum? (sums : Array Int) (balance : Balance) : Option (Array Int) := do
  return sums.push ((← entryBefore? sums sums.size) + balance.sum)

/-- Take numbers off a stack until the sum of one is lower than that of the given one. -/
def pop? (sums : Array Int) (number : Nat) : List Nat → Option (List Nat)
  | [] => return []
  | top :: rest => do
    if (← sums[top]?) < (← sums[number]?) then return top :: rest else pop? sums number rest

/-- The numbers that a smaller one may fall to, the smallest first, and what has been found so far. -/
structure Search where
  stack : List Nat
  lower : Array (Option Nat)

/-- Note for a number the first larger one with a lower sum. -/
def Search.step? (sums : Array Int) (search : Search) (number : Nat) : Option Search := do
  let stack ← pop? sums number search.stack
  match stack with
  | [] => return ⟨[number], search.lower⟩
  | top :: rest =>
    if number < search.lower.size then
      return ⟨number :: top :: rest, search.lower.setIfInBounds number (some top)⟩
    else none

/-- The balances of one name are given newest first. -/
def ofBalances? (balances : List Balance) : Option NumberedTable := do
  let kept := balances.reverse.filter fun balance => balance.sum ≠ 0
  let sums ← kept.foldlM pushSum? #[0]
  let search ← (List.range sums.size).reverse.foldlM (Search.step? sums) ⟨[], Array.replicate sums.size none⟩
  return ⟨(kept.map Balance.line).toArray, search.lower⟩

/-- How many of the lines in `[low, high)` and before it are not behind a line, by halving. -/
def countUpTo? (lines : Array Nat) (line low high : Nat) : Option Nat :=
  if low < high then
    match lines[(low + high) / 2]? with
    | none => none
    | some middle =>
      if middle ≤ line then countUpTo? lines line ((low + high) / 2 + 1) high
      else countUpTo? lines line low ((low + high) / 2)
  else some low
termination_by high - low

/-- The closing line of an opening one, if it has any. -/
def closingLine? (table : NumberedTable) (opening : Nat) : Option (Option Nat) := do
  let number ← countUpTo? table.lines opening 0 table.lines.size
  match table.lower[number]?.join with
  | some lower => return some (← entryBefore? table.lines lower)
  | none => return none

end NumberedTable

def levelAt (balances : List Balance) (number : Nat) : Int := ((balances.take number).map Balance.sum).sum

/-- The first number from `start` on and before `stop` with a level below a bound. -/
def firstLower? (level : Nat → Int) (bound : Int) (start stop : Nat) : Option Nat :=
  (List.range' start (stop - start)).find? fun number => level number < bound

theorem firstLower?_cons (level : Nat → Int) (bound : Int) (start stop : Nat) (inside : start < stop) :
    firstLower? level bound start stop =
      if level start < bound then some start else firstLower? level bound (start + 1) stop := by
  obtain ⟨more, rfl⟩ := Nat.exists_eq_add_of_lt inside
  have rest : start + more + 1 - (start + 1) = more := by omega
  rw [firstLower?, Nat.add_assoc, Nat.add_sub_cancel_left, List.range'_succ, List.find?_cons, firstLower?,
    ← Nat.add_assoc, rest]
  by_cases below : level start < bound
  · simp [below]
  · simp [below]

theorem firstLower?_empty (level : Nat → Int) (bound : Int) (stop : Nat) :
    firstLower? level bound stop stop = none := by
  rw [firstLower?, Nat.sub_self]
  rfl

theorem levelAt_succ (front rest : List Balance) (balance : Balance) :
    levelAt (front ++ balance :: rest) (front.length + 1) =
      levelAt (front ++ balance :: rest) front.length + balance.sum := by
  have before : (front ++ balance :: rest).take front.length = front := List.take_left
  have after : (front ++ balance :: rest).take (front.length + 1) = front ++ [balance] := by
    rw [List.take_length_add_append]
    rfl
  rw [levelAt, levelAt, before, after, List.map_append, List.sum_append]
  simp

/-- A scan forward stops at the balance with which the level first is lower than where the scan has started. -/
theorem usedUp?_eq_firstLower? (front rest : List Balance) (bound : Int) :
    usedUp? (levelAt (front ++ rest) front.length - bound + 1) rest =
      (firstLower? (levelAt (front ++ rest)) bound (front.length + 1) ((front ++ rest).length + 1)).bind
        fun number => (front ++ rest)[number - 1]?.map Balance.line := by
  induction rest generalizing front with
  | nil =>
    rw [List.append_nil, firstLower?_empty]
    rfl
  | cons balance rest inductionHypothesis =>
    have inside : front.length + 1 < (front ++ balance :: rest).length + 1 := by simp
    have moved := levelAt_succ front rest balance
    have onward := inductionHypothesis (front ++ [balance])
    rw [List.append_assoc, List.singleton_append, List.length_append, List.length_singleton] at onward
    rw [usedUp?, firstLower?_cons _ _ _ _ inside]
    by_cases reached : levelAt (front ++ balance :: rest) (front.length + 1) < bound
    · rw [if_pos (by omega), if_pos reached]
      simp
    · rw [if_neg (by omega), if_neg reached, ← onward]
      congr 1
      omega

private theorem usedUp?_filter (balances : List Balance) (count : Int) (positive : 0 < count) :
    usedUp? count (balances.filter fun balance => balance.sum ≠ 0) = usedUp? count balances := by
  induction balances generalizing count with
  | nil => rfl
  | cons balance rest inductionHypothesis =>
    rw [usedUp?]
    by_cases idle : balance.sum = 0
    · rw [List.filter_cons_of_neg (by simpa using idle), inductionHypothesis count positive, idle, add_zero,
        if_neg (by omega)]
    · rw [List.filter_cons_of_pos (by simpa using idle), usedUp?]
      split
      · rfl
      · exact inductionHypothesis _ (by omega)

namespace NumberedTable

/-- An array that holds the levels of some balances, from none of them to all. -/
structure Levels (balances : List Balance) (sums : Array Int) : Prop where
  size : sums.size = balances.length + 1
  entry : ∀ number ≤ balances.length, sums[number]? = some (levelAt balances number)

private theorem pushSum?_levels (front : List Balance) (balance : Balance) (sums : Array Int)
    (levels : Levels front sums) : ∃ next, pushSum? sums balance = some next ∧ Levels (front ++ [balance]) next := by
  have last : entryBefore? sums sums.size = some (levelAt front front.length) := by
    rw [entryBefore?, levels.size, if_pos (Nat.succ_pos _)]
    exact levels.entry front.length (Nat.le_refl _)
  refine ⟨sums.push (levelAt front front.length + balance.sum), by rw [pushSum?, last]; rfl, ?_, ?_⟩
  · rw [Array.size_push, levels.size, List.length_append, List.length_singleton]
  · intro number inside
    rw [List.length_append, List.length_singleton] at inside
    rw [Array.getElem?_push, levels.size]
    split
    · next same =>
      have moved := levelAt_succ front [] balance
      have before : levelAt (front ++ [balance]) front.length = levelAt front front.length := by
        rw [levelAt, List.take_left, levelAt, List.take_length]
      rw [same, moved, before]
    · next other =>
      have earlier : number ≤ front.length := by omega
      rw [levels.entry number earlier, levelAt, levelAt, List.take_append_of_le_length earlier]

private theorem foldlM_pushSum? (front rest : List Balance) (sums : Array Int) (levels : Levels front sums) :
    ∃ final, rest.foldlM pushSum? sums = some final ∧ Levels (front ++ rest) final := by
  induction rest generalizing front sums with
  | nil => exact ⟨sums, rfl, by rwa [List.append_nil]⟩
  | cons balance rest inductionHypothesis =>
    obtain ⟨next, pushed, further⟩ := pushSum?_levels front balance sums levels
    obtain ⟨final, folded, all⟩ := inductionHypothesis (front ++ [balance]) next further
    refine ⟨final, ?_, by rwa [List.append_assoc, List.singleton_append] at all⟩
    rw [List.foldlM_cons, pushed]
    exact folded

section Search

variable {balances : List Balance} {sums : Array Int}

private theorem pop?_eq (levels : Levels balances sums) (number : Nat) (inside : number ≤ balances.length)
    (stack : List Nat) (within : ∀ top ∈ stack, top ≤ balances.length) : pop? sums number stack =
      some (stack.dropWhile fun top => levelAt balances number ≤ levelAt balances top) := by
  induction stack with
  | nil => rfl
  | cons top rest inductionHypothesis =>
    have first := levels.entry top (within top List.mem_cons_self)
    rw [pop?, first, levels.entry number inside, List.dropWhile_cons]
    by_cases lower : levelAt balances top < levelAt balances number
    · simp [lower]
    · have deeper := inductionHypothesis fun other member => within other (List.mem_cons_of_mem top member)
      simpa [lower, not_lt.mp lower] using deeper

/-- What is known when the numbers from one on have been searched: the stack answers for every bound where the level is
lower first, and so does the table for the levels of these numbers. -/
structure Search.Exact (balances : List Balance) (number : Nat) (search : Search) : Prop where
  within : ∀ top ∈ search.stack, top ≤ balances.length
  first : ∀ bound, search.stack.find? (fun top => levelAt balances top < bound) =
    firstLower? (levelAt balances) bound number (balances.length + 1)
  size : search.lower.size = balances.length + 1
  ahead : ∀ other < number, search.lower[other]? = some none
  found : ∀ other, number ≤ other → other ≤ balances.length → search.lower[other]? =
    some (firstLower? (levelAt balances) (levelAt balances other) (other + 1) (balances.length + 1))

/-- Taking off what is not lower loses no answer about a bound below it. -/
theorem find?_dropWhile {Item : Type} (dropped wanted : Item → Bool) (items : List Item)
    (apart : ∀ item, dropped item = true → wanted item = false) :
    (items.dropWhile dropped).find? wanted = items.find? wanted := by
  induction items with
  | nil => rfl
  | cons item rest inductionHypothesis =>
    rw [List.dropWhile_cons]
    split
    · next passed => rw [inductionHypothesis, List.find?_cons_of_neg (by simp [apart item passed])]
    · rfl

/-- A new number goes on top of the lower ones; it is noted where it belongs, and nothing else is written. -/
theorem Search.Exact.next {number : Nat} {search : Search} (exact : search.Exact balances (number + 1))
    (inside : number ≤ balances.length) (lower : Array (Option Nat)) (size : lower.size = search.lower.size)
    (here : lower[number]? =
      some (firstLower? (levelAt balances) (levelAt balances number) (number + 1) (balances.length + 1)))
    (elsewhere : ∀ other, other ≠ number → lower[other]? = search.lower[other]?) :
    Search.Exact balances number
      ⟨number :: search.stack.dropWhile fun top => levelAt balances number ≤ levelAt balances top, lower⟩ where
  within := List.forall_mem_cons.mpr
    ⟨inside, fun top member => exact.within top ((List.dropWhile_sublist _).subset member)⟩
  first bound := by
    rw [List.find?_cons, firstLower?_cons _ _ _ _ (Nat.lt_succ_of_le inside)]
    by_cases below : levelAt balances number < bound
    · simp [below]
    · simp only [below, decide_false, if_false]
      rw [find?_dropWhile, exact.first]
      simp only [decide_eq_true_eq, decide_eq_false_iff_not]
      omega
  size := size.trans exact.size
  ahead other before := by
    rw [elsewhere other (Nat.ne_of_lt before)]
    exact exact.ahead other (Nat.lt_succ_of_lt before)
  found other reached ends := by
    rcases Nat.eq_or_lt_of_le reached with rfl | later
    · exact here
    · rw [elsewhere other (Nat.ne_of_gt later)]
      exact exact.found other later ends

private theorem Search.step?_exact (levels : Levels balances sums) (number : Nat) (inside : number ≤ balances.length)
    (search : Search) (exact : search.Exact balances (number + 1)) :
    ∃ next, search.step? sums number = some next ∧ next.Exact balances number := by
  have popped := pop?_eq levels number inside search.stack exact.within
  -- What is left on top of the stack is the first number behind with a lower level.
  have top : (search.stack.dropWhile fun top => levelAt balances number ≤ levelAt balances top).head? =
      firstLower? (levelAt balances) (levelAt balances number) (number + 1) (balances.length + 1) := by
    rw [← exact.first, List.find?_eq_head?_dropWhile_not]
    simp only [← decide_not, not_lt]
  have next := exact.next inside
  rw [step?, popped, Option.bind_eq_bind, Option.bind_some]
  generalize search.stack.dropWhile (fun top => decide (levelAt balances number ≤ levelAt balances top)) = left
    at top next
  cases left with
  | nil =>
    refine ⟨_, rfl, next search.lower rfl ?_ fun other _ => rfl⟩
    rw [← top]
    exact exact.ahead number (Nat.lt_succ_self number)
  | cons first rest =>
    have room : number < search.lower.size := by
      rw [exact.size]
      exact Nat.lt_succ_of_le inside
    refine ⟨_, if_pos room, next _ Array.size_setIfInBounds ?_ fun other apart => ?_⟩
    · rw [Array.getElem?_setIfInBounds_self_of_lt room, ← top]
      rfl
    · exact Array.getElem?_setIfInBounds_ne (Ne.symm apart)

/-- The search goes over all numbers from the last one to the first. -/
theorem Search.foldlM_exact (levels : Levels balances sums) (count : Nat) (inside : count ≤ balances.length + 1)
    (search : Search) (exact : search.Exact balances count) :
    ∃ final, (List.range count).reverse.foldlM (Search.step? sums) search = some final ∧ final.Exact balances 0 := by
  induction count generalizing search with
  | zero => exact ⟨search, rfl, exact⟩
  | succ count inductionHypothesis =>
    obtain ⟨next, moved, further⟩ := Search.step?_exact levels count (Nat.le_of_succ_le_succ inside) search exact
    obtain ⟨final, folded, all⟩ := inductionHypothesis (Nat.le_of_succ_le inside) next further
    refine ⟨final, ?_, all⟩
    rw [List.range_succ, List.reverse_append, List.reverse_singleton, List.singleton_append, List.foldlM_cons, moved]
    exact folded

private theorem Search.exact_start (balances : List Balance) :
    Search.Exact balances (balances.length + 1) ⟨[], Array.replicate (balances.length + 1) none⟩ where
  within := by simp
  first bound := (firstLower?_empty (levelAt balances) bound _).symm
  size := Array.size_replicate
  ahead other before := by rw [Array.getElem?_replicate, if_pos before]
  found other reached ends := absurd reached (Nat.not_le.mpr (Nat.lt_succ_of_le ends))

end Search

def kept (balances : List Balance) : List Balance := balances.reverse.filter fun balance => balance.sum ≠ 0

private theorem ofBalances?_eq (balances : List Balance) : ∃ table, ofBalances? balances = some table ∧
    table.lines = ((kept balances).map Balance.line).toArray ∧
      ∀ number ≤ (kept balances).length, table.lower[number]? =
        some (firstLower? (levelAt (kept balances)) (levelAt (kept balances) number) (number + 1)
          ((kept balances).length + 1)) := by
  have start : Levels [] #[0] := ⟨rfl, fun number none => by rw [Nat.le_zero.mp none]; rfl⟩
  obtain ⟨sums, summed, levels⟩ := foldlM_pushSum? [] (kept balances) #[0] start
  rw [List.nil_append] at levels
  obtain ⟨final, searched, exact⟩ := Search.foldlM_exact levels _ (Nat.le_refl _) _ (Search.exact_start _)
  rw [← levels.size] at searched
  refine ⟨⟨_, final.lower⟩, ?_, rfl, fun number ends => exact.found number (Nat.zero_le number) ends⟩
  rw [kept] at summed
  rw [ofBalances?, summed, Option.bind_eq_bind, Option.bind_some, searched]
  rfl

private theorem countUpTo?_eq (lines : Array Nat) (line low high border : Nat) (lower : low ≤ border)
    (upper : border ≤ high) (inside : high ≤ lines.size)
    (separates : ∀ position number, lines[position]? = some number → (number ≤ line ↔ position < border)) :
    countUpTo? lines line low high = some border := by
  fun_induction countUpTo? lines line low high with
  | case1 low high apart missing =>
    rw [Array.getElem?_eq_none_iff] at missing
    omega
  | case2 low high apart middle found before inductionHypothesis =>
    exact inductionHypothesis ((separates _ middle found).mp before) upper inside
  | case3 low high apart middle found behind inductionHypothesis =>
    have reached := mt (separates _ middle found).mpr behind
    exact inductionHypothesis lower (by omega) (by omega)
  | case4 low high met => rw [Nat.le_antisymm lower (by omega)]

private theorem countUpTo?_front (front back : List Balance) (opening : Nat)
    (before : ∀ balance ∈ front, balance.line ≤ opening) (behind : ∀ balance ∈ back, opening < balance.line) :
    countUpTo? ((front ++ back).map Balance.line).toArray opening 0 ((front ++ back).map Balance.line).toArray.size =
      some front.length := by
  apply countUpTo?_eq _ _ _ _ _ (Nat.zero_le _) (by simp) (Nat.le_refl _)
  intro position number found
  rw [List.getElem?_toArray, List.getElem?_map, Option.map_eq_some_iff] at found
  obtain ⟨balance, found, rfl⟩ := found
  by_cases inside : position < front.length
  · rw [List.getElem?_append_left inside] at found
    exact iff_of_true (before balance (List.mem_of_getElem? found)) inside
  · rw [List.getElem?_append_right (Nat.le_of_not_lt inside)] at found
    exact iff_of_false (Nat.not_le.mpr (behind balance (List.mem_of_getElem? found))) inside

private theorem entryBefore?_lines (balances : List Balance) (number start : Nat) (bound : Int)
    (found : firstLower? (levelAt balances) bound (start + 1) (balances.length + 1) = some number) :
    ∃ balance, balances[number - 1]? = some balance ∧
      entryBefore? (balances.map Balance.line).toArray number = some balance.line := by
  rw [firstLower?, List.find?_range'_eq_some, List.mem_range'_1] at found
  have inside : number - 1 < balances.length := by omega
  have here : balances[number - 1]? = some balances[number - 1] := List.getElem?_eq_getElem inside
  refine ⟨_, here, ?_⟩
  rw [entryBefore?, if_pos (by omega), List.getElem?_toArray, List.getElem?_map, here]
  rfl

/-- With every number checked the table gives the closing lines that it gives without. -/
theorem closingLine?_checked (balances : List Balance) (descending : Descending balances) :
    ∃ table, ofBalances? balances = some table ∧
      ∀ opening, table.closingLine? opening = some ((ClosingTable.ofBalances balances).closingLine? opening) := by
  obtain ⟨table, made, lines, lower⟩ := ofBalances?_eq balances
  refine ⟨table, made, fun opening => ?_⟩
  have ascending : Ascending (kept balances) := (List.pairwise_reverse.mpr descending).filter _
  have split := ascending.split opening
  obtain ⟨front, known⟩ : ∃ front, front = (kept balances).filter fun balance => balance.line ≤ opening := ⟨_, rfl⟩
  obtain ⟨back, same⟩ : ∃ back, back = (kept balances).filter fun balance => opening < balance.line := ⟨_, rfl⟩
  rw [← known, ← same] at split
  have before : ∀ balance ∈ front, balance.line ≤ opening := by
    intro balance member
    rw [known, List.mem_filter] at member
    exact of_decide_eq_true member.2
  have behind : ∀ balance ∈ back, opening < balance.line := by
    intro balance member
    rw [same, List.mem_filter] at member
    exact of_decide_eq_true member.2
  -- What the table without numbers scans is what is kept behind the opening line.
  have scanned : (ClosingTable.ofBalances balances).closingLine? opening = usedUp? 1 back := by
    rw [ClosingTable.closingLine?_eq balances descending, ← usedUp?_filter _ 1 (by decide), same, kept,
      List.filter_filter, List.filter_filter]
    simp only [Bool.and_comm]
  have looked := usedUp?_eq_firstLower? front back (levelAt (front ++ back) front.length)
  rw [Int.sub_self, Int.zero_add] at looked
  rw [split] at lines lower
  have entry := lower front.length (by simp)
  rw [closingLine?, lines, countUpTo?_front front back opening before behind, scanned, looked, Option.bind_eq_bind,
    Option.bind_some, entry, Option.join_some]
  cases found : firstLower? (levelAt (front ++ back)) (levelAt (front ++ back) front.length) (front.length + 1)
      ((front ++ back).length + 1) with
  | none => rfl
  | some number =>
    obtain ⟨balance, here, read⟩ := entryBefore?_lines _ _ _ _ found
    rw [Option.bind_some, here]
    dsimp only
    rw [read]
    rfl

end NumberedTable

private theorem isLeast_closing_iff (changes : List Balance) (opening closing : Nat) :
    IsLeast {line | opening < line ∧ total changes opening line < 0} closing ↔
      opening < closing ∧ total changes opening closing < 0 ∧
        ∀ line, opening < line → line < closing → 0 ≤ total changes opening line := by
  constructor
  · rintro ⟨⟨behind, negative⟩, least⟩
    refine ⟨behind, negative, fun line later before => ?_⟩
    by_contra lower
    exact absurd (least ⟨later, not_le.mp lower⟩) (not_le.mpr before)
  · rintro ⟨behind, negative, others⟩
    refine ⟨⟨behind, negative⟩, fun line ⟨later, lower⟩ => ?_⟩
    by_contra before
    exact absurd (others line later (not_le.mp before)) (not_le.mpr lower)

/-- Note changes of a name in any number, line after line, and make the table of its closing lines. It is made without a
number out of bounds, and it is asked without one. The closing line of an opening one is the least line behind it up to
which, from behind it on, the changes sum up to less than nothing, and there is none if there is no such line. -/
theorem closings_exact (changes : List Balance)
    (ordered : changes.Pairwise fun first second => first.line ≤ second.line) :
    ∃ table, NumberedTable.ofBalances? (tally changes []) = some table ∧ ∀ opening,
      let closing? := (ClosingTable.ofBalances (tally changes [])).closingLine? opening
      let lines := {line | opening < line ∧ total changes opening line < 0}
      table.closingLine? opening = some closing? ∧ (∀ closing, closing? = some closing ↔ IsLeast lines closing) ∧
        (closing? = none ↔ lines = ∅) := by
  have descending := tally_descending changes [] ordered (by simp) List.Pairwise.nil
  obtain ⟨table, made, checked⟩ := NumberedTable.closingLine?_checked _ descending
  refine ⟨table, made, fun opening => ?_⟩
  intro closing? lines
  have exact (closing : Nat) : closing? = some closing ↔ IsLeast lines closing :=
    (closingLine?_tally_iff changes ordered opening closing).trans (isLeast_closing_iff changes opening closing).symm
  refine ⟨checked opening, exact, ?_⟩
  rw [Option.eq_none_iff_forall_ne_some, Set.eq_empty_iff_forall_notMem]
  constructor
  · intro unclosed line member
    classical
    have inhabited : ∃ line, line ∈ lines := ⟨line, member⟩
    exact unclosed _ ((exact _).mpr ⟨Nat.find_spec inhabited, fun other => Nat.find_min' inhabited⟩)
  · exact fun empty closing closes => empty closing ((exact closing).mp closes).1

/-- Line 1 is told twice, line 3 cancels out, and line 6 brings the sum back to where it was before line 1. Line 2 has
never been told. -/
theorem closings_exact_plateau :
    let changes : List Balance := [⟨1, 2⟩, ⟨1, -1⟩, ⟨3, 4⟩, ⟨3, -4⟩, ⟨4, 2⟩, ⟨6, -3⟩, ⟨8, -1⟩]
    ∃ table, NumberedTable.ofBalances? (tally changes []) = some table ∧
      [0, 1, 2, 3, 4, 6, 8].map table.closingLine? =
        [some (some 8), some (some 6), some (some 6), some (some 6), some (some 6), some (some 8), some none] ∧
      IsLeast {line | 0 < line ∧ total changes 0 line < 0} 8 ∧ {line | 8 < line ∧ total changes 8 line < 0} = ∅ := by
  intro changes
  obtain ⟨table, made, exact⟩ := closings_exact changes (by decide)
  refine ⟨table, made, ?_, ((exact 0).2.1 8).mp (by decide +kernel), (exact 8).2.2.mp (by decide +kernel)⟩
  simp only [List.map_cons, List.map_nil, (exact _).1]
  decide +kernel

end MarkupOutline.Block
