import Mathlib.Algebra.BigOperators.Group.List.Basic
import Mathlib.Algebra.Ring.Int.Defs
import MarkupOutline.Block.Closing

/-! The table of closing lines is exact. The sweep from the last line to the first finds for every entry
what a plain scan forward from it finds, and the search by halving finds the entry to start from. -/
namespace MarkupOutline.Block

/-- The sum of the changes behind line `opening` up to line `last`. -/
def total (changes : List Balance) (opening last : Nat) : Int :=
  ((changes.filter fun change => opening < change.line && change.line ≤ last).map Balance.sum).sum

/-- Some changes noted one after the other. -/
def tally (changes balances : List Balance) : List Balance :=
  changes.foldl (fun balances change => record change.line change.sum balances) balances

theorem total_cons (change : Balance) (changes : List Balance) (opening last : Nat) :
    total (change :: changes) opening last =
      (if opening < change.line ∧ change.line ≤ last then change.sum else 0) +
        total changes opening last := by
  unfold total
  rw [List.filter_cons]
  by_cases inside : opening < change.line ∧ change.line ≤ last
  · simp [inside]
  · simp [inside]

private theorem total_record (line : Nat) (weight : Int) (balances : List Balance) (opening last : Nat) :
    total (record line weight balances) opening last =
      total balances opening last + total [⟨line, weight⟩] opening last := by
  cases balances with
  | nil => simp [record, total]
  | cons newest older =>
    rw [record]
    split
    · next same =>
      simp only [total_cons, same]
      split <;> simp [total, add_right_comm]
    · rw [total_cons ⟨line, weight⟩, total_cons ⟨line, weight⟩ []]
      simp [total, add_comm]

private theorem total_tally (changes balances : List Balance) (opening last : Nat) :
    total (tally changes balances) opening last =
      total balances opening last + total changes opening last := by
  induction changes generalizing balances with
  | nil => simp [tally, total]
  | cons change rest inductionHypothesis =>
    have step : tally (change :: rest) balances = tally rest (record change.line change.sum balances) := rfl
    rw [step, inductionHypothesis, total_record, total_cons change rest, total_cons _ []]
    simp [total, add_assoc]

/-- Balances are kept newest first, one for each line. -/
def Descending (balances : List Balance) : Prop :=
  balances.Pairwise fun newer older => older.line < newer.line

private theorem record_lines (line : Nat) (weight : Int) (balances : List Balance)
    (earlier : ∀ balance ∈ balances, balance.line ≤ line) :
    ∀ balance ∈ record line weight balances, balance.line ≤ line := by
  intro balance membership
  cases balances with
  | nil =>
    rw [record, List.mem_singleton] at membership
    exact Nat.le_of_eq (congrArg Balance.line membership)
  | cons newest older =>
    rw [record] at membership
    split at membership
    · rcases List.mem_cons.mp membership with rfl | rest
      · exact Nat.le_refl line
      · exact earlier balance (List.mem_cons_of_mem newest rest)
    · rcases List.mem_cons.mp membership with rfl | rest
      · exact Nat.le_refl line
      · exact earlier balance rest

private theorem record_descending (line : Nat) (weight : Int) (balances : List Balance)
    (earlier : ∀ balance ∈ balances, balance.line ≤ line) (ordered : Descending balances) :
    Descending (record line weight balances) := by
  cases balances with
  | nil => exact List.pairwise_singleton _ _
  | cons newest older =>
    have ⟨newer, rest⟩ := List.pairwise_cons.mp ordered
    rw [record]
    split
    · next same => exact List.pairwise_cons.mpr ⟨fun balance membership => same ▸ newer balance membership, rest⟩
    · next other =>
      have before : newest.line < line := Nat.lt_of_le_of_ne (earlier newest (by simp)) other
      refine List.pairwise_cons.mpr ⟨?_, ordered⟩
      intro balance membership
      rcases List.mem_cons.mp membership with rfl | member
      · exact before
      · exact Nat.lt_trans (newer balance member) before

theorem tally_descending (changes balances : List Balance)
    (ordered : changes.Pairwise fun first second => first.line ≤ second.line)
    (earlier : ∀ balance ∈ balances, ∀ change ∈ changes, balance.line ≤ change.line)
    (descending : Descending balances) : Descending (tally changes balances) := by
  induction changes generalizing balances with
  | nil => exact descending
  | cons change rest inductionHypothesis =>
    have ⟨later, inner⟩ := List.pairwise_cons.mp ordered
    have before : ∀ balance ∈ balances, balance.line ≤ change.line :=
      fun balance membership => earlier balance membership change (by simp)
    apply inductionHypothesis _ inner
    · intro balance membership following member
      exact Nat.le_trans (record_lines change.line change.sum balances before balance membership)
        (later following member)
    · exact record_descending change.line change.sum balances before descending

/-- The line at which a count is used up. -/
def usedUp? : Int → List Balance → Option Nat
  | _, [] => none
  | count, balance :: rest =>
    if count + balance.sum ≤ 0 then some balance.line else usedUp? (count + balance.sum) rest

/-- The entries that scans forward from every line give. -/
def scannedEntries : List Balance → List Entry
  | [] => []
  | balance :: rest => ⟨balance.line, usedUp? 1 (balance :: rest)⟩ :: scannedEntries rest

/-- What a sweep knows of the lines that it has seen: the heights it keeps answer a scan that starts
before these lines, whatever count it starts with. -/
structure Sweep.Exact (sweep : Sweep) (seen : List Balance) : Prop where
  entries : sweep.entries = scannedEntries seen
  lower : ∀ count : Int, 0 < count →
    (sweep.lower.dropWhile fun height => sweep.level - count < height.level).head?.map Height.line =
      usedUp? count seen

private theorem dropWhile_dropWhile {Item : Type} (first second : Item → Bool) (items : List Item)
    (weaker : ∀ item, first item = true → second item = true) :
    (items.dropWhile first).dropWhile second = items.dropWhile second := by
  induction items with
  | nil => rfl
  | cons item rest inductionHypothesis =>
    by_cases dropped : first item = true
    · rw [List.dropWhile_cons, if_pos dropped, inductionHypothesis, List.dropWhile_cons,
        if_pos (weaker item dropped)]
    · rw [List.dropWhile_cons, if_neg dropped]

private theorem Sweep.step_exact (sweep : Sweep) (seen : List Balance) (exact : sweep.Exact seen)
    (balance : Balance) : (sweep.step balance).Exact (balance :: seen) := by
  have lower : ∀ count : Int, 0 < count →
      ((sweep.step balance).lower.dropWhile fun height =>
        (sweep.step balance).level - count < height.level).head?.map Height.line =
        usedUp? count (balance :: seen) := by
    intro count positive
    have absorbed := dropWhile_dropWhile
      (fun height : Height => decide (sweep.level - balance.sum ≤ height.level))
      (fun height : Height => decide (sweep.level - balance.sum - count < height.level))
      (⟨balance.line, sweep.level⟩ :: sweep.lower) (by
        intro height
        simp only [decide_eq_true_eq]
        omega)
    rw [usedUp?]
    unfold Sweep.step
    dsimp only
    rw [absorbed]
    by_cases reached : count + balance.sum ≤ 0
    · have stops : ¬ sweep.level - balance.sum - count < sweep.level := by omega
      simp [stops, reached]
    · have passes : sweep.level - balance.sum - count < sweep.level := by omega
      have deeper := exact.lower (count + balance.sum) (by omega)
      have shifted : sweep.level - (count + balance.sum) = sweep.level - balance.sum - count := by omega
      rw [shifted] at deeper
      simp only [List.dropWhile_cons, passes, decide_true, if_true, reached, if_false]
      exact deeper
  refine ⟨?_, lower⟩
  -- The entry is the answer to the scan that counts from one.
  have answer := lower 1 (by decide)
  have kept : ((sweep.step balance).lower.dropWhile fun height =>
      (sweep.step balance).level - 1 < height.level) = (sweep.step balance).lower := by
    have same : (fun height : Height => decide ((sweep.step balance).level - 1 < height.level)) =
        fun height => decide (sweep.level - balance.sum ≤ height.level) := by
      funext height
      exact decide_eq_decide.mpr Int.sub_one_lt_iff
    rw [same]
    exact dropWhile_dropWhile _ _ _ fun _ dropped => dropped
  rw [kept] at answer
  rw [scannedEntries, ← exact.entries, ← answer]
  rfl

private theorem sweep_exact (balances : List Balance) : (balances.foldl Sweep.step {}).Exact balances.reverse := by
  have general : ∀ (sweep : Sweep) (seen : List Balance), sweep.Exact seen →
      (balances.foldl Sweep.step sweep).Exact (balances.reverse ++ seen) := by
    induction balances with
    | nil => exact fun _ _ exact => exact
    | cons balance rest inductionHypothesis =>
      intro sweep seen exact
      rw [List.foldl_cons, List.reverse_cons, List.append_assoc]
      exact inductionHypothesis _ _ (sweep.step_exact seen exact balance)
  have start : Sweep.Exact {} [] := ⟨rfl, fun _ _ => rfl⟩
  simpa using general {} [] start

namespace ClosingTable

/-- Halving narrows the search down to the position that separates the entries up to a line from those
below it. -/
theorem firstBelow_eq (entries : Array Entry) (line low high border : Nat) (lower : low ≤ border)
    (upper : border ≤ high) (inside : high ≤ entries.size)
    (separates : ∀ (position : Nat) (entry : Entry), entries[position]? = some entry →
      (line < entry.line ↔ border ≤ position)) :
    firstBelow entries line low high = border := by
  fun_induction firstBelow entries line low high with
  | case1 low high apart middle below inductionHypothesis =>
    obtain ⟨entry, found, behind⟩ := (Option.any_eq_true _ _).mp below
    have reached := (separates middle entry found).mp (by simpa using behind)
    exact inductionHypothesis lower reached (by omega)
  | case2 low high apart middle above inductionHypothesis =>
    have known : entries[middle]? = some entries[middle] := Array.getElem?_eq_getElem (by omega)
    have before : ¬ line < entries[middle].line := by
      intro behind
      rw [known] at above
      exact above (by simpa using behind)
    have passed : middle < border := by
      by_contra reached
      exact before ((separates middle _ known).mpr (by omega))
    exact inductionHypothesis passed upper inside
  | case3 low high met => omega

end ClosingTable

def Ascending (balances : List Balance) : Prop :=
  balances.Pairwise fun first second => first.line < second.line

theorem Ascending.split {balances : List Balance} (ascending : Ascending balances) (opening : Nat) :
    balances = balances.filter (fun balance => balance.line ≤ opening) ++
      balances.filter fun balance => opening < balance.line := by
  induction balances with
  | nil => rfl
  | cons first rest inductionHypothesis =>
    have ⟨later, inner⟩ := List.pairwise_cons.mp ascending
    by_cases before : first.line ≤ opening
    · have same := inductionHypothesis inner
      simp only [List.filter_cons, before, decide_true, if_true, Nat.not_lt.mpr before, decide_false,
        Bool.false_eq_true, if_false, List.cons_append, List.cons.injEq, true_and]
      exact same
    · have behind : ∀ balance ∈ first :: rest, opening < balance.line := by
        intro balance membership
        rcases List.mem_cons.mp membership with rfl | member
        · omega
        · have order := later balance member
          omega
      rw [List.filter_eq_nil_iff.mpr, List.filter_eq_self.mpr, List.nil_append]
      · intro balance membership
        simpa using behind balance membership
      · intro balance membership
        simpa using behind balance membership

private theorem scannedEntries_getElem? (balances : List Balance) (position : Nat) :
    (scannedEntries balances)[position]?.bind Entry.closing = usedUp? 1 (balances.drop position) := by
  induction balances generalizing position with
  | nil => simp [scannedEntries, usedUp?]
  | cons balance rest inductionHypothesis =>
    cases position with
    | zero => rfl
    | succ position => exact inductionHypothesis position

private theorem scannedEntries_lines (balances : List Balance) :
    (scannedEntries balances).map Entry.line = balances.map Balance.line := by
  induction balances with
  | nil => rfl
  | cons balance rest inductionHypothesis =>
    rw [scannedEntries, List.map_cons, List.map_cons, inductionHypothesis]

/-- The table answers with a scan over the balances behind the opening line. -/
theorem ClosingTable.closingLine?_eq (balances : List Balance) (descending : Descending balances)
    (opening : Nat) : (ClosingTable.ofBalances balances).closingLine? opening =
      usedUp? 1 (balances.reverse.filter fun balance => opening < balance.line) := by
  have ascending : Ascending balances.reverse := List.pairwise_reverse.mpr descending
  have entries : (ofBalances balances).entries = (scannedEntries balances.reverse).toArray := by
    rw [ofBalances, (sweep_exact balances).entries]
  have split := ascending.split opening
  obtain ⟨front, known⟩ : ∃ front,
      front = balances.reverse.filter fun balance => balance.line ≤ opening := ⟨_, rfl⟩
  rw [← known] at split
  have separates : ∀ (position : Nat) (entry : Entry),
      (scannedEntries balances.reverse).toArray[position]? = some entry →
        (opening < entry.line ↔ front.length ≤ position) := by
    intro position entry found
    have line : (balances.reverse.map Balance.line)[position]? = some entry.line := by
      rw [← scannedEntries_lines, List.getElem?_map, ← List.getElem?_toArray, found]
      rfl
    rw [List.getElem?_map, split] at line
    obtain ⟨balance, found, same⟩ := Option.map_eq_some_iff.mp line
    rw [← same]
    by_cases inside : position < front.length
    · rw [List.getElem?_append_left inside] at found
      have member := List.mem_of_getElem? found
      rw [known, List.mem_filter, decide_eq_true_eq] at member
      omega
    · rw [List.getElem?_append_right (by omega)] at found
      have member := (List.mem_filter.mp (List.mem_of_getElem? found)).2
      rw [decide_eq_true_eq] at member
      omega
  have size : (scannedEntries balances.reverse).length = balances.reverse.length := by
    have lines := congrArg List.length (scannedEntries_lines balances.reverse)
    simpa using lines
  have bounded : front.length ≤ (scannedEntries balances.reverse).toArray.size := by
    rw [List.size_toArray, size, split, List.length_append]
    omega
  rw [closingLine?, entries, firstBelow_eq _ opening 0 _ front.length (Nat.zero_le _) bounded
    (Nat.le_refl _) separates, List.getElem?_toArray, scannedEntries_getElem?]
  congr 1
  conv_lhs => rw [split]
  exact List.drop_left

private theorem total_before (balances : List Balance) (opening last : Nat)
    (behind : ∀ balance ∈ balances, last < balance.line) : total balances opening last = 0 := by
  induction balances with
  | nil => rfl
  | cons balance rest inductionHypothesis =>
    have first := behind balance (by simp)
    rw [total_cons, if_neg (by omega),
      inductionHypothesis fun other membership => behind other (List.mem_cons_of_mem balance membership)]
    rfl

/-- A scan ends at the first line by which the count is used up. -/
theorem usedUp?_eq_some_iff (balances : List Balance) (ascending : Ascending balances) (opening : Nat)
    (behind : ∀ balance ∈ balances, opening < balance.line) (count : Int) (positive : 0 < count)
    (closing : Nat) : usedUp? count balances = some closing ↔
      ¬ 0 < count + total balances opening closing ∧
        ∀ line, line < closing → 0 < count + total balances opening line := by
  induction balances generalizing count with
  | nil => simp [usedUp?, total, positive]
  | cons balance rest inductionHypothesis =>
    have ⟨later, inner⟩ := List.pairwise_cons.mp ascending
    have after := behind balance (by simp)
    have before : ∀ line, line < balance.line → total (balance :: rest) opening line = 0 ∧
        total rest opening line = 0 := by
      intro line earlier
      have empty : total rest opening line = 0 :=
        total_before rest opening line fun other membership => Nat.lt_trans earlier (later other membership)
      refine ⟨?_, empty⟩
      rw [total_cons, if_neg (by omega), empty]
      rfl
    have onward : ∀ line, balance.line ≤ line →
        total (balance :: rest) opening line = balance.sum + total rest opening line := by
      intro line reached
      rw [total_cons, if_pos ⟨after, reached⟩]
    rw [usedUp?]
    by_cases spent : count + balance.sum ≤ 0
    · have here : total (balance :: rest) opening balance.line = balance.sum := by
        rw [onward _ (Nat.le_refl _), total_before rest opening _ later, add_zero]
      rw [if_pos spent, Option.some.injEq]
      constructor
      · intro same
        subst same
        refine ⟨by omega, fun line earlier => ?_⟩
        rw [(before line earlier).1]
        omega
      · intro ⟨used, unused⟩
        rcases Nat.lt_trichotomy closing balance.line with earlier | same | further
        · rw [(before closing earlier).1] at used
          omega
        · exact same.symm
        · have positive := unused balance.line further
          omega
    · -- Below this line both counts are positive, and from it on they are the same count.
      have same : ∀ line, 0 < count + total (balance :: rest) opening line ↔
          0 < count + balance.sum + total rest opening line := by
        intro line
        by_cases earlier : line < balance.line
        · rw [(before line earlier).1, (before line earlier).2]
          omega
        · rw [onward line (by omega), add_assoc]
      rw [if_neg spent, inductionHypothesis inner
        (fun other membership => behind other (List.mem_cons_of_mem balance membership)) _ (by omega)]
      simp only [same]

private theorem total_reverse (balances : List Balance) (opening last : Nat) :
    total balances.reverse opening last = total balances opening last := by
  rw [total, List.filter_reverse, List.map_reverse, List.sum_reverse, total]

private theorem total_reached (changes : List Balance) (opening last : Nat) (reached : last ≤ opening) :
    total changes opening last = 0 := by
  rw [total, List.filter_eq_nil_iff.mpr]
  · rfl
  · intro change _
    simp only [Bool.and_eq_true, decide_eq_true_eq]
    omega

private theorem total_filter (balances : List Balance) (opening last : Nat) :
    total (balances.filter fun balance => opening < balance.line) opening last =
      total balances opening last := by
  rw [total, List.filter_filter, total]
  congr 3
  funext balance
  by_cases inside : opening < balance.line <;> simp [inside]

/-- The closing line is the first one behind the opening line by whose end more tags have been closed
than opened, counted from behind the opening line. -/
theorem closingLine?_tally_iff (changes : List Balance)
    (ordered : changes.Pairwise fun first second => first.line ≤ second.line) (opening closing : Nat) :
    (ClosingTable.ofBalances (tally changes [])).closingLine? opening = some closing ↔
      opening < closing ∧ total changes opening closing < 0 ∧
        ∀ line, opening < line → line < closing → 0 ≤ total changes opening line := by
  have descending := tally_descending changes [] ordered (by simp) List.Pairwise.nil
  have ascending : Ascending (tally changes []).reverse := List.pairwise_reverse.mpr descending
  have totals : ∀ last, total ((tally changes []).reverse.filter fun balance => opening < balance.line)
      opening last = total changes opening last := by
    intro last
    rw [total_filter, total_reverse, total_tally]
    simp [total]
  rw [ClosingTable.closingLine?_eq _ descending, usedUp?_eq_some_iff _ (ascending.filter _) opening
    (fun balance membership => by simpa using (List.mem_filter.mp membership).2) 1 (by decide)]
  simp only [totals]
  constructor
  · intro ⟨used, unused⟩
    have behind : opening < closing := by
      by_contra early
      rw [total_reached _ _ _ (by omega)] at used
      omega
    exact ⟨behind, by omega, fun line _ inside => by have positive := unused line inside; omega⟩
  · intro ⟨behind, negative, others⟩
    refine ⟨by omega, fun line inside => ?_⟩
    by_cases reached : opening < line
    · have kept := others line reached inside
      omega
    · rw [total_reached _ _ _ (by omega)]
      decide

end MarkupOutline.Block
