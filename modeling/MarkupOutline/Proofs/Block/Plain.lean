import Mathlib.Data.List.Basic
import MarkupOutline.Block.Source
import MarkupOutline.Proofs.Block.Closing
import MarkupOutline.Proofs.Text.Window

/-! Cutting lines into blocks by scanning forward, without any table. A range of the whole text is cut as
if its lines were a text of their own: lines outside the range have no influence on a scan inside it. -/
namespace MarkupOutline.Block

open Text

/-- Opening minus closing tags of a name in a line. -/
def weightOf (rules : Line.Rules) (name line : Text) : Int :=
  (((rules.tags line).filter fun tag => tag.name == name).map Line.Tag.weight).sum

/-- How many lines come before the one by whose end a count of open elements is used up. -/
def scanClosing? (rules : Line.Rules) (name : Text) : Int → List Text → Option Nat
  | _, [] => none
  | count, line :: rest =>
    if count + weightOf rules name line ≤ 0 then some 0
    else (scanClosing? rules name (count + weightOf rules name line) rest).map (· + 1)

/-- The name of the element that a line opens and does not close itself. -/
def openName? (rules : Line.Rules) (line : Text) : Option Text :=
  (rules.opener? line).bind fun tag =>
    if rules.closingCount tag.rest tag.name = 0 then some tag.name else none

def Extent.shift (distance : Nat) (extent : Extent) : Extent :=
  { extent with first := distance + extent.first, stop := distance + extent.stop }

/-- How many lines follow in the block that starts with a line. -/
def followers (rules : Line.Rules) (line : Text) (rest : List Text) : Nat :=
  (((openName? rules line).bind fun name => scanClosing? rules name 1 rest).map (· + 1)).getD 0

/-- The first block of some lines, found by scanning forward. -/
def scanBlock? (rules : Line.Rules) : List Text → Option Extent
  | [] => none
  | line :: rest =>
    if isBlank line then (scanBlock? rules rest).map (Extent.shift 1)
    else some ⟨0, 1 + followers rules line rest, depthOf line⟩

def changesOf (rules : Line.Rules) (name : Text) (number : Nat) : List Text → List Balance
  | [] => []
  | line :: rest =>
    ((rules.tags line).filter fun tag => tag.name == name).map (fun tag => ⟨number, tag.weight⟩) ++
      changesOf rules name (number + 1) rest

private theorem changesOf_lines (rules : Line.Rules) (name : Text) (number : Nat) (lines : List Text) :
    ∀ change ∈ changesOf rules name number lines, number ≤ change.line := by
  induction lines generalizing number with
  | nil => simp [changesOf]
  | cons line rest inductionHypothesis =>
    intro change membership
    rcases List.mem_append.mp membership with here | later
    · obtain ⟨tag, _, rfl⟩ := List.mem_map.mp here
      exact Nat.le_refl number
    · exact Nat.le_of_succ_le (inductionHypothesis (number + 1) change later)

private theorem changesOf_ordered (rules : Line.Rules) (name : Text) (number : Nat) (lines : List Text) :
    (changesOf rules name number lines).Pairwise fun first second => first.line ≤ second.line := by
  induction lines generalizing number with
  | nil => exact List.Pairwise.nil
  | cons line rest inductionHypothesis =>
    refine List.pairwise_append.mpr ⟨?_, inductionHypothesis (number + 1), ?_⟩
    · exact List.pairwise_map.mpr (List.pairwise_of_forall fun _ _ => Nat.le_refl number)
    · intro first here second later
      obtain ⟨tag, _, rfl⟩ := List.mem_map.mp here
      exact Nat.le_of_succ_le (changesOf_lines rules name (number + 1) rest second later)

private theorem marksOf_filter (rules : Line.Rules) (name : Text) (number : Nat) (lines : List Text) :
    (((lines.zipIdx number).flatMap fun (line, number) => (rules.tags line).map fun tag =>
      (number, tag)).filter fun mark => mark.2.name == name).map
        (fun mark => (⟨mark.1, mark.2.weight⟩ : Balance)) = changesOf rules name number lines := by
  induction lines generalizing number with
  | nil => rfl
  | cons line rest inductionHypothesis =>
    rw [List.zipIdx_cons, List.flatMap_cons, List.filter_append, List.map_append, inductionHypothesis,
      changesOf, List.filter_map, List.map_map]
    rfl

private theorem balancesOf_eq (rules : Line.Rules) (name : Text) (lines : List Text) :
    balancesOf name (marksOf rules lines) [] = tally (changesOf rules name 0 lines) [] := by
  rw [← marksOf_filter, tally, List.foldl_map]
  rfl

/-- What the lines behind one up to another add to the count of open elements. -/
theorem total_changesOf (rules : Line.Rules) (name : Text) (number : Nat) (lines : List Text)
    (opening last : Nat) : total (changesOf rules name number lines) opening last =
      ((window lines (opening + 1 - number) (last + 1 - number)).map (weightOf rules name)).sum := by
  induction lines generalizing number with
  | nil => simp [changesOf, total, window]
  | cons line rest inductionHypothesis =>
    have here : total ((((rules.tags line).filter fun tag => tag.name == name).map fun tag =>
        (⟨number, tag.weight⟩ : Balance))) opening last =
        if opening < number ∧ number ≤ last then weightOf rules name line else 0 := by
      rw [total, List.filter_map, List.map_map]
      by_cases inside : opening < number ∧ number ≤ last
      · rw [if_pos inside, weightOf, List.filter_eq_self.mpr fun tag _ => by simpa using inside]
        rfl
      · rw [if_neg inside, List.filter_eq_nil_iff.mpr fun tag _ => by simpa using inside]
        rfl
    have append : total (changesOf rules name number (line :: rest)) opening last =
        (if opening < number ∧ number ≤ last then weightOf rules name line else 0) +
          total (changesOf rules name (number + 1) rest) opening last := by
      rw [← here, total, changesOf, List.filter_append, List.map_append, List.sum_append, total, total]
    rw [append, inductionHypothesis]
    by_cases reached : number ≤ last
    · obtain ⟨stop, same⟩ : ∃ stop, last + 1 - number = stop + 1 := ⟨last - number, by omega⟩
      have inner : last + 1 - (number + 1) = stop := by omega
      rw [same, inner]
      by_cases before : opening < number
      · have start : opening + 1 - number = 0 := by omega
        have still : opening + 1 - (number + 1) = 0 := by omega
        rw [if_pos ⟨before, reached⟩, start, still, window_zero_succ, List.map_cons, List.sum_cons]
      · obtain ⟨start, same⟩ : ∃ start, opening + 1 - number = start + 1 := ⟨opening - number, by omega⟩
        have inner : opening + 1 - (number + 1) = start := by omega
        rw [if_neg (by omega), same, inner, window_succ, zero_add]
    · have none : last + 1 - number = 0 := by omega
      have still : last + 1 - (number + 1) = 0 := by omega
      rw [if_neg (by omega), none, still, window_empty _ _ 0 (Nat.zero_le _),
        window_empty _ _ 0 (Nat.zero_le _)]
      rfl

/-- A scan stops at the first line by whose end the count is used up. -/
theorem scanClosing?_eq_some_iff (rules : Line.Rules) (name : Text) (count : Int) (lines : List Text)
    (positive : 0 < count) (position : Nat) : scanClosing? rules name count lines = some position ↔
      ¬ 0 < count + ((window lines 0 (position + 1)).map (weightOf rules name)).sum ∧
        ∀ earlier, earlier < position →
          0 < count + ((window lines 0 (earlier + 1)).map (weightOf rules name)).sum := by
  induction lines generalizing count position with
  | nil => simp [scanClosing?, window, positive]
  | cons line rest inductionHypothesis =>
    have first : ((window (line :: rest) 0 1).map (weightOf rules name)).sum = weightOf rules name line := by
      simp [window]
    have onward : ∀ stop, ((window (line :: rest) 0 (stop + 1)).map (weightOf rules name)).sum =
        weightOf rules name line + ((window rest 0 stop).map (weightOf rules name)).sum := by
      intro stop
      rw [window_zero_succ, List.map_cons, List.sum_cons]
    rw [scanClosing?]
    by_cases spent : count + weightOf rules name line ≤ 0
    · rw [if_pos spent, Option.some.injEq]
      constructor
      · intro same
        subst same
        rw [first]
        exact ⟨by omega, fun _ earlier => absurd earlier (Nat.not_lt_zero _)⟩
      · rintro ⟨_, unused⟩
        by_contra later
        have positive := unused 0 (by omega)
        rw [first] at positive
        omega
    · rw [if_neg spent, Option.map_eq_some_iff]
      constructor
      · rintro ⟨inner, found, rfl⟩
        obtain ⟨used, unused⟩ := (inductionHypothesis _ (by omega) inner).mp found
        refine ⟨by rw [onward]; omega, fun earlier before => ?_⟩
        cases earlier with
        | zero =>
          rw [first]
          omega
        | succ earlier =>
          have positive := unused earlier (by omega)
          rw [onward]
          omega
      · rintro ⟨used, unused⟩
        cases position with
        | zero =>
          rw [first] at used
          omega
        | succ inner =>
          refine ⟨inner, (inductionHypothesis _ (by omega) inner).mpr ⟨?_, ?_⟩, rfl⟩
          · rw [onward] at used
            omega
          · intro earlier before
            have positive := unused (earlier + 1) (by omega)
            rw [onward] at positive
            omega

/-- A scan over a front of the lines gives the answer of the scan over all, if that lies in the front. -/
theorem scanClosing?_take (rules : Line.Rules) (name : Text) (count : Int) (lines : List Text)
    (size : Nat) : scanClosing? rules name count (lines.take size) =
      (scanClosing? rules name count lines).filter fun position => position < size := by
  induction lines generalizing count size with
  | nil => simp [scanClosing?]
  | cons line rest inductionHypothesis =>
    cases size with
    | zero => cases scanClosing? rules name count (line :: rest) <;> simp [scanClosing?]
    | succ size =>
      rw [List.take_succ_cons, scanClosing?, scanClosing?]
      split
      · rfl
      · rw [inductionHypothesis]
        cases scanClosing? rules name (count + weightOf rules name line) rest <;> simp [Option.filter]

theorem scanClosing?_lt (rules : Line.Rules) (name : Text) (count : Int) (lines : List Text)
    (position : Nat) (found : scanClosing? rules name count lines = some position) :
    position < lines.length := by
  induction lines generalizing count position with
  | nil => cases found
  | cons line rest inductionHypothesis =>
    rw [scanClosing?] at found
    split at found
    · cases found
      exact Nat.zero_lt_succ _
    · obtain ⟨inner, scanned, rfl⟩ := Option.map_eq_some_iff.mp found
      exact Nat.succ_lt_succ (inductionHypothesis _ inner scanned)

theorem scanClosing?_onward (rules : Line.Rules) (name line : Text) (rest : List Text) (count : Int)
    (positive : 0 < count + weightOf rules name line) : scanClosing? rules name count (line :: rest) =
      (scanClosing? rules name (count + weightOf rules name line) rest).map (· + 1) := by
  rw [scanClosing?, if_neg (Int.not_le.mpr positive)]

theorem scanClosing?_append (rules : Line.Rules) (name : Text) (count : Int) (front back : List Text) :
    scanClosing? rules name count (front ++ back) =
      (scanClosing? rules name count front).or
        ((scanClosing? rules name (count + (front.map (weightOf rules name)).sum) back).map
          (front.length + ·)) := by
  induction front generalizing count with
  | nil => simp [scanClosing?]
  | cons line rest inductionHypothesis =>
    rw [List.cons_append, scanClosing?, scanClosing?]
    split
    · rfl
    · rw [inductionHypothesis, List.map_cons, List.sum_cons, add_assoc, Option.map_or, Option.map_map]
      congr 2
      funext position
      simp only [Function.comp_apply, List.length_cons]
      omega

theorem scanClosing?_none_open (rules : Line.Rules) (name : Text) (count : Int) (lines : List Text)
    (positive : 0 < count) (endless : scanClosing? rules name count lines = none) :
    0 < count + (lines.map (weightOf rules name)).sum := by
  induction lines generalizing count with
  | nil => simpa using positive
  | cons line rest inductionHypothesis =>
    rw [scanClosing?] at endless
    split at endless
    · cases endless
    · rw [List.map_cons, List.sum_cons, ← add_assoc]
      exact inductionHypothesis _ (by omega) (Option.map_eq_none_iff.mp endless)

/-- With more elements open a scan ends no earlier. -/
theorem scanClosing?_none_of_le (rules : Line.Rules) (name : Text) (count more : Int) (lines : List Text)
    (above : count ≤ more) (endless : scanClosing? rules name count lines = none) :
    scanClosing? rules name more lines = none := by
  induction lines generalizing count more with
  | nil => rfl
  | cons line rest inductionHypothesis =>
    rw [scanClosing?] at endless
    split at endless
    · cases endless
    · rw [scanClosing?_onward _ _ _ _ _ (by omega), Option.map_eq_none_iff]
      exact inductionHypothesis _ _ (by omega) (Option.map_eq_none_iff.mp endless)

theorem followers_le (rules : Line.Rules) (line : Text) (rest : List Text) :
    followers rules line rest ≤ rest.length := by
  rw [followers]
  cases found : (openName? rules line).bind fun name => scanClosing? rules name 1 rest with
  | none => exact Nat.zero_le _
  | some distance =>
    obtain ⟨name, _, scanned⟩ := Option.bind_eq_some_iff.mp found
    exact scanClosing?_lt rules name 1 rest distance scanned

theorem scanBlock?_bounds (rules : Line.Rules) (lines : List Text) (extent : Extent)
    (found : scanBlock? rules lines = some extent) :
    extent.first < extent.stop ∧ extent.stop ≤ lines.length := by
  induction lines generalizing extent with
  | nil => cases found
  | cons line rest inductionHypothesis =>
    rw [scanBlock?] at found
    split at found
    · obtain ⟨inner, scanned, rfl⟩ := Option.map_eq_some_iff.mp found
      have bounds := inductionHypothesis inner scanned
      simp only [Extent.shift, List.length_cons]
      omega
    · cases found
      have inside := followers_le rules line rest
      simp only [List.length_cons]
      omega

/-- The first block among the lines of a range, numbered as in the whole. -/
def scanRange? (rules : Line.Rules) (lines : List Text) (start stop : Nat) : Option Extent :=
  (scanBlock? rules (window lines start stop)).map (Extent.shift start)

theorem scanRange?_bounds (rules : Line.Rules) (lines : List Text) (start stop : Nat) (extent : Extent)
    (inside : stop ≤ lines.length) (found : scanRange? rules lines start stop = some extent) :
    start ≤ extent.first ∧ extent.first < extent.stop ∧ extent.stop ≤ stop := by
  obtain ⟨inner, scanned, rfl⟩ := Option.map_eq_some_iff.mp found
  have bounds := scanBlock?_bounds rules _ inner scanned
  rw [length_window _ _ _ inside] at bounds
  simp only [Extent.shift]
  omega

namespace Source

/-- The table of a name answers with a scan over the lines behind the opening one. -/
theorem closings_getElem? (rules : Line.Rules) (text name : Text) (opening : Nat) :
    (ofText rules text).closings[name]?.bind (·.closingLine? opening) =
      (scanClosing? rules name 1 ((Text.lines text).drop (opening + 1))).map (opening + 1 + ·) := by
  have table : (ofText rules text).closings[name]?.bind (·.closingLine? opening) =
      (ClosingTable.ofBalances (tally (changesOf rules name 0 (Text.lines text)) [])).closingLine? opening := by
    have balances : ((marksOf rules (Text.lines text)).foldl noteMark ∅).getD name [] =
        tally (changesOf rules name 0 (Text.lines text)) [] := by
      rw [noteMark_fold, ← balancesOf_eq]
      rfl
    rw [← balances, ofText, Std.TreeMap.getElem?_map, Std.TreeMap.getD_eq_getD_getElem?]
    cases ((marksOf rules (Text.lines text)).foldl noteMark ∅)[name]? <;> rfl
  have totals : ∀ distance, total (changesOf rules name 0 (Text.lines text)) opening (opening + 1 + distance) =
      ((window ((Text.lines text).drop (opening + 1)) 0 (distance + 1)).map (weightOf rules name)).sum := by
    intro distance
    have size : distance + 1 = opening + 1 + distance + 1 - (opening + 1) := by omega
    rw [total_changesOf, size, window_drop]
    rfl
  rw [table]
  apply Option.ext
  intro closing
  rw [closingLine?_tally_iff _ (changesOf_ordered rules name 0 _), Option.map_eq_some_iff]
  constructor
  · intro ⟨behind, negative, others⟩
    obtain ⟨distance, rfl⟩ : ∃ distance, closing = opening + 1 + distance :=
      ⟨closing - (opening + 1), by omega⟩
    refine ⟨distance, (scanClosing?_eq_some_iff rules name 1 _ (by decide) distance).mpr ⟨?_, ?_⟩, rfl⟩
    · rw [← totals]
      omega
    · intro earlier before
      have kept := others (opening + 1 + earlier) (by omega) (by omega)
      rw [← totals]
      omega
  · rintro ⟨distance, found, rfl⟩
    obtain ⟨used, unused⟩ := (scanClosing?_eq_some_iff rules name 1 _ (by decide) distance).mp found
    refine ⟨by omega, by rw [totals]; omega, fun line after before => ?_⟩
    obtain ⟨earlier, rfl⟩ : ∃ earlier, line = opening + 1 + earlier := ⟨line - (opening + 1), by omega⟩
    have kept := unused earlier (by omega)
    rw [totals]
    omega

theorem line_ofText (rules : Line.Rules) (text : Text) (number : Nat)
    (inside : number < (Text.lines text).length) :
    (ofText rules text).line number = (Text.lines text)[number] := by
  rw [line, ofText, List.getElem?_toArray, List.getElem?_eq_getElem inside]
  rfl

/-- Where the element opened by a line closes, told by a scan over the lines of the range behind it. -/
theorem closingLine?_eq (rules : Line.Rules) (text : Text) (opening stop : Nat)
    (inside : opening < (Text.lines text).length) :
    (ofText rules text).closingLine? opening stop =
      ((openName? rules (Text.lines text)[opening]).bind fun name =>
        scanClosing? rules name 1 (window (Text.lines text) (opening + 1) stop)).map (opening + 1 + ·) := by
  rw [closingLine?, line_ofText rules text opening inside, openName?]
  have same : (ofText rules text).rules = rules := rfl
  rw [same]
  cases rules.opener? (Text.lines text)[opening] with
  | none => rfl
  | some tag =>
    simp only [Option.bind_some]
    split
    · rw [closings_getElem?, Option.bind_some, window, scanClosing?_take]
      cases scanClosing? rules tag.name 1 ((Text.lines text).drop (opening + 1)) with
      | none => rfl
      | some distance =>
        by_cases short : distance < stop - (opening + 1)
        · have reached : opening < opening + 1 + distance ∧ opening + 1 + distance < stop := by omega
          simp [Option.filter, short, reached]
        · have outside : ¬ opening + 1 + distance < stop := by omega
          simp [Option.filter, short, outside]
    · rfl

/-- The next block of a range is found by scanning the lines of that range alone. -/
theorem nextBlock?_eq (rules : Line.Rules) (text : Text) (start stop : Nat)
    (inside : stop ≤ (Text.lines text).length) :
    (ofText rules text).nextBlock? start stop = scanRange? rules (Text.lines text) start stop := by
  rw [nextBlock?, scanRange?]
  fun_induction (ofText rules text).firstSolid? start stop with
  | case1 start reached blank inductionHypothesis =>
    rw [line_ofText rules text start (by omega)] at blank
    rw [inductionHypothesis, window_cons _ _ _ reached (by omega), scanBlock?, if_pos blank, Option.map_map]
    congr 1
    funext extent
    simp [Extent.shift, Nat.add_assoc]
  | case2 start reached solid =>
    rw [line_ofText rules text start (by omega)] at solid
    rw [window_cons _ _ _ reached (by omega), scanBlock?, if_neg solid, Option.map_some,
      closingLine?_eq rules text start stop (by omega), line_ofText rules text start (by omega), followers]
    cases (openName? rules (Text.lines text)[start]).bind fun name =>
        scanClosing? rules name 1 (window (Text.lines text) (start + 1) stop) with
    | none => rfl
    | some distance =>
      have stops : start + 1 + distance + 1 = start + (1 + (distance + 1)) := by omega
      simp only [Option.map_some, Option.getD_some, Extent.shift, stops, Nat.add_zero]
  | case3 start passed =>
    rw [window_empty _ _ _ (by omega)]
    rfl

end Source

end MarkupOutline.Block
