import MarkupOutline.Text.White

/-! Searching for a fixed piece of text, for the place where a scan stops, and cutting a text at
byte positions of its UTF-8 form. A cut that falls inside a character has no result. -/
namespace MarkupOutline.Text

/-- Whether `part` occurs somewhere in a text. -/
def occursIn (part : Text) : Text → Bool
  | [] => part.isEmpty
  | letter :: rest => part.isPrefixOf (letter :: rest) || occursIn part rest

/-- The texts before and after the first occurrence of `mark`. -/
def breakOn? (mark : Text) (text : Text) : Option (Text × Text) :=
  if mark.isPrefixOf text then some ([], text.drop mark.length)
  else match text with
    | [] => none
    | letter :: rest => (breakOn? mark rest).map (Prod.map (letter :: ·) id)

/-- Run a scan over a text and cut at the character that stops it; that character is dropped. -/
def breakScan? {State : Type} (step : State → Char → Option State) (state : State) :
    Text → Option (Text × Text)
  | [] => none
  | letter :: rest =>
    match step state letter with
    | none => some ([], rest)
    | some next => (breakScan? step next rest).map (Prod.map (letter :: ·) id)

/-- The number of bytes of the UTF-8 form. -/
def byteLength : Text → Nat
  | [] => 0
  | letter :: rest => letter.utf8Size + byteLength rest

/-- Cut off exactly `count` bytes. -/
def dropBytes? (count : Nat) : Text → Option Text
  | [] => if count = 0 then some [] else none
  | letter :: rest =>
    if count = 0 then some (letter :: rest)
    else if letter.utf8Size ≤ count then dropBytes? (count - letter.utf8Size) rest
    else none

/-- Keep exactly `count` bytes. -/
def takeBytes? (count : Nat) : Text → Option Text
  | [] => if count = 0 then some [] else none
  | letter :: rest =>
    if count = 0 then some []
    else if letter.utf8Size ≤ count then (takeBytes? (count - letter.utf8Size) rest).map (letter :: ·)
    else none

/-- The `count` bytes from position `start` on. -/
def byteSlice? (start count : Nat) (text : Text) : Option Text :=
  (dropBytes? start text).bind (takeBytes? count)

theorem occursIn_iff (part text : Text) : occursIn part text = true ↔ part <:+: text := by
  induction text with
  | nil => simp [occursIn]
  | cons letter rest inductionHypothesis =>
    rw [occursIn, Bool.or_eq_true, inductionHypothesis, List.isPrefixOf_iff_prefix, List.infix_cons_iff]

theorem breakOn?_eq (mark text before after : Text) (found : breakOn? mark text = some (before, after)) :
    text = before ++ mark ++ after := by
  induction text generalizing before with
  | nil =>
    rw [breakOn?] at found
    split at found
    · next starts =>
      obtain ⟨rest, same⟩ := List.isPrefixOf_iff_prefix.mp starts
      simp_all
    · simp at found
  | cons letter rest inductionHypothesis =>
    rw [breakOn?] at found
    split at found
    · next starts =>
      obtain ⟨tail, same⟩ := List.isPrefixOf_iff_prefix.mp starts
      simp only [Option.some.injEq, Prod.mk.injEq] at found
      rw [← found.1, ← found.2, ← same]
      simp
    · obtain ⟨⟨first, second⟩, inner, same⟩ := Option.map_eq_some_iff.mp found
      simp only [Prod.map_apply, id_eq, Prod.mk.injEq] at same
      obtain ⟨rfl, rfl⟩ := same
      rw [inductionHypothesis first inner]
      simp

/-- What follows the mark is shorter by at least the mark. -/
theorem length_after_breakOn? (mark text before after : Text)
    (found : breakOn? mark text = some (before, after)) :
    after.length + mark.length ≤ text.length := by
  rw [breakOn?_eq mark text before after found]
  simp
  omega

theorem length_after_breakScan? {State : Type} (step : State → Char → Option State) (state : State)
    (text before after : Text) (found : breakScan? step state text = some (before, after)) :
    after.length < text.length := by
  induction text generalizing state before with
  | nil => simp [breakScan?] at found
  | cons letter rest inductionHypothesis =>
    rw [breakScan?] at found
    split at found
    · simp only [Option.some.injEq, Prod.mk.injEq] at found
      simp [found.2]
    · next next moved =>
      obtain ⟨⟨first, second⟩, inner, same⟩ := Option.map_eq_some_iff.mp found
      simp only [Prod.map_apply, id_eq, Prod.mk.injEq] at same
      obtain ⟨rfl, rfl⟩ := same
      exact Nat.lt_succ_of_lt (inductionHypothesis next first inner)

theorem takeBytes?_append (front rest : Text) : takeBytes? (byteLength front) (front ++ rest) = some front := by
  induction front with
  | nil => cases rest <;> simp [byteLength, takeBytes?]
  | cons letter more inductionHypothesis =>
    have positive := letter.utf8Size_pos
    rw [byteLength, List.cons_append, takeBytes?, if_neg (by omega), if_pos (by omega),
      Nat.add_sub_cancel_left, inductionHypothesis]
    rfl

theorem isSuffix_of_dropBytes? (count : Nat) (text rest : Text) (found : dropBytes? count text = some rest) :
    rest <:+ text := by
  induction text generalizing count with
  | nil =>
    rw [dropBytes?] at found
    split at found
    · cases found
      exact List.suffix_refl []
    · cases found
  | cons letter more inductionHypothesis =>
    rw [dropBytes?] at found
    split at found
    · cases found
      exact List.suffix_refl _
    · split at found
      · exact (inductionHypothesis _ found).trans (List.suffix_cons letter more)
      · cases found

theorem isPrefix_of_takeBytes? (count : Nat) (text front : Text) (found : takeBytes? count text = some front) :
    front <+: text := by
  induction text generalizing count front with
  | nil =>
    rw [takeBytes?] at found
    split at found
    · cases found
      exact List.prefix_refl []
    · cases found
  | cons letter more inductionHypothesis =>
    rw [takeBytes?] at found
    split at found
    · cases found
      exact List.nil_prefix
    · split at found
      · obtain ⟨inner, kept, rfl⟩ := Option.map_eq_some_iff.mp found
        exact List.cons_prefix_cons.mpr ⟨rfl, inductionHypothesis _ inner kept⟩
      · cases found

/-- Cutting by bytes gives a piece of the text. -/
theorem isInfix_of_byteSlice? (start count : Nat) (text piece : Text)
    (found : byteSlice? start count text = some piece) : piece <:+: text := by
  obtain ⟨rest, dropped, taken⟩ := Option.bind_eq_some_iff.mp found
  exact (isPrefix_of_takeBytes? count rest piece taken).isInfix.trans
    (isSuffix_of_dropBytes? start text rest dropped).isInfix

/-- A piece behind a first character of one byte is cut out by its length. -/
theorem byteSlice?_behind (first : Char) (single : first.utf8Size = 1) (piece rest : Text) :
    byteSlice? 1 (byteLength piece) (first :: (piece ++ rest)) = some piece := by
  have cut : dropBytes? 1 (first :: (piece ++ rest)) = some (piece ++ rest) := by
    rw [dropBytes?, if_neg Nat.one_ne_zero, single, if_pos (Nat.le_refl 1)]
    cases piece ++ rest <;> rfl
  rw [byteSlice?, cut, Option.bind_some, takeBytes?_append]

end MarkupOutline.Text
