/-! Text is a list of characters, and white space is the Unicode property `White_Space`.
Trimming and blankness of lines depend on this class only. -/
namespace MarkupOutline

/-- A text is the list of its characters. -/
abbrev Text := List Char

namespace Text

/-- The characters with the Unicode property `White_Space`. -/
def isWhite (letter : Char) : Bool :=
  let code := letter.toNat
  (0x9 ≤ code && code ≤ 0xD) || code == 0x20 || code == 0x85 || code == 0xA0 || code == 0x1680 ||
    (0x2000 ≤ code && code ≤ 0x200A) || code == 0x2028 || code == 0x2029 || code == 0x202F ||
    code == 0x205F || code == 0x3000

/-- Cut the longest run of chosen characters off the end. -/
def dropEndWhile (chosen : Char → Bool) (text : Text) : Text :=
  (text.reverse.dropWhile chosen).reverse

/-- Cut white space off the start. -/
def trimStart (text : Text) : Text := text.dropWhile isWhite

/-- Cut white space off both ends. -/
def trim (text : Text) : Text := dropEndWhile isWhite (trimStart text)

/-- A blank text has nothing but white space. -/
def isBlank (text : Text) : Bool := text.all isWhite

private theorem dropWhile_nil_iff (chosen : Char → Bool) (text : Text) :
    text.dropWhile chosen = [] ↔ ∀ letter ∈ text, chosen letter = true := by
  induction text with
  | nil => simp
  | cons letter rest inductionHypothesis =>
    by_cases taken : chosen letter = true
    · rw [List.dropWhile_cons, if_pos taken, inductionHypothesis]
      simp [taken]
    · simp [taken]

theorem dropEndWhile_eq_nil_iff (chosen : Char → Bool) (text : Text) :
    dropEndWhile chosen text = [] ↔ ∀ letter ∈ text, chosen letter = true := by
  rw [dropEndWhile, List.reverse_eq_nil_iff, dropWhile_nil_iff]
  simp

/-- A text is blank exactly when trimming leaves nothing of it. -/
theorem isBlank_iff (text : Text) : isBlank text = true ↔ trim text = [] := by
  rw [trim, dropEndWhile_eq_nil_iff, trimStart, isBlank, List.all_eq_true]
  constructor
  · intro white letter membership
    exact white letter ((List.dropWhile_sublist isWhite).subset membership)
  · intro white
    induction text with
    | nil => simp
    | cons letter rest inductionHypothesis =>
      by_cases first : isWhite letter = true
      · simp only [List.dropWhile_cons, first, if_true] at white
        simpa [first] using inductionHypothesis white
      · simp only [List.dropWhile_cons, first] at white
        exact white

end Text

end MarkupOutline
