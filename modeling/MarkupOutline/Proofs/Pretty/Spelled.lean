import MarkupOutline.Pretty.Format

/-! The formatted document as text. If the indentation byte is a character of its own, writing out bytes
and reading them as UTF-8 comes to joining the pieces as text. -/
namespace MarkupOutline.Pretty

open Markup

/-- The indentation byte as a character. -/
def Style.indentLetter (style : Style) : Char := Char.ofNat style.indentByte.toNat

def Piece.letters (style : Style) : Piece → Text
  | chars text => text
  | indent count => List.replicate count style.indentLetter

def Style.spell (style : Style) (pieces : List Piece) : Text := pieces.flatMap (Piece.letters style)

private theorem utf8EncodeChar_ofNat (byte : UInt8) (ascii : byte.toNat < 128) :
    String.utf8EncodeChar (Char.ofNat byte.toNat) = [byte] := by
  have valid : byte.toNat.isValidChar := .inl (by omega)
  have value : (Char.ofNat byte.toNat).val.toNat = byte.toNat := by
    rw [Char.ofNat, dif_pos valid]
    rfl
  unfold String.utf8EncodeChar
  simp only [value]
  rw [if_pos (by omega)]
  simp

private theorem Piece.bytes_eq (style : Style) (ascii : style.indentByte.toNat < 128) (piece : Piece) :
    piece.bytes style = (piece.letters style).flatMap String.utf8EncodeChar := by
  cases piece with
  | chars text => rfl
  | indent count =>
    rw [bytes, letters, List.flatMap_replicate, Style.indentLetter, utf8EncodeChar_ofNat _ ascii]
    simp

theorem encode_of_decode? (bytes : List UInt8) (text : Text) (read : decode? bytes = some text) :
    text.flatMap String.utf8EncodeChar = bytes := by
  obtain ⟨letters, decoded, rfl⟩ := Option.map_eq_some_iff.mp read
  have valid : bytes.toByteArray.utf8Decode?.isSome = true := by rw [decoded]; rfl
  have encoded := ByteArray.utf8Encode_get_utf8Decode? (h := valid)
  rw [Option.get_of_eq_some valid decoded, List.utf8Encode] at encoded
  have same := congrArg (fun array : ByteArray => array.data.toList) encoded
  simpa only [List.toList_data_toByteArray] using same

private theorem eq_of_mem_utf8EncodeChar (letter : Char) (byte : UInt8) (ascii : byte.toNat < 128)
    (member : byte ∈ String.utf8EncodeChar letter) : letter.toNat = byte.toNat := by
  have other : ∀ value : Nat, 128 ≤ value → value < 256 → byte ≠ UInt8.ofNat value := by
    rintro value lower upper rfl
    rw [UInt8.toNat_ofNat_of_lt' upper] at ascii
    omega
  unfold String.utf8EncodeChar at member
  dsimp only at member
  split at member
  · next single =>
    rw [List.mem_singleton] at member
    rw [member, UInt8.toNat_ofNat_of_lt' (Nat.lt_of_le_of_lt single (by decide))]
    rfl
  · exfalso
    split at member
    · simp only [List.mem_cons, List.not_mem_nil, or_false] at member
      rcases member with same | same
      all_goals exact other _ (by omega) (by omega) same
    · split at member
      all_goals simp only [List.mem_cons, List.not_mem_nil, or_false] at member
      · rcases member with same | same | same
        all_goals exact other _ (by omega) (by omega) same
      · rcases member with same | same | same | same
        all_goals exact other _ (by omega) (by omega) same

private theorem chars_mem_layoutFrom (style : Style) (cursor : Cursor) (events : List Event) (event : Event)
    (member : event ∈ events) : Piece.chars event.written ∈ layoutFrom style cursor events := by
  induction events generalizing cursor with
  | nil => cases member
  | cons first rest inductionHypothesis =>
    rw [layoutFrom]
    apply List.mem_append_right
    rcases List.mem_cons.mp member with rfl | later
    · exact List.mem_cons_self
    · exact List.mem_cons_of_mem _ (inductionHypothesis _ later)

theorem openElements_of_checkDocument (events : List Event) (complete : checkDocument events = .ok ()) :
    openElements [] events = .ok [] := by
  unfold checkDocument at complete
  split at complete
  · cases complete
  · cases complete
  · next closed => exact closed

namespace Style

theorem write_ascii (style : Style) (ascii : style.indentByte.toNat < 128) (events : List Event) :
    style.write events = .ok (style.separate (style.spell (layout style events))) := by
  have encoded : (layout style events).flatMap (Piece.bytes style) =
      (style.spell (layout style events)).flatMap String.utf8EncodeChar := by
    rw [spell, List.flatMap_assoc]
    congr 1
    funext piece
    exact piece.bytes_eq style ascii
  rw [write, encoded, decode?_encode]

/-- The parts of a formatting that succeeded. -/
theorem format_cases (style : Style) (raw out : Text) (formatted : style.format raw = .ok out) :
    ∃ events, read raw = .ok events ∧ checkDocument events = .ok () ∧ style.write events = .ok out := by
  unfold format at formatted
  split at formatted
  · cases formatted
  · next events known =>
    split at formatted
    · cases formatted
    · next complete => exact ⟨events, known, complete, formatted⟩

theorem format_of_read (style : Style) (raw : Text) (events : List Event) (known : read raw = .ok events)
    (complete : checkDocument events = .ok ()) : style.format raw = style.write events := by
  rw [format, known]
  dsimp only
  rw [complete]

/-- Whatever the style is, the start of a tag can be found in the formatted text. -/
theorem mark_mem_format (style : Style) (raw out : Text) (formatted : style.format raw = .ok out) :
    '<' ∈ out := by
  obtain ⟨events, _, complete, written⟩ := style.format_cases raw out formatted
  have element : ∃ event ∈ events, event.isElement = true := by
    rw [checkDocument] at complete
    split at complete
    · cases complete
    · cases complete
    · split at complete
      · next some => exact List.any_eq_true.mp some
      · cases complete
  obtain ⟨event, member, kind⟩ := element
  have mark : '<' ∈ event.written := by
    cases event with
    | startTag content | emptyTag content => exact List.mem_cons_self
    | _ => cases kind
  rw [write] at written
  split at written
  · next text read =>
    cases written
    have byte : (60 : UInt8) ∈ text.flatMap String.utf8EncodeChar := by
      rw [encode_of_decode? _ text read, List.mem_flatMap]
      exact ⟨_, chars_mem_layoutFrom style {} events event member,
        List.mem_flatMap.mpr ⟨'<', mark, List.mem_cons_self⟩⟩
    obtain ⟨letter, found, encoded⟩ := List.mem_flatMap.mp byte
    have same : letter = '<' := Char.toNat_inj.mp (eq_of_mem_utf8EncodeChar letter 60 (by decide) encoded)
    exact List.mem_flatMap.mpr ⟨letter, found, by rw [same]; exact List.mem_cons_self⟩
  · cases written

end Style

end MarkupOutline.Pretty
