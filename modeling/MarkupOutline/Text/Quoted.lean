import MarkupOutline.Text.White

/-! Text in double quotes, with a backslash before what cannot stand there as it is. -/
namespace MarkupOutline.Text

/-- The decimal digits of a number. -/
def decimal (number : Nat) : Text := Nat.toDigits 10 number

/-- A code point in lower case hexadecimal digits. -/
def codePoint (letter : Char) : Text := ['\\', 'u', '{'] ++ Nat.toDigits 16 letter.toNat ++ ['}']

/-- Quotes, backslashes and the usual controls have short forms; other controls and white space
apart from the space itself are written as code points. -/
def escapeLetter (letter : Char) : Text :=
  if letter = '\x22' ∨ letter = '\\' then ['\\', letter]
  else if letter = '\n' then ['\\', 'n']
  else if letter = '\r' then ['\\', 'r']
  else if letter = '\t' then ['\\', 't']
  else if letter = '\x00' then ['\\', '0']
  else if letter = ' ' then [letter]
  else if letter.toNat < 0x20 ∨ (0x7F ≤ letter.toNat ∧ letter.toNat < 0xA0) ∨ isWhite letter then
    codePoint letter
  else [letter]

def quoted (text : Text) : Text := ['\x22'] ++ text.flatMap escapeLetter ++ ['\x22']

end MarkupOutline.Text
