import MarkupOutline.Markup.ReadError

/-! Why a text cannot be formatted, each reason with its message and the message of its cause. -/
namespace MarkupOutline.Pretty

open Markup

/-- The reasons for which formatting fails. -/
inductive PrettyError where
  | markup (reason : ReadError)
  /-- The formatted text could not be written. -/
  | writeFailure (reason : Text)
  /-- The named element is open at the end of the text. -/
  | unclosedElement (name : Text)
  /-- An end tag stands where no element is open. -/
  | strayEnd (name : Text)
  /-- There is no element at all. -/
  | noElement
  /-- The indentation is not a piece of UTF-8. -/
  | invalidUtf8
deriving DecidableEq

namespace PrettyError

/-- The message of the fault that lies beneath, where there is one. -/
def cause? : PrettyError → Option Text
  | markup reason => some reason.message
  | writeFailure reason => some reason
  | _ => none

def message : PrettyError → Text
  | markup reason => "invalid XML: ".toList ++ reason.message
  | writeFailure reason => "I/O error: ".toList ++ reason
  | unclosedElement name => "element `".toList ++ name ++ "` is never closed".toList
  | strayEnd name => "end tag `</".toList ++ name ++ ">` does not close any element".toList
  | noElement => "missing root element".toList
  | invalidUtf8 => "formatted document is not valid UTF-8".toList

end PrettyError

end MarkupOutline.Pretty
