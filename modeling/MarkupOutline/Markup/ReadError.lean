import MarkupOutline.Text.White

/-! Why a text cannot be read as markup, each reason with its message. -/
namespace MarkupOutline.Markup

/-- The reasons for which reading stops. -/
inductive ReadError where
  /-- Neither a comment, character data nor a document type follows `<!`. -/
  | unknownBang
  | unclosedInstruction
  | unclosedComment
  | unclosedDoctype
  | unclosedCData
  | unclosedTag
  | namelessDoctype
  /-- An end tag stands where no element is open. -/
  | endWithoutStart (name : Text)
  /-- An end tag names another element than the innermost open one. -/
  | crossedEnd (expected found : Text)
deriving DecidableEq

/-- The first six reasons are faults of syntax, the others concern the document as a whole. -/
def ReadError.message : ReadError → Text
  | unknownBang => "syntax error: unknown or missed symbol in markup".toList
  | unclosedInstruction =>
    "syntax error: processing instruction or xml declaration not closed: `?>` not found before end of input".toList
  | unclosedComment => "syntax error: comment not closed: `-->` not found before end of input".toList
  | unclosedDoctype => "syntax error: DOCTYPE not closed: `>` not found before end of input".toList
  | unclosedCData => "syntax error: CDATA not closed: `]]>` not found before end of input".toList
  | unclosedTag => "syntax error: tag not closed: `>` not found before end of input".toList
  | namelessDoctype =>
    "ill-formed document: `<!DOCTYPE>` declaration does not contain a name of a document type".toList
  | endWithoutStart name =>
    "ill-formed document: close tag `</".toList ++ name ++ ">` does not match any open tag".toList
  | crossedEnd expected found =>
    "ill-formed document: expected `</".toList ++ expected ++ ">`, but `</".toList ++ found ++
      ">` was found".toList

end MarkupOutline.Markup
