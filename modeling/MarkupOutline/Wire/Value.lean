import MarkupOutline.Text.White

/-! Data as it is exchanged with other programs: numbers, texts, lists and fields by name. Of a number
that is not whole nothing is kept, since no form holds one. -/
namespace MarkupOutline.Wire

inductive Value where
  | null
  | bool (value : Bool)
  | integer (value : Int)
  | fraction
  | string (text : Text)
  | array (items : List Value)
  | object (fields : List (Text × Value))
deriving Inhabited

/-- The parts of a record with the named fields: those of an object by their names, where others do
not matter, or the items of a list of the right length. -/
def Value.parts? (names : List Text) : Value → Option (List (Option Value))
  | object fields => some (names.map fun name => fields.lookup name)
  | array items => if items.length = names.length then some (items.map some) else none
  | _ => none

end MarkupOutline.Wire
