import MarkupOutline.Wire.Value
import MarkupOutline.Pretty.Style
import MarkupOutline.Block.Basic
import MarkupOutline.Outline.Rows
import MarkupOutline.Outline.Describe

/-! The forms in which values of the library are exchanged. Reading allows more than one spelling,
writing always gives the same one. -/
namespace MarkupOutline.Wire

/-- How values of one kind are read and written. -/
structure Form (Kind : Type) where
  read? : Value → Option Kind
  write : Kind → Value

namespace Form

/-- The one spelling of a value that can be read. -/
def normalize? {Kind : Type} (form : Form Kind) (value : Value) : Option Value :=
  (form.read? value).map form.write

/-- Whole numbers from zero up to but without a bound. -/
def naturalBelow (bound : Nat) : Form Nat where
  read?
    | .integer (.ofNat number) => if number < bound then some number else none
    | _ => none
  write number := .integer number

/-- Sizes, depths and numbers of nodes take 64 bits. -/
def natural : Form Nat := naturalBelow UInt64.size

def byte : Form UInt8 where
  read? value := ((naturalBelow UInt8.size).read? value).map Nat.toUInt8
  write number := (naturalBelow UInt8.size).write number.toNat

def text : Form Text where
  read?
    | .string text => some text
    | _ => none
  write := .string

def optional {Kind : Type} (form : Form Kind) : Form (Option Kind) where
  read?
    | .null => some none
    | value => (form.read? value).map some
  write
    | none => .null
    | some kind => form.write kind

/-- One of some names, as a text or as the only field of an object, which then holds nothing. -/
def oneOf {Kind : Type} (all : List Kind) (name : Kind → Text) : Form Kind where
  read?
    | .string text => all.find? fun kind => name kind == text
    | .object [(field, .null)] => all.find? fun kind => name kind == field
    | _ => none
  write kind := .string (name kind)

def style : Form Pretty.Style where
  read? value := do
    let [some byteValue, some sizeValue, some separatorValue] ←
      value.parts? ["indent_char".toList, "indent_size".toList, "line_separator".toList] | none
    return {
      indentByte := ← byte.read? byteValue
      indentWidth := ← natural.read? sizeValue
      lineBreak := ← text.read? separatorValue }
  write style := .object [
    ("indent_char".toList, byte.write style.indentByte),
    ("indent_size".toList, natural.write style.indentWidth),
    ("line_separator".toList, text.write style.lineBreak)]

def block : Form Block where
  read? value := do
    let [some contentValue, some depthValue] ← value.parts? ["content".toList, "depth".toList] | none
    return { content := ← text.read? contentValue, depth := ← natural.read? depthValue }
  write block := .object [
    ("content".toList, text.write block.content), ("depth".toList, natural.write block.depth)]

def folding : Form Outline.Folding := oneOf [.leaf, .collapsed, .expanded] Outline.Folding.name

def handleName : Outline.Handle → Text
  | .expand => "Expand".toList
  | .collapse => "Collapse".toList

def handle : Form Outline.Handle := oneOf [.expand, .collapse] handleName

/-- A row may leave out its handle. -/
def row : Form Outline.Row where
  read? value := do
    let [some nodeValue, some levelValue, handleValue, some textValue] ←
      value.parts? ["node".toList, "level".toList, "control".toList, "text".toList] | none
    return {
      node := ← natural.read? nodeValue
      level := ← natural.read? levelValue
      handle := ← (optional handle).read? (handleValue.getD .null)
      text := ← text.read? textValue }
  write row := .object [
    ("node".toList, natural.write row.node),
    ("level".toList, natural.write row.level),
    ("control".toList, (optional handle).write row.handle),
    ("text".toList, text.write row.text)]

end Form

end MarkupOutline.Wire
