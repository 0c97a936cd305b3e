import MarkupOutline.Proofs.Outline.Coverage
import MarkupOutline.Proofs.Outline.Laid
import MarkupOutline.Proofs.Text.ByteRange

/-! The parts of a node told in three ways: by the numbers of its lines, by the bytes that these lines have in the text,
and by the line feeds in the content of its block. All of them tell the same, however short a node is. -/
namespace MarkupOutline.Outline

open Text Block

/-- Cut out the lines between the first one and the last one of a node. -/
def cutInterior? (text : Text) (node : Node) : Option Text :=
  if node.stop - node.first < 3 then some [] else cutLines? text (node.first + 1) (node.stop - 2)

namespace Skeleton

/-- The parts of a node, by the numbers of its lines, are those of its block, by the line feeds in its content. -/
structure Parts (skeleton : Skeleton) (node : Node) : Prop where
  lines : skeleton.linesOf node = (skeleton.block node).lines
  firstLine : skeleton.firstLine node = (skeleton.block node).firstLine
  lastLine : skeleton.lastLine node = (skeleton.block node).lastLine
  interior : skeleton.interior node = (skeleton.block node).interior

/-- The parts of a node can be cut out of the text by the bytes that its lines have there. -/
structure CutFrom (skeleton : Skeleton) (text : Text) (node : Node) : Prop where
  nonempty : node.first < node.stop
  content : cutLines? text node.first (node.stop - 1) = some (skeleton.block node).content
  lines : (List.range' node.first (node.stop - node.first)).map (cutLine? text) = (skeleton.linesOf node).map some
  firstLine : cutLine? text node.first = some (skeleton.firstLine node)
  lastLine : cutLine? text (node.stop - 1) = some (skeleton.lastLine node)
  interior : cutInterior? text node = some (skeleton.interior node)

end Skeleton

variable {rules : Line.Rules} {text : Text} {outline : Outline}

theorem Over.linesOf_unbroken (based : Over rules text outline) (node : Node) (row : Text)
    (member : row ∈ outline.skeleton.linesOf node) : '\n' ∉ row := by
  rw [Skeleton.linesOf, based.range_eq] at member
  exact unbroken_of_mem_lines text row (mem_of_mem_window _ _ _ row member)

theorem Over.line_unbroken (based : Over rules text outline) (number : Nat) :
    '\n' ∉ outline.skeleton.line number := by
  rw [based.line_eq]
  cases found : (Text.lines text)[number]? with
  | none => simp
  | some line => exact unbroken_of_mem_lines text line (List.mem_of_getElem? found)

theorem Over.lines_block (based : Over rules text outline) (id : Nat) (node : Node)
    (known : outline.skeleton.nodes[id]? = some node) :
    (outline.skeleton.block node).lines = outline.skeleton.linesOf node := by
  have ⟨nonempty, ends⟩ := based.laid.block id node known
  apply Text.lines_unlines _ (based.linesOf_unbroken node)
  apply List.ne_nil_of_length_pos
  simp only [Skeleton.linesOf, Skeleton.range, Array.length_toList, Array.size_extract]
  omega

theorem Over.lines_content (based : Over rules text outline) {id : Nat} {node : Node}
    (known : outline.skeleton.nodes[id]? = some node) :
    Text.lines (outline.skeleton.block node).content = window (Text.lines text) node.first node.stop := by
  rw [← based.range_eq]
  exact based.lines_block id node known

private theorem Over.cut_line (based : Over rules text outline) (number : Nat)
    (inside : number < (Text.lines text).length) : cutLine? text number = some (outline.skeleton.line number) := by
  rw [cutLine?_eq, based.line_eq, List.getElem?_eq_getElem inside]
  rfl

private theorem Over.cut_range (based : Over rules text outline) (first stop : Nat) (nonempty : first < stop)
    (inside : stop ≤ (Text.lines text).length) :
    cutLines? text first (stop - 1) = some (unlines (outline.skeleton.range first stop)) := by
  rw [cutLines?_eq text first (stop - 1) (by omega) (by omega), Nat.sub_add_cancel (Nat.one_le_of_lt nonempty),
    based.range_eq]

section Known

variable (based : Over rules text outline) {id : Nat} {node : Node} (known : outline.skeleton.nodes[id]? = some node)

include based known

theorem Over.parts : outline.skeleton.Parts node := by
  have ⟨nonempty, ends⟩ := based.laid.block id node known
  rw [based.size_lines] at ends
  have lines : (outline.skeleton.block node).lines = window (Text.lines text) node.first node.stop :=
    based.lines_content known
  have size := length_window (Text.lines text) node.first node.stop ends
  constructor
  · exact (based.lines_block id node known).symm
  · rw [firstLine_eq, lines, List.head?_eq_getElem?, getElem?_window _ _ _ _ nonempty, Skeleton.firstLine,
      based.line_eq]
    rfl
  · have last : node.first + (node.stop - node.first - 1) = node.stop - 1 := by omega
    rw [lastLine_eq, lines, List.getLast?_eq_getElem?, size, getElem?_window _ _ _ _ (by omega), last,
      Skeleton.lastLine, based.line_eq]
  · have shorter : node.stop - node.first - 1 - 1 = node.stop - 1 - (node.first + 1) := by omega
    rw [interior_eq, lines, List.dropLast_eq_take, List.length_drop, size, drop_window, shorter,
      take_window _ _ _ _ (Nat.sub_le _ _), Skeleton.interior, based.range_eq]

theorem Over.cutFrom : outline.skeleton.CutFrom text node := by
  have ⟨nonempty, ends⟩ := based.laid.block id node known
  rw [based.size_lines] at ends
  refine ⟨nonempty, based.cut_range node.first node.stop nonempty ends, ?_, ?_, ?_, ?_⟩
  · rw [map_cutLine? text node.first node.stop ends, Skeleton.linesOf, based.range_eq]
  · exact based.cut_line node.first (by omega)
  · exact based.cut_line (node.stop - 1) (by omega)
  · rw [cutInterior?, Skeleton.interior]
    split
    · rw [based.range_eq, window_empty _ _ _ (by omega)]
      rfl
    · exact based.cut_range (node.first + 1) (node.stop - 1) (by omega) (by omega)

end Known

/-- In every state that folding leads to, the parts of any node are cut out of the text by the bytes of its lines, and
they are the parts of its block. The parts of any block whatever make up its content. -/
theorem run_parts (rules : Line.Rules) (text : Text) (actions : List Action) :
    let outline := ((Outline.ofText rules text).run actions).2
    (∀ (id : Nat) (node : Node), outline.skeleton.nodes[id]? = some node →
      outline.skeleton.CutFrom text node ∧ outline.skeleton.Parts node) ∧ ∀ block : Block, block.Composed := by
  intro outline
  have based : Over rules text outline := ((over_ofText rules text).run_eq actions).1
  exact ⟨fun id node known => ⟨based.cutFrom known, based.parts known⟩, Block.composed⟩

/-- Letters of two bytes, empty lines at both ends of the interior, and a last line without a line feed. -/
theorem run_parts_margins :
    let text := "\n<é>\n\nü\n\n</é>\n<b>ö".toList
    let outline := ((Outline.ofText Line.Angle.rules text).run [.toggleId 0]).2
    let element : Node := ⟨1, 6, 0, some 2, none, 1⟩
    let last : Node := ⟨6, 7, 0, none, none, 0⟩
    outline.skeleton.nodes[0]? = some element ∧ outline.skeleton.nodes[2]? = some last ∧
      outline.skeleton.CutFrom text element ∧ outline.skeleton.Parts element ∧
        outline.skeleton.CutFrom text last ∧ outline.skeleton.Parts last ∧
          cutInterior? text element = some "\nü\n".toList ∧ cutLine? text 6 = some "<b>ö".toList := by
  intro text outline element last
  have first : outline.skeleton.nodes[0]? = some element := by decide +kernel
  have third : outline.skeleton.nodes[2]? = some last := by decide +kernel
  have ⟨agrees, _⟩ := run_parts Line.Angle.rules text [.toggleId 0]
  have ⟨cut, parts⟩ := agrees 0 element first
  have ⟨cutLast, partsLast⟩ := agrees 2 last third
  exact ⟨first, third, cut, parts, cutLast, partsLast, by decide +kernel, by decide +kernel⟩

end MarkupOutline.Outline
