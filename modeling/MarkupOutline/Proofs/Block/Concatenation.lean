import MarkupOutline.Proofs.Block.Partition

/-! The blocks of two texts, one below the other, are the blocks of each of them. The upper text must leave no
element open in a line of its own; tags that it closes too often do not reach the lower text. -/
namespace MarkupOutline.Block

open Text

/-- A single line that opens an element and does not close it itself. -/
def dangles (rules : Line.Rules) (block : Block) : Bool :=
  !block.spansLines && (openName? rules block.content).isSome

section Lines

variable (rules : Line.Rules)

variable (line : Text) (rest : List Text)

private theorem scanBlocks_blank (blank : isBlank line = true) :
    scanBlocks rules (line :: rest) = scanBlocks rules rest := by
  cases found : scanBlock? rules rest with
  | none =>
    have none : scanBlock? rules (line :: rest) = none := by rw [scanBlock?, if_pos blank, found, Option.map_none]
    rw [scanBlocks_none rules none, scanBlocks_none rules found]
  | some extent =>
    have shifted : scanBlock? rules (line :: rest) = some (extent.shift 1) := by
      rw [scanBlock?, if_pos blank, found, Option.map_some]
    have block : window (line :: rest) (extent.shift 1).first (extent.shift 1).stop =
        window rest extent.first extent.stop := by
      change window (line :: rest) (1 + extent.first) (1 + extent.stop) = _
      rw [Nat.add_comm 1, Nat.add_comm 1, window_succ]
    have behind : (line :: rest).drop (extent.shift 1).stop = rest.drop extent.stop := by
      change (line :: rest).drop (1 + extent.stop) = rest.drop extent.stop
      rw [Nat.add_comm 1, List.drop_succ_cons]
    rw [scanBlocks_some rules shifted, scanBlocks_some rules found, block, behind]
    rfl

private theorem scanBlocks_solid (starts : isBlank line = false) : scanBlocks rules (line :: rest) =
    ⟨unlines (line :: rest.take (followers rules line rest)), depthOf line⟩ ::
      scanBlocks rules (rest.drop (followers rules line rest)) := by
  have found : scanBlock? rules (line :: rest) = some ⟨0, 1 + followers rules line rest, depthOf line⟩ := by
    rw [scanBlock?, if_neg (by simp [starts])]
  rw [scanBlocks_some rules found, Nat.add_comm 1, window_zero_succ, List.drop_succ_cons]
  rfl

/-- Lines below do not lengthen a block that has followers, nor one whose line opens nothing. -/
theorem followers_append (below : List Text) (closed : followers rules line rest = 0 → openName? rules line = none) :
    followers rules line (rest ++ below) = followers rules line rest := by
  rw [followers, followers] at *
  cases opens : openName? rules line with
  | none => rfl
  | some name =>
    rw [opens] at closed
    cases scanned : scanClosing? rules name 1 rest with
    | none =>
      rw [Option.bind_some, scanned] at closed
      cases closed rfl
    | some distance => rw [Option.bind_some, Option.bind_some, scanClosing?_append, scanned, Option.some_or]

private theorem dangles_first (unbroken : '\n' ∉ line) (alone : followers rules line rest = 0)
    (closed : dangles rules ⟨unlines (line :: rest.take (followers rules line rest)), depthOf line⟩ = false) :
    openName? rules line = none := by
  have single : unlines (line :: rest.take (followers rules line rest)) = line := by
    rw [alone, List.take_zero, unlines_singleton]
  have flat : line.contains '\n' = false := by simpa using unbroken
  rw [single, dangles, spansLines, flat] at closed
  simpa using closed

private theorem scanBlocks_append (upper lower : List Text) (unbroken : ∀ line ∈ upper, '\n' ∉ line)
    (closed : ∀ block ∈ scanBlocks rules upper, dangles rules block = false) :
    scanBlocks rules (upper ++ lower) = scanBlocks rules upper ++ scanBlocks rules lower := by
  induction count : upper.length using Nat.strongRecOn generalizing upper with
  | ind bound inductionHypothesis =>
    cases upper with
    | nil =>
      have none : scanBlocks rules [] = [] := scanBlocks_none rules rfl
      rw [none, List.nil_append, List.nil_append]
    | cons line rest =>
      have fewer : rest.length < bound := by
        rw [← count, List.length_cons]
        exact Nat.lt_succ_self rest.length
      have later : ∀ other ∈ rest, '\n' ∉ other := fun other member => unbroken other (List.mem_cons_of_mem line member)
      rw [List.cons_append]
      cases starts : isBlank line with
      | true =>
        rw [scanBlocks_blank rules line rest starts] at closed ⊢
        rw [scanBlocks_blank rules line _ starts, inductionHypothesis _ fewer rest later closed rfl]
      | false =>
        rw [scanBlocks_solid rules line rest starts] at closed ⊢
        have within := followers_le rules line rest
        have kept := followers_append rules line rest lower fun alone =>
          dangles_first rules line rest (unbroken line List.mem_cons_self) alone (closed _ List.mem_cons_self)
        rw [scanBlocks_solid rules line _ starts, kept, List.take_append_of_le_length within,
          List.drop_append_of_le_length within, List.cons_append]
        congr 1
        refine inductionHypothesis _ ?_ (rest.drop (followers rules line rest)) ?_ ?_ rfl
        · rw [List.length_drop]
          omega
        · exact fun other member => later other (List.mem_of_mem_drop member)
        · exact fun block member => closed block (List.mem_cons_of_mem _ member)

end Lines

/-- If no block of a text is a single line that leaves an element open, cutting the text with another one below it
gives the blocks of the one and then the blocks of the other. -/
theorem split_append (rules : Line.Rules) (upper lower : Text)
    (closed : ∀ block ∈ Block.split rules upper, dangles rules block = false) :
    Block.split rules (upper ++ '\n' :: lower) = Block.split rules upper ++ Block.split rules lower := by
  rw [split_eq] at closed
  rw [split_eq, split_eq, split_eq, lines_append]
  exact scanBlocks_append rules _ _ (unbroken_of_mem_lines upper) closed

/-- The upper text closes an element once too often and opens another one that is never closed, inside a third;
the lower text uses all three names again. -/
theorem split_append_overclosed :
    let upper := "<a>\n  <b>\n  <c>\n  </c>\n</a>\n</c>\n".toList
    let lower := "<c>\n</b>\n</c>\n</a>".toList
    (∀ block ∈ Block.split Line.Angle.rules upper, dangles Line.Angle.rules block = false) ∧
      (Block.split Line.Angle.rules upper).length = 2 ∧ (Block.split Line.Angle.rules lower).length = 2 ∧
      Block.split Line.Angle.rules (upper ++ '\n' :: lower) =
        Block.split Line.Angle.rules upper ++ Block.split Line.Angle.rules lower := by
  intro upper lower
  have closed : ∀ block ∈ Block.split Line.Angle.rules upper, dangles Line.Angle.rules block = false := by
    decide +kernel
  exact ⟨closed, by decide +kernel, by decide +kernel, split_append Line.Angle.rules upper lower closed⟩

end MarkupOutline.Block
