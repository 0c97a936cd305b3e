import Mathlib.Data.List.Chain
import MarkupOutline.Text.Lines

/-! Which bytes stand side by side in UTF-8. A character is one byte below 128, or a first byte from 192 on with
bytes in between behind it, so bytes of the wrong kind next to each other are no text. -/
namespace MarkupOutline.Text

def Continues (byte : UInt8) : Prop := 128 ≤ byte.toNat ∧ byte.toNat < 192

/-- A character of one byte is not gone on with, and one that has only begun is. -/
def Adjoins (first second : UInt8) : Prop :=
  (first.toNat < 128 → ¬ Continues second) ∧ (192 ≤ first.toNat → Continues second)

private theorem continues_ofNat (value : Nat) : Continues (UInt8.ofNat (value % 64 + 128)) := by
  rw [Continues, UInt8.toNat_ofNat_of_lt' (by simp only [UInt8.size]; omega)]
  omega

private theorem le_toNat_ofNat (value least : Nat) (lower : least ≤ value) (upper : value < 256) :
    least ≤ (UInt8.ofNat value).toNat := by
  rwa [UInt8.toNat_ofNat_of_lt' upper]

/-- A character is one byte, or a first byte and others that go on with it. -/
theorem utf8EncodeChar_shape (letter : Char) :
    ∃ first rest, String.utf8EncodeChar letter = first :: rest ∧ (∀ byte ∈ rest, Continues byte) ∧
      ((first.toNat < 128 ∧ rest = []) ∨ (192 ≤ first.toNat ∧ rest ≠ [])) := by
  unfold String.utf8EncodeChar
  dsimp only
  split
  · next single =>
    refine ⟨_, [], rfl, by simp, .inl ⟨?_, rfl⟩⟩
    rw [UInt8.toNat_ofNat_of_lt' (Nat.lt_of_le_of_lt single (by decide))]
    omega
  · split
    · refine ⟨_, [_], rfl, ?_, .inr ⟨le_toNat_ofNat _ _ (by omega) (by omega), List.cons_ne_nil _ _⟩⟩
      simp only [List.forall_mem_singleton, continues_ofNat]
    · split
      · refine ⟨_, [_, _], rfl, ?_, .inr ⟨le_toNat_ofNat _ _ (by omega) (by omega), List.cons_ne_nil _ _⟩⟩
        simp only [List.forall_mem_cons, continues_ofNat, List.not_mem_nil, false_implies, implies_true, and_self]
      · refine ⟨_, [_, _, _], rfl, ?_, .inr ⟨le_toNat_ofNat _ _ (by omega) (by omega), List.cons_ne_nil _ _⟩⟩
        simp only [List.forall_mem_cons, continues_ofNat, List.not_mem_nil, false_implies, implies_true, and_self]

private theorem isChain_continues (first : UInt8) (rest : List UInt8) (begun : rest ≠ [] → 128 ≤ first.toNat)
    (continues : ∀ byte ∈ rest, Continues byte) : (first :: rest).IsChain Adjoins := by
  induction rest generalizing first with
  | nil => exact .singleton first
  | cons second rest restHypothesis =>
    have next := continues second List.mem_cons_self
    refine List.isChain_cons_cons.mpr ⟨⟨?_, fun _ => next⟩, ?_⟩
    · intro single
      exact absurd (begun (List.cons_ne_nil _ _)) (Nat.not_le.mpr single)
    · exact restHypothesis second (fun _ => next.1) fun byte later => continues byte (List.mem_cons_of_mem _ later)

private theorem isChain_utf8EncodeChar (letter : Char) : (String.utf8EncodeChar letter).IsChain Adjoins := by
  obtain ⟨first, rest, same, continues, kinds⟩ := utf8EncodeChar_shape letter
  rw [same]
  apply isChain_continues first rest _ continues
  intro filled
  rcases kinds with ⟨_, empty⟩ | ⟨lead, _⟩
  · exact absurd empty filled
  · omega

private theorem head_encode (text : Text) (byte : UInt8) (here : byte ∈ (text.flatMap String.utf8EncodeChar).head?) :
    ¬ Continues byte := by
  cases text with
  | nil => cases here
  | cons letter rest =>
    obtain ⟨first, others, same, _, kinds⟩ := utf8EncodeChar_shape letter
    rw [List.flatMap_cons, same] at here
    cases here
    rw [Continues]
    omega

private theorem last_utf8EncodeChar (letter : Char) (byte : UInt8)
    (here : byte ∈ (String.utf8EncodeChar letter).getLast?) : byte.toNat < 192 := by
  obtain ⟨first, rest, same, continues, kinds⟩ := utf8EncodeChar_shape letter
  rw [same] at here
  rcases kinds with ⟨single, rfl⟩ | ⟨_, filled⟩
  · have last : first = byte := Option.some.inj here
    subst last
    exact Nat.lt_trans single (by decide)
  · obtain ⟨second, others, rfl⟩ := List.exists_cons_of_ne_nil filled
    rw [List.getLast?_cons_cons] at here
    exact (continues byte (List.mem_of_getLast? here)).2

/-- Wherever two bytes of a text stand side by side, they may. -/
theorem isChain_encode (text : Text) : (text.flatMap String.utf8EncodeChar).IsChain Adjoins := by
  induction text with
  | nil => exact .nil
  | cons letter rest restHypothesis =>
    rw [List.flatMap_cons]
    refine List.isChain_append.mpr ⟨isChain_utf8EncodeChar letter, restHypothesis, ?_⟩
    intro last ends first begins
    have kept := last_utf8EncodeChar letter last ends
    exact ⟨fun _ => head_encode rest first begins, fun lead => absurd kept (Nat.not_lt.mpr lead)⟩

end MarkupOutline.Text
