import Mathlib.Logic.Relation
import MarkupOutline.Proofs.Markup.Reading
import MarkupOutline.Proofs.Pretty.Nested

/-! Formatting as one pass over a text. Each event is written as soon as it is read, and the names of the open elements
are kept apart from those that the reader keeps. The two lists are the same at every turn, so no end tag ever finds
its list empty, and the pass gives what is given by reading all first. -/
namespace MarkupOutline.Pretty

open Markup

/-- What a pass holds between two events. -/
structure Pass where
  reader : Reader
  /-- The names of the open elements, innermost first. -/
  elements : List Text
  /-- Whether there was an element. -/
  rooted : Bool
  cursor : Cursor
  /-- What is written so far. -/
  pieces : List Piece

namespace Pass

def start (raw : Text) : Pass := ⟨.start raw, [], false, {}, []⟩

/-- Read an event and write it; `none` at the end of the text. -/
def turn (style : Style) (pass : Pass) : Except PrettyError (Option Pass) :=
  match pass.reader.next with
  | .error reason => .error (.markup reason)
  | .ok none => .ok none
  | .ok (some (event, reader)) =>
    match openElements pass.elements [event] with
    | .error reason => .error reason
    | .ok elements =>
      let place := pass.cursor.before style event
      .ok (some ⟨reader, elements, pass.rooted || event.isElement, place.after style event,
        pass.pieces ++ (place.lead ++ [.chars event.written])⟩)

/-- What is made of a pass at the end of the text. -/
def finish (style : Style) (pass : Pass) : Except PrettyError Text :=
  match pass.elements with
  | innermost :: _ => .error (.unclosedElement innermost)
  | [] =>
    if pass.rooted then
      match decode? (pass.pieces.flatMap (Piece.bytes style)) with
      | some text => .ok (style.separate text)
      | none => .error .invalidUtf8
    else .error .noElement

theorem turn_shorter {style : Style} {pass later : Pass} (moved : pass.turn style = .ok (some later)) :
    later.reader.rest.length < pass.reader.rest.length := by
  rw [turn] at moved
  split at moved
  · cases moved
  · cases moved
  · next event reader given =>
    split at moved
    · cases moved
    · cases moved
      exact readerLaws.shorter _ _ _ (Reader.next_cases given).1

def run (style : Style) (pass : Pass) : Except PrettyError Text :=
  match _moved : pass.turn style with
  | .error reason => .error reason
  | .ok none => pass.finish style
  | .ok (some later) => run style later
termination_by pass.reader.rest.length
decreasing_by exact turn_shorter _moved

/-- What a pass over a text comes to. -/
def Reached (style : Style) (raw : Text) : Pass → Prop :=
  Relation.ReflTransGen (fun pass later => pass.turn style = .ok (some later)) (start raw)

/-- The pass behind some events, told from these events alone. -/
def behind (style : Style) (reader : Reader) (events : List Event) : Pass where
  reader := reader
  elements := reader.names
  rooted := events.any Event.isElement
  cursor := Cursor.through style {} events
  pieces := layout style events

theorem behind_nil (style : Style) (raw : Text) : behind style (.start raw) [] = start raw := by
  rw [behind, Reader.names_start]
  rfl

variable {style : Style} {raw : Text} {reader later : Reader} {events : List Event} {event : Event}

theorem turn_behind (given : reader.next = .ok (some (event, later))) :
    (behind style reader events).turn style = .ok (some (behind style later (events ++ [event]))) := by
  have followed := openElements_follow (Reader.next_cases given).2
  have written : layout style (events ++ [event]) = layout style events ++
      (((Cursor.through style {} events).before style event).lead ++ [.chars event.written]) :=
    Cursor.layoutFrom_append style {} events [event]
  simp only [turn, behind, given, followed, written, Cursor.through, List.foldl_append, List.foldl_cons,
    List.foldl_nil, List.any_append, List.any_cons, List.any_nil, Bool.or_false]

theorem turn_fault {reason : ReadError} (fault : reader.next = .error reason) :
    (behind style reader events).turn style = .error (.markup reason) := by
  simp only [turn, behind, fault]

theorem turn_ended (ended : reader.next = .ok none) : (behind style reader events).turn style = .ok none := by
  simp only [turn, behind, ended]

/-- Whatever a pass comes to is told from the events read. -/
theorem Reached.behind {pass : Pass} (reached : Reached style raw pass) :
    ∃ events, (Reader.start raw).Reads events pass.reader ∧ pass = behind style pass.reader events := by
  induction reached with
  | refl => exact ⟨[], .none, (behind_nil style raw).symm⟩
  | @tail pass next front moved inductionHypothesis =>
    obtain ⟨events, reads, same⟩ := inductionHypothesis
    rw [same] at moved
    cases outcome : pass.reader.next with
    | error reason => cases (turn_fault outcome).symm.trans moved
    | ok given =>
      cases given with
      | none => cases (turn_ended outcome).symm.trans moved
      | some given =>
        obtain ⟨event, later⟩ := given
        cases (turn_behind outcome).symm.trans moved
        exact ⟨events ++ [event], reads.more outcome, rfl⟩

/-- A pass keeps the same open elements as its reader, so there is one at every end tag. -/
theorem Reached.lockstep {pass : Pass} (reached : Reached style raw pass) : pass.elements = pass.reader.names ∧
    ∀ name later, pass.reader.next = .ok (some (.endTag name, later)) → ∃ outer, pass.elements = name :: outer := by
  obtain ⟨events, _, same⟩ := reached.behind
  have elements : pass.elements = pass.reader.names := congrArg Pass.elements same
  refine ⟨elements, fun name later given => ?_⟩
  have followed := (Reader.next_cases given).2
  rw [elements]
  cases known : pass.reader.names with
  | nil =>
    rw [known] at followed
    cases followed
  | cons innermost outer =>
    rw [known, follow] at followed
    split at followed
    · next matching => exact ⟨outer, by rw [matching]⟩
    · cases followed

private theorem finish_behind (known : openElements [] events = .ok reader.names) :
    (behind style reader events).finish style = match checkDocument events with
    | .error reason => .error reason
    | .ok () => style.write events := by
  rw [finish, checkDocument, known]
  cases names : reader.names with
  | cons innermost outer => simp only [behind, names]
  | nil =>
    simp only [behind, names]
    split <;> rfl

private theorem run_eq (pass : Pass) : pass.run style =
    match pass.turn style with
    | .error reason => .error reason
    | .ok none => pass.finish style
    | .ok (some later) => later.run style := by
  rw [run]
  split
  · next moved => rw [moved]
  · next moved => rw [moved]
  · next moved => rw [moved]

/-- From wherever a reader comes to, the pass goes on to what formatting gives. -/
theorem run_behind (reads : (Reader.start raw).Reads events reader) :
    (behind style reader events).run style = style.format raw := by
  induction size : reader.rest.length using Nat.strongRecOn generalizing reader events with
  | ind size inductionHypothesis =>
    rw [run_eq]
    cases outcome : reader.next with
    | error reason =>
      have fault : read raw = .error reason := (read_eq_error_iff raw reason).mpr ⟨events, reader, reads, outcome⟩
      rw [turn_fault outcome, Style.format, fault]
    | ok given =>
      cases given with
      | none =>
        have known : read raw = .ok events := (read_eq_ok_iff raw events).mpr ⟨reader, reads, outcome⟩
        rw [turn_ended outcome, Style.format, known]
        exact finish_behind (openElements_of_reads reads)
      | some given =>
        obtain ⟨event, later⟩ := given
        have shorter := readerLaws.shorter _ _ _ (Reader.next_cases outcome).1
        rw [turn_behind outcome]
        exact inductionHypothesis _ (size ▸ shorter) (reads.more outcome) rfl

end Pass

/-- Formatting in one pass gives what formatting gives that reads all first. -/
theorem Style.format_streamed (style : Style) (raw : Text) : style.format raw = (Pass.start raw).run style := by
  rw [← Pass.behind_nil style]
  exact (Pass.run_behind .none).symm

end MarkupOutline.Pretty
