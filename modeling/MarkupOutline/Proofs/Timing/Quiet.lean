import Mathlib.Tactic.Common
import MarkupOutline.Timing.Loop

/-! What a window of quiet lets through: the values that no other one follows before they are ready. The loop
over the next thing that happens passes on these and ends when all is over. -/
namespace MarkupOutline.Timing

variable {Value : Type}

/-- The values that are the last ones or are followed by a later time than they are ready at, each with the
time at which it is ready. -/
def quiet (delay : Nat) : List (Timed Value) → List (Timed Value)
  | [] => []
  | arrival :: rest =>
    if rest.head?.all fun next => arrival.time + delay < next.time then
      ⟨arrival.time + delay, arrival.value⟩ :: quiet delay rest
    else quiet delay rest

/-- When the channel is closed and the last value is ready. -/
def finish (delay closing : Nat) (arrivals : List (Timed Value)) : Nat :=
  (arrivals.getLast?.map fun last => max closing (last.time + delay)).getD closing

section Quiet

variable (delay closing : Nat) (arrival next : Timed Value) (rest : List (Timed Value))

theorem quiet_superseded (soon : next.time ≤ arrival.time + delay) :
    quiet delay (arrival :: next :: rest) = quiet delay (next :: rest) := by
  have early : ¬ arrival.time + delay < next.time := Nat.not_lt.mpr soon
  rw [quiet, List.head?_cons]
  simp [early]

theorem quiet_released (late : ∀ next ∈ rest.head?, arrival.time + delay < next.time) :
    quiet delay (arrival :: rest) = ⟨arrival.time + delay, arrival.value⟩ :: quiet delay rest := by
  rw [quiet, if_pos]
  cases same : rest.head? with
  | none => rfl
  | some next => simpa using late next (by rw [same]; rfl)

theorem finish_cons_cons : finish delay closing (arrival :: next :: rest) = finish delay closing (next :: rest) := by
  rw [finish, finish, List.getLast?_cons_cons]

/-- A value that is ready before the closing does not put off the end. -/
theorem finish_released (ready : rest = [] → arrival.time + delay ≤ closing) :
    finish delay closing (arrival :: rest) = finish delay closing rest := by
  cases rest with
  | nil => exact Nat.max_eq_left (ready rfl)
  | cons next rest => exact finish_cons_cons delay closing arrival next rest

theorem le_finish (arrivals : List (Timed Value)) : closing ≤ finish delay closing arrivals := by
  rw [finish]
  cases arrivals.getLast? with
  | none => exact Nat.le_refl closing
  | some last => exact Nat.le_max_left closing _

end Quiet

theorem quiet_sublist (delay : Nat) (arrivals : List (Timed Value)) :
    (quiet delay arrivals).Sublist (arrivals.map fun arrival => ⟨arrival.time + delay, arrival.value⟩) := by
  induction arrivals with
  | nil => exact List.Sublist.slnil
  | cons arrival rest inductionHypothesis =>
    rw [quiet, List.map_cons]
    split
    · exact inductionHypothesis.cons_cons _
    · exact inductionHypothesis.cons _

/-- The last value is always passed on. -/
theorem getLast?_quiet (delay : Nat) (arrivals : List (Timed Value)) :
    (quiet delay arrivals).getLast? =
      arrivals.getLast?.map fun arrival => ⟨arrival.time + delay, arrival.value⟩ := by
  induction arrivals with
  | nil => rfl
  | cons arrival rest inductionHypothesis =>
    cases rest with
    | nil => rfl
    | cons next rest =>
      rw [List.getLast?_cons_cons, ← inductionHypothesis, quiet]
      split
      · obtain ⟨last, known⟩ : ∃ last, (quiet delay (next :: rest)).getLast? = some last := by
          rw [inductionHypothesis, List.getLast?_cons]
          exact ⟨_, rfl⟩
        rw [List.getLast?_cons, known, Option.getD_some]
      · rfl

namespace QuietWindow

def source (window : QuietWindow Value) : List (Timed Value) :=
  (window.waiting.map fun (deadline, value) => ⟨deadline - window.delay, value⟩).toList

/-- No value waits that would have come before the clock was started. -/
def Dated (window : QuietWindow Value) : Prop := ∀ deadline ∈ window.deadline?, window.delay ≤ deadline

variable {window : QuietWindow Value} {deadline : Nat} {value : Value}

theorem source_idle (idle : window.waiting = none) : window.source = [] := by
  rw [source, idle]
  rfl

theorem source_waiting (waits : window.waiting = some (deadline, value)) :
    window.source = [⟨deadline - window.delay, value⟩] := by
  rw [source, waits]
  rfl

@[simp] theorem source_push (window : QuietWindow Value) (now : Nat) (value : Value) :
    (window.push now value).2.source = [⟨now, value⟩] := by
  simp [source, push]

@[simp] theorem source_take (window : QuietWindow Value) : window.take.2.source = [] := rfl

@[simp] theorem delay_push (window : QuietWindow Value) (now : Nat) (value : Value) :
    (window.push now value).2.delay = window.delay := rfl

@[simp] theorem delay_take (window : QuietWindow Value) : window.take.2.delay = window.delay := rfl

@[simp] theorem deadline?_push (window : QuietWindow Value) (now : Nat) (value : Value) :
    (window.push now value).2.deadline? = some (now + window.delay) := rfl

@[simp] theorem deadline?_take (window : QuietWindow Value) : window.take.2.deadline? = none := rfl

theorem Dated.waiting (dated : window.Dated) (waits : window.waiting = some (deadline, value)) :
    deadline - window.delay + window.delay = deadline :=
  Nat.sub_add_cancel (dated deadline (by rw [deadline?, waits]; rfl))

theorem dated_push (window : QuietWindow Value) (now : Nat) (value : Value) :
    (window.push now value).2.Dated := by
  simp [Dated]

theorem dated_take (window : QuietWindow Value) : window.take.2.Dated := by
  simp [Dated]

/-- What is still to be passed on when `rest` will follow, and when all is over. -/
def answer (window : QuietWindow Value) (closing : Nat) (rest : List (Timed Value)) : List (Timed Value) × Nat :=
  (quiet window.delay (window.source ++ rest), finish window.delay closing (window.source ++ rest))

section Answer

variable {closing : Nat} {rest : List (Timed Value)}

theorem answer_idle (idle : window.waiting = none) : window.answer closing [] = ([], closing) := by
  rw [answer, source_idle idle]
  rfl

theorem answer_push (dated : window.Dated) (arrival : Timed Value)
    (soon : ∀ deadline ∈ window.deadline?, arrival.time ≤ deadline) :
    window.answer closing (arrival :: rest) =
      (window.push arrival.time arrival.value).2.answer closing rest := by
  rw [answer, answer, source_push, delay_push, List.singleton_append]
  cases waits : window.waiting with
  | none => rw [source_idle waits, List.nil_append]
  | some entry =>
    obtain ⟨deadline, value⟩ := entry
    have soon : arrival.time ≤ deadline := soon deadline (by rw [deadline?, waits]; rfl)
    rw [← dated.waiting waits] at soon
    rw [source_waiting waits, List.singleton_append, quiet_superseded _ _ _ _ soon, finish_cons_cons]

theorem answer_take (dated : window.Dated) (waits : window.waiting = some (deadline, value))
    (late : ∀ next ∈ rest.head?, deadline < next.time) (ready : rest = [] → deadline ≤ closing) :
    window.answer closing rest = (window.take.2.answer closing rest).map (⟨deadline, value⟩ :: ·) id := by
  have back := dated.waiting waits
  rw [answer, answer, source_take, delay_take, List.nil_append, source_waiting waits, List.singleton_append,
    quiet_released _ _ _ (by simpa only [back] using late),
    finish_released _ _ _ _ (by simpa only [back] using ready)]
  simp only [back, Prod.map_apply, id_eq]

theorem answer_drain (dated : window.Dated) (waits : window.waiting = some (deadline, value))
    (closed : closing ≤ deadline) : window.answer closing [] = ([⟨deadline, value⟩], deadline) := by
  simp [answer, source_waiting waits, quiet, finish, dated.waiting waits, closed]

end Answer

end QuietWindow

namespace Loop

variable {loop next : Loop Value} {pass : Timed Value} {time : Nat}

/-- What the loop has still to pass on, and when it has to end. -/
def answer (loop : Loop Value) : List (Timed Value) × Nat := loop.window.answer loop.closing loop.arrivals

private theorem answer_received (dated : loop.window.Dated) (moved : loop.happens = .received next) :
    next.window.Dated ∧ loop.answer = next.answer := by
  unfold happens at moved
  split at moved
  · cases moved
  · next idle known =>
    cases moved
    refine ⟨QuietWindow.dated_push _ _ _, ?_⟩
    rw [answer, known, QuietWindow.answer_push dated _ (by simp [QuietWindow.deadline?, idle]), answer]
  · split at moved <;> cases moved
  · next waits known =>
    split at moved
    · next soon =>
      cases moved
      refine ⟨QuietWindow.dated_push _ _ _, ?_⟩
      rw [answer, known, QuietWindow.answer_push dated _ (by simpa [QuietWindow.deadline?, waits] using soon),
        answer]
    · cases moved

private theorem answer_released (dated : loop.window.Dated) (moved : loop.happens = .released pass next) :
    next.window.Dated ∧ loop.answer = next.answer.map (pass :: ·) id := by
  unfold happens at moved
  split at moved
  · cases moved
  · cases moved
  · next waits known =>
    split at moved
    · cases moved
    · next early =>
      cases moved
      refine ⟨QuietWindow.dated_take _, QuietWindow.answer_take dated waits ?_ ?_⟩
      · simp [known]
      · exact fun _ => Nat.le_of_not_le early
  · next waits known =>
    split at moved
    · cases moved
    · next late =>
      cases moved
      refine ⟨QuietWindow.dated_take _, QuietWindow.answer_take dated waits ?_ ?_⟩
      · simpa [known] using late
      · simp [known]

private theorem answer_drained (dated : loop.window.Dated) (moved : loop.happens = .drained pass) :
    loop.answer = ([pass], pass.time) := by
  unfold happens at moved
  split at moved
  · cases moved
  · cases moved
  · next waits known =>
    split at moved
    · next closed =>
      cases moved
      rw [answer, known, QuietWindow.answer_drain dated waits closed]
    · cases moved
  · split at moved <;> cases moved

private theorem answer_ended (moved : loop.happens = .ended time) : loop.answer = ([], time) := by
  unfold happens at moved
  split at moved
  · next idle known =>
    cases moved
    rw [answer, known, QuietWindow.answer_idle idle]
  · cases moved
  · split at moved <;> cases moved
  · split at moved <;> cases moved

private theorem run_eq_answer (loop : Loop Value) (dated : loop.window.Dated) : loop.run = loop.answer := by
  fun_induction run loop with
  | case1 loop next moved inductionHypothesis =>
    obtain ⟨nextDated, same⟩ := answer_received dated moved
    rw [same, inductionHypothesis nextDated]
  | case2 loop pass next moved inductionHypothesis =>
    obtain ⟨nextDated, same⟩ := answer_released dated moved
    rw [same, inductionHypothesis nextDated]
  | case3 loop pass moved => exact (answer_drained dated moved).symm
  | case4 loop time moved => exact (answer_ended moved).symm

/-- From the start on, the loop passes on what no other value follows in time, up to the last one. -/
theorem run_start (delay closing : Nat) (arrivals : List (Timed Value)) :
    (start delay arrivals closing).run = (quiet delay arrivals, finish delay closing arrivals) :=
  run_eq_answer _ nofun

end Loop

end MarkupOutline.Timing
