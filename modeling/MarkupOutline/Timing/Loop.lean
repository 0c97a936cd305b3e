import MarkupOutline.Timing.Window

/-! The loop between a channel and a window of quiet, on a clock that moves to the next thing that
happens. Values arrive in the order of their times, then the channel is closed. -/
namespace MarkupOutline.Timing

/-- A value and the time at which it arrives or is passed on. -/
structure Timed (Value : Type) where
  time : Nat
  value : Value
deriving DecidableEq

/-- The loop while it waits: its window, what will still arrive, and when the channel is closed. -/
structure Loop (Value : Type) where
  window : QuietWindow Value
  arrivals : List (Timed Value)
  closing : Nat

/-- What the loop does next. -/
inductive Happening (Value : Type) where
  /-- A value arrives and starts the window anew. -/
  | received (next : Loop Value)
  /-- The window has been quiet long enough, and the loop goes on. -/
  | released (pass : Timed Value) (next : Loop Value)
  /-- The channel is closed; the value that waits is passed on when it is ready, and the loop ends
  at that time. -/
  | drained (pass : Timed Value)
  /-- The channel is closed and nothing waits. -/
  | ended (time : Nat)

namespace Loop

variable {Value : Type}

def start (delay : Nat) (arrivals : List (Timed Value)) (closing : Nat) : Loop Value :=
  ⟨{ delay }, arrivals, closing⟩

/-- A value that arrives by the deadline supersedes the one that waits. -/
def happens (loop : Loop Value) : Happening Value :=
  let receive (arrival : Timed Value) (rest : List (Timed Value)) : Happening Value :=
    .received ⟨(loop.window.push arrival.time arrival.value).2, rest, loop.closing⟩
  match loop.window.waiting, loop.arrivals with
  | none, [] => .ended loop.closing
  | none, arrival :: rest => receive arrival rest
  | some (deadline, value), [] =>
    if loop.closing ≤ deadline then .drained ⟨deadline, value⟩
    else .released ⟨deadline, value⟩ { loop with window := loop.window.take.2 }
  | some (deadline, value), arrival :: rest =>
    if arrival.time ≤ deadline then receive arrival rest
    else .released ⟨deadline, value⟩ { loop with window := loop.window.take.2 }

/-- Every arrival can be received and released once. -/
def work (loop : Loop Value) : Nat :=
  2 * loop.arrivals.length + (if loop.window.isWaiting then 1 else 0)

theorem received_work (loop next : Loop Value) (moved : loop.happens = .received next) :
    next.work < loop.work := by
  unfold happens at moved
  split at moved
  · cases moved
  · next empty same =>
    cases moved
    simp [work, QuietWindow.push, QuietWindow.isWaiting, same, empty]
    omega
  · split at moved <;> cases moved
  · next waiting same =>
    split at moved
    · cases moved
      simp [work, QuietWindow.push, QuietWindow.isWaiting, same, waiting]
    · cases moved

theorem released_work (loop next : Loop Value) (pass : Timed Value)
    (moved : loop.happens = .released pass next) : next.work < loop.work := by
  unfold happens at moved
  split at moved
  · cases moved
  · cases moved
  · next waiting _ =>
    split at moved <;> cases moved
    simp [work, QuietWindow.take, QuietWindow.isWaiting, waiting]
  · next waiting _ =>
    split at moved <;> cases moved
    simp [work, QuietWindow.take, QuietWindow.isWaiting, waiting]

/-- The values passed on, each with its time, and the time at which the loop ends. -/
def run (loop : Loop Value) : List (Timed Value) × Nat :=
  match _moved : loop.happens with
  | .received next => next.run
  | .released pass next => next.run.map (pass :: ·) id
  | .drained pass => ([pass], pass.time)
  | .ended time => ([], time)
termination_by loop.work
decreasing_by
  · exact loop.received_work next _moved
  · exact loop.released_work next pass _moved

end Loop

/-- A value and how long its sender waits before sending it. -/
structure Send (Value : Type) where
  wait : Nat
  value : Value

/-- The times at which values arrive that are sent one after the other from `now` on. -/
def schedule {Value : Type} (now : Nat) : List (Send Value) → List (Timed Value)
  | [] => []
  | send :: rest => ⟨now + send.wait, send.value⟩ :: schedule (now + send.wait) rest

/-- How long it takes to send some values. -/
def duration {Value : Type} : List (Send Value) → Nat
  | [] => 0
  | send :: rest => send.wait + duration rest

/-- Send values into the loop and close the channel `closeWait` after the last of them. -/
def debounce {Value : Type} (delay : Nat) (sends : List (Send Value)) (closeWait : Nat) :
    List (Timed Value) × Nat :=
  (Loop.start delay (schedule 0 sends) (duration sends + closeWait)).run

end MarkupOutline.Timing
