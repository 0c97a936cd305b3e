/-! A window of quiet: it keeps the latest value until no newer one has come for a fixed time. The
clock is read outside, so times may come in any order. All times are in milliseconds. -/
namespace MarkupOutline.Timing

def standardDelay : Nat := 300

structure QuietWindow (Value : Type) where
  delay : Nat := standardDelay
  /-- The value that waits, with the time from which it is ready. -/
  waiting : Option (Nat × Value) := none

namespace QuietWindow

variable {Value : Type}

def deadline? (window : QuietWindow Value) : Option Nat := window.waiting.map Prod.fst

def isWaiting (window : QuietWindow Value) : Bool := window.waiting.isSome

/-- A new value takes the place of the one that waits, which is handed back. -/
def push (window : QuietWindow Value) (now : Nat) (value : Value) : Option Value × QuietWindow Value :=
  (window.waiting.map Prod.snd, { window with waiting := some (now + window.delay, value) })

/-- Hand out the value that waits, ready or not. -/
def take (window : QuietWindow Value) : Option Value × QuietWindow Value :=
  (window.waiting.map Prod.snd, { window with waiting := none })

/-- Hand out the value that waits if it is ready. -/
def poll (window : QuietWindow Value) (now : Nat) : Option Value × QuietWindow Value :=
  match window.waiting with
  | some (deadline, _) => if deadline ≤ now then window.take else (none, window)
  | none => (none, window)

/-- Drop the value that waits and tell whether there was one. -/
def cancel (window : QuietWindow Value) : Bool × QuietWindow Value :=
  (window.take.1.isSome, window.take.2)

/-- What can be done to a window. -/
inductive Action (Value : Type) where
  | push (now : Nat) (value : Value)
  | poll (now : Nat)
  | take
  | cancel

/-- The value that leaves the window with an action, and the window after it. -/
def perform (window : QuietWindow Value) : Action Value → Option Value × QuietWindow Value
  | .push now value => window.push now value
  | .poll now => window.poll now
  | .take => window.take
  | .cancel => (window.take.1, window.cancel.2)

section Poll

variable {window : QuietWindow Value} {now deadline : Nat} {value : Value}

theorem poll_idle (idle : window.waiting = none) : window.poll now = (none, window) := by
  rw [poll, idle]

theorem poll_due (waits : window.waiting = some (deadline, value)) (due : deadline ≤ now) :
    window.poll now = (some value, window.take.2) := by
  rw [poll, waits]
  simp [due, take, waits]

theorem poll_early (waits : window.waiting = some (deadline, value)) (early : ¬ deadline ≤ now) :
    window.poll now = (none, window) := by
  rw [poll, waits]
  exact if_neg early

end Poll

/-- A value is handed out by the clock exactly from its deadline on. -/
theorem poll_eq_some_iff (window : QuietWindow Value) (now : Nat) (value : Value) :
    (window.poll now).1 = some value ↔
      ∃ deadline, window.waiting = some (deadline, value) ∧ deadline ≤ now := by
  constructor
  · intro polled
    cases waits : window.waiting with
    | none =>
      rw [poll_idle waits] at polled
      cases polled
    | some entry =>
      obtain ⟨deadline, kept⟩ := entry
      by_cases due : deadline ≤ now
      · rw [poll_due waits due] at polled
        cases polled
        exact ⟨deadline, rfl, due⟩
      · rw [poll_early waits due] at polled
        cases polled
  · rintro ⟨deadline, waits, due⟩
    rw [poll_due waits due]

end QuietWindow

end MarkupOutline.Timing
