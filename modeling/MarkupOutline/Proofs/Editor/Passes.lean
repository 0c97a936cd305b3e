import MarkupOutline.Proofs.Editor.Settled
import MarkupOutline.Proofs.Timing.Ledger

/-! Which passes an editor runs. Beside its window stands one whose texts are marked with the places of the calls that
brought them, so that a pass belongs to one call even if the same text was put in twice. The clock runs the pass of
the latest call, once, when its time has come and no pass was run since. -/
namespace MarkupOutline.Editor

open Pretty Timing

namespace Action

def call? : Action → Option (Nat × Text)
  | edit now input => some (now, input)
  | openSample now => some (now, sample)
  | _ => none

/-- What an action does to the window of an editor. -/
def onWindow? : Action → Option (QuietWindow.Action Text)
  | edit now input => some (.push now input)
  | openSample now => some (.push now sample)
  | advance now => some (.poll now)
  | refresh => some .cancel
  | fold _ => none

end Action

/-- Whether a pass is run with an action that comes after some others. -/
def passing (style : Style) (delay : Nat) (front : List Action) (action : Action) : Bool :=
  ((start style delay).run front).makesPass action

/-- The window with the place of its call beside each text. -/
def tracked (delay : Nat) (actions : List Action) : QuietWindow (Nat × Text) :=
  (QuietWindow.idle _ delay).run (actions.zipIdx.filterMap fun (action, place) =>
    action.onWindow?.map (QuietWindow.Action.map (place, ·)))

/-- The clock runs the pass of a call at a place. -/
def Serves (delay : Nat) (actions : List Action) (place call : Nat) : Prop :=
  ∃ now text, actions[place]? = some (.advance now) ∧
    ((tracked delay (actions.take place)).poll now).1 = some (call, text)

section Steps

variable (editor : Editor)

@[simp] theorem run_append (front : List Action) (action : Action) :
    editor.run (front ++ [action]) = (editor.run front).perform action := by
  rw [run, List.foldl_append]
  rfl

/-- The clock runs a pass exactly if a text comes out of the window, and that text is formatted. -/
theorem advance_eq (now : Nat) : editor.advance now = ((editor.window.poll now).1.isSome,
    ((editor.window.poll now).1.map fun text =>
      { editor with
        window := (editor.window.poll now).2
        preview := .ofInput editor.style text
        passes := editor.passes + 1 }).getD editor) := by
  rw [advance]
  split
  · next polled => rw [polled]; rfl
  · next polled => rw [polled]; rfl

private theorem window_perform (action : Action) : (editor.perform action).window =
    (action.onWindow?.map fun action => (editor.window.perform action).2).getD editor.window := by
  cases action with
  | edit | openSample | refresh => rfl
  | advance now =>
    rw [perform, advance_eq]
    cases polled : (editor.window.poll now).1 with
    | some text => rfl
    | none =>
      have still : (editor.window.perform (.poll now)).2 = editor.window := by
        rcases editor.window.perform_cases (.poll now) rfl with same | ⟨_, _, _, left⟩
        · rw [same]
        · cases polled.symm.trans (congrArg Prod.fst left)
      exact still.symm
  | fold action =>
    rw [perform, fold]
    split <;> rfl

end Steps

section History

variable (style : Style) (delay : Nat) (actions : List Action)

theorem tracked_append (front : List Action) (action : Action) : tracked delay (front ++ [action]) =
    (action.onWindow?.map fun onWindow =>
      ((tracked delay front).perform (onWindow.map (front.length, ·))).2).getD (tracked delay front) := by
  rw [tracked, List.zipIdx_append, List.filterMap_append, tracked]
  cases action <;> simp [Action.onWindow?]

theorem tracked_unmarked : (tracked delay actions).map Prod.snd = ((start style delay).run actions).window := by
  induction actions using List.reverseRecOn with
  | nil => rfl
  | append_singleton front action inductionHypothesis =>
    rw [tracked_append, run_append, window_perform]
    cases action.onWindow? with
    | none => exact inductionHypothesis
    | some onWindow =>
      have same : (onWindow.map (front.length, ·)).map Prod.snd = onWindow := by cases onWindow <;> rfl
      have step := QuietWindow.perform_map Prod.snd (tracked delay front) (onWindow.map (front.length, ·))
      rw [same, inductionHypothesis] at step
      exact (congrArg Prod.snd step).symm

theorem poll_tracked (now : Nat) : (((start style delay).run actions).window.poll now).1 =
    ((tracked delay actions).poll now).1.map Prod.snd := by
  rw [← tracked_unmarked]
  exact congrArg Prod.fst (QuietWindow.perform_map Prod.snd (tracked delay actions) (.poll now))

private theorem tracked_cases (front : List Action) (action : Action) (uncalled : action.call? = none) :
    (passing style delay front action = false ∧ tracked delay (front ++ [action]) = tracked delay front) ∨
      (passing style delay front action = true ∧ (tracked delay (front ++ [action])).waiting = none) := by
  rw [tracked_append, passing]
  cases action with
  | edit | openSample => cases uncalled
  | fold action => exact .inl ⟨rfl, rfl⟩
  | refresh => exact .inr ⟨rfl, rfl⟩
  | advance now =>
    rw [makesPass, advance_eq, poll_tracked, Option.isSome_map]
    rcases (tracked delay front).perform_cases (.poll now) rfl with still | ⟨deadline, entry, _, leaves⟩
    · left
      exact ⟨congrArg (fun result => result.1.isSome) still, congrArg Prod.snd still⟩
    · right
      exact ⟨congrArg (fun result => result.1.isSome) leaves, congrArg (fun result => result.2.waiting) leaves⟩

private theorem tracked_call (front : List Action) (action : Action) (now : Nat) (input : Text)
    (called : action.call? = some (now, input)) :
    (tracked delay (front ++ [action])).waiting = some (now + delay, front.length, input) := by
  have kept : (tracked delay front).delay = delay := QuietWindow.delay_run _ _
  have pushed : action.onWindow? = some (.push now input) := by
    cases action with
    | edit | openSample =>
      cases called
      rfl
    | advance | refresh | fold => cases called
  rw [tracked_append, pushed]
  change some (now + (tracked delay front).delay, front.length, input) = _
  rw [kept]

private theorem waiting_iff (deadline place : Nat) (text : Text) :
    (tracked delay actions).waiting = some (deadline, place, text) ↔
      ∃ time, Since Action.call? (passing style delay) actions place (time, text) ∧ deadline = time + delay := by
  induction actions using List.reverseRecOn with
  | nil => simp [tracked, QuietWindow.run, QuietWindow.idle, not_since_nil]
  | append_singleton front action inductionHypothesis =>
    cases called : action.call? with
    | some entry =>
      rw [tracked_call delay front action entry.1 entry.2 called]
      exact since_started called delay deadline place text
    | none =>
      rcases tracked_cases style delay front action called with ⟨still, same⟩ | ⟨pass, empty⟩
      · simp only [same, since_kept called still]
        exact inductionHypothesis
      · simp [empty, not_since_ended called pass]

/-- The clock finds the text of the latest call if its time has come and no pass was run since. -/
theorem poll_tracked_iff (now place : Nat) (text : Text) : ((tracked delay actions).poll now).1 = some (place, text) ↔
    ∃ time, Since Action.call? (passing style delay) actions place (time, text) ∧ time + delay ≤ now := by
  rw [QuietWindow.poll_eq_some_iff]
  constructor
  · rintro ⟨deadline, waits, due⟩
    obtain ⟨time, since, rfl⟩ := (waiting_iff style delay actions deadline place text).mp waits
    exact ⟨time, since, due⟩
  · rintro ⟨time, since, due⟩
    exact ⟨time + delay, (waiting_iff style delay actions _ place text).mpr ⟨time, since, rfl⟩, due⟩

theorem advance_tracked (now : Nat) : (((start style delay).run actions).advance now).1 =
    ((tracked delay actions).poll now).1.isSome := by
  rw [advance_eq, poll_tracked, Option.isSome_map]

variable {delay actions}

/-- Between a call and its pass there is neither another call nor another pass. -/
theorem Serves.alone {place call : Nat} (serves : Serves delay actions place call) :
    (∃ time text, actions[call]?.bind Action.call? = some (time, text)) ∧ call < place ∧
      ∀ between action, call < between → between < place → actions[between]? = some action →
        action.call? = none ∧ passing style delay (actions.take between) action = false := by
  obtain ⟨now, text, found, polled⟩ := serves
  obtain ⟨time, since, _⟩ := (poll_tracked_iff style delay _ now call text).mp polled
  have before : call < place := Nat.lt_of_lt_of_le since.lt_length (List.length_take_le _ _)
  have started := since.started
  rw [List.getElem?_take_of_lt before] at started
  refine ⟨⟨time, text, started⟩, before, ?_⟩
  intro between action after earlier here
  have kept := since.lasting between action after (by rw [List.getElem?_take_of_lt earlier]; exact here)
  rwa [List.take_take, Nat.min_eq_left (Nat.le_of_lt earlier)] at kept

/-- The clock runs a pass for a call once. -/
theorem Serves.unique {first second call : Nat} (earlier : Serves delay actions first call)
    (later : Serves delay actions second call) : second ≤ first := by
  by_contra before
  obtain ⟨now, text, found, polled⟩ := earlier
  have after := (Serves.alone .standard ⟨now, text, found, polled⟩).2.1
  have ⟨_, _, alone⟩ := later.alone .standard
  have idle := (alone first _ after (Nat.lt_of_not_le before) found).2
  rw [passing, makesPass, advance_tracked, polled] at idle
  cases idle

end History

end MarkupOutline.Editor
