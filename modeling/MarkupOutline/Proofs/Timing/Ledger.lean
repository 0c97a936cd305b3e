import Mathlib.Data.List.Induction
import MarkupOutline.Timing.Window

/-! What becomes of the values in a window of quiet. Each of them leaves it once, in the order in which they came,
or waits there at the end, and it waits exactly if nothing came and nothing left since it came. To tell equal values
apart, each is marked with the place of its action, and the window is run on values so marked. -/
namespace MarkupOutline.Timing

section Since

variable {Event Data : Type}

/-- The last of some events that starts anything stands at a place, and no event since has ended what it started.
Whether an event ends it depends on the events before. -/
structure Since (starts : Event → Option Data) (ends : List Event → Event → Bool) (events : List Event)
    (place : Nat) (data : Data) : Prop where
  started : events[place]?.bind starts = some data
  lasting : ∀ (later : Nat) (event : Event), place < later → events[later]? = some event →
    starts event = none ∧ ends (events.take later) event = false

variable {starts : Event → Option Data} {ends : List Event → Event → Bool} {events : List Event} {event : Event}
  {place : Nat} {data : Data}

theorem not_since_nil : ¬ Since starts ends [] place data := by
  intro since
  cases since.started

theorem Since.lt_length (since : Since starts ends events place data) : place < events.length := by
  by_contra beyond
  have started := since.started
  rw [List.getElem?_eq_none (Nat.le_of_not_lt beyond)] at started
  cases started

private theorem earlier_append (events : List Event) (event : Event) (place : Nat) (before : place < events.length) :
    (events ++ [event])[place]? = events[place]? ∧ (events ++ [event]).take place = events.take place :=
  ⟨List.getElem?_append_left before, List.take_append_of_le_length (Nat.le_of_lt before)⟩

/-- One more event starts something itself, or leaves what was started as it was. -/
theorem since_append_iff : Since starts ends (events ++ [event]) place data ↔
    (starts event = some data ∧ place = events.length) ∨
      (starts event = none ∧ ends events event = false ∧ Since starts ends events place data) := by
  have last : (events ++ [event])[events.length]? = some event := List.getElem?_concat_length
  constructor
  · intro since
    have bound := since.lt_length
    rw [List.length_append, List.length_singleton] at bound
    rcases Nat.lt_or_eq_of_le (Nat.le_of_lt_succ bound) with before | rfl
    · have still := since.lasting _ event before last
      rw [List.take_left] at still
      refine .inr ⟨still.1, still.2, (earlier_append events event place before).1 ▸ since.started, ?_⟩
      intro later other after found
      have inside := (List.getElem?_eq_some_iff.mp found).1
      obtain ⟨same, front⟩ := earlier_append events event later inside
      exact front ▸ since.lasting later other after (same.trans found)
    · have started := since.started
      rw [last] at started
      exact .inl ⟨started, rfl⟩
  · rintro (⟨started, rfl⟩ | ⟨idle, still, since⟩)
    · refine ⟨by rw [last]; exact started, ?_⟩
      intro later other after found
      have inside := (List.getElem?_eq_some_iff.mp found).1
      rw [List.length_append, List.length_singleton] at inside
      omega
    · refine ⟨(earlier_append events event place since.lt_length).1 ▸ since.started, ?_⟩
      intro later other after found
      have inside := (List.getElem?_eq_some_iff.mp found).1
      rw [List.length_append, List.length_singleton] at inside
      rcases Nat.lt_or_eq_of_le (Nat.le_of_lt_succ inside) with earlier | rfl
      · obtain ⟨same, front⟩ := earlier_append events event later earlier
        rw [front]
        exact since.lasting later other after (same.symm.trans found)
      · rw [last] at found
        cases found
        rw [List.take_left]
        exact ⟨idle, still⟩

theorem since_kept (idle : starts event = none) (still : ends events event = false) :
    Since starts ends (events ++ [event]) place data ↔ Since starts ends events place data := by
  simp [since_append_iff, idle, still]

theorem not_since_ended (idle : starts event = none) (ended : ends events event = true) :
    ¬ Since starts ends (events ++ [event]) place data := by
  simp [since_append_iff, idle, ended]

theorem since_started {Value : Type} {starts : Event → Option (Nat × Value)} {now : Nat} {input : Value}
    (started : starts event = some (now, input)) (delay deadline place : Nat) (value : Value) :
    some (now + delay, events.length, input) = some (deadline, place, value) ↔
      ∃ time, Since starts ends (events ++ [event]) place (time, value) ∧ deadline = time + delay := by
  constructor
  · intro same
    cases same
    exact ⟨now, since_append_iff.mpr (.inl ⟨started, rfl⟩), rfl⟩
  · rintro ⟨time, since, rfl⟩
    rcases since_append_iff.mp since with ⟨same, rfl⟩ | ⟨idle, _⟩
    · rw [started] at same
      cases same
      rfl
    · cases started.symm.trans idle

end Since

namespace QuietWindow

variable {Value Other : Type}

namespace Action

/-- The time and the value of an action that puts one in. -/
def push? : Action Value → Option (Nat × Value)
  | push now value => some (now, value)
  | _ => none

def map (convert : Value → Other) : Action Value → Action Other
  | push now value => push now (convert value)
  | poll now => poll now
  | take => take
  | cancel => cancel

end Action

def map (convert : Value → Other) (window : QuietWindow Value) : QuietWindow Other :=
  ⟨window.delay, window.waiting.map (Prod.map id convert)⟩

def run (window : QuietWindow Value) (actions : List (Action Value)) : QuietWindow Value :=
  actions.foldl (fun window action => (window.perform action).2) window

/-- What leaves the window with each of some actions. -/
def departures (window : QuietWindow Value) : List (Action Value) → List (Option Value)
  | [] => []
  | action :: rest => (window.perform action).1 :: (window.perform action).2.departures rest

/-- Actions with their places beside the values that they put in. -/
def marked (actions : List (Action Value)) : List (Action (Nat × Value)) :=
  actions.mapIdx fun place action => action.map (place, ·)

/-- The values that actions put in, each with the place of its action. -/
def pushes (actions : List (Action Value)) : List (Nat × Value) :=
  actions.zipIdx.filterMap fun (action, place) => action.push?.map fun (_, value) => (place, value)

/-- Whether a value leaves with an action that comes after some others. -/
def lets (delay : Nat) (front : List (Action Value)) (action : Action Value) : Bool :=
  ((({ delay } : QuietWindow Value).run front).perform action).1.isSome

section Steps

variable (window : QuietWindow Value)

@[simp] theorem run_append (front : List (Action Value)) (action : Action Value) :
    window.run (front ++ [action]) = ((window.run front).perform action).2 := by
  rw [run, List.foldl_append]
  rfl

@[simp] theorem delay_perform (action : Action Value) : (window.perform action).2.delay = window.delay := by
  cases action with
  | push | take | cancel => rfl
  | poll now =>
    simp only [perform, poll]
    split
    · split <;> rfl
    · rfl

@[simp] theorem delay_run (actions : List (Action Value)) : (window.run actions).delay = window.delay := by
  induction actions generalizing window with
  | nil => rfl
  | cons action rest inductionHypothesis =>
    exact (inductionHypothesis (window.perform action).2).trans (window.delay_perform action)

/-- An action that puts nothing in does nothing, or what waits leaves with it. -/
theorem perform_cases (action : Action Value) (none : action.push? = none) :
    window.perform action = (.none, window) ∨ ∃ deadline value,
      window.waiting = some (deadline, value) ∧ window.perform action = (some value, window.take.2) := by
  cases waits : window.waiting with
  | none =>
    left
    have still : window.take = (.none, window) := by
      obtain ⟨delay, waiting⟩ := window
      cases waits
      rfl
    cases action with
    | push now value => cases none
    | poll now => exact poll_idle waits
    | take => exact still
    | cancel => simp only [perform, cancel, still]
  | some entry =>
    obtain ⟨deadline, value⟩ := entry
    have leaves : window.take = (some value, window.take.2) := by rw [take, waits]; rfl
    cases action with
    | push now value => cases none
    | poll now =>
      by_cases due : deadline ≤ now
      · exact .inr ⟨deadline, value, rfl, poll_due waits due⟩
      · exact .inl (poll_early waits due)
    | take => exact .inr ⟨deadline, value, rfl, leaves⟩
    | cancel =>
      right
      refine ⟨deadline, value, rfl, ?_⟩
      rw [perform, cancel, leaves]

private theorem waiting_of_departure (action : Action Value) (value : Value)
    (left : (window.perform action).1 = some value) : ∃ deadline, window.waiting = some (deadline, value) := by
  cases pushed : action.push? with
  | none =>
    rcases window.perform_cases action pushed with still | ⟨deadline, other, waits, leaves⟩
    · rw [still] at left
      cases left
    · rw [leaves] at left
      cases left
      exact ⟨deadline, waits⟩
  | some entry =>
    cases action with
    | push now other =>
      obtain ⟨⟨deadline, kept⟩, waits, same⟩ := Option.map_eq_some_iff.mp left
      cases same
      exact ⟨deadline, waits⟩
    | poll | take | cancel => cases pushed

private theorem perform_conserves (action : Action Value) :
    (window.waiting.map Prod.snd).toList ++ (action.push?.map Prod.snd).toList =
      (window.perform action).1.toList ++ ((window.perform action).2.waiting.map Prod.snd).toList := by
  cases pushed : action.push? with
  | none =>
    rcases window.perform_cases action pushed with still | ⟨deadline, value, waits, leaves⟩
    · simp [still]
    · simp [leaves, waits, take]
  | some entry =>
    cases action with
    | push now value =>
      cases pushed
      rfl
    | poll | take | cancel => cases pushed

/-- All that comes in leaves or waits at the end, in the same order. -/
theorem departures_conserve (actions : List (Action Value)) :
    (window.waiting.map Prod.snd).toList ++ actions.flatMap (fun action => (action.push?.map Prod.snd).toList) =
      (window.departures actions).flatMap Option.toList ++ ((window.run actions).waiting.map Prod.snd).toList := by
  induction actions generalizing window with
  | nil => simp [departures, run]
  | cons action rest inductionHypothesis =>
    have later := inductionHypothesis (window.perform action).2
    rw [List.flatMap_cons, ← List.append_assoc, window.perform_conserves action, List.append_assoc, later,
      departures, List.flatMap_cons, List.append_assoc]
    rfl

end Steps

section Marks

variable (convert : Value → Other) (window : QuietWindow Value)

theorem perform_map (action : Action Value) : (window.map convert).perform (action.map convert) =
    (window.perform action).map (Option.map convert) (map convert) := by
  obtain ⟨delay, waiting⟩ := window
  cases action with
  | poll now =>
    cases waiting with
    | none => rfl
    | some entry =>
      by_cases due : entry.1 ≤ now <;> simp [perform, poll, take, Action.map, map, due]
  | push | take | cancel => cases waiting <;> rfl

theorem run_map (actions : List (Action Value)) :
    (window.map convert).run (actions.map (Action.map convert)) = (window.run actions).map convert := by
  induction actions generalizing window with
  | nil => rfl
  | cons action rest inductionHypothesis =>
    have step := congrArg Prod.snd (perform_map convert window action)
    rw [List.map_cons, run, List.foldl_cons, step]
    exact inductionHypothesis (window.perform action).2

theorem departures_map (actions : List (Action Value)) :
    (window.map convert).departures (actions.map (Action.map convert)) =
      (window.departures actions).map (Option.map convert) := by
  induction actions generalizing window with
  | nil => rfl
  | cons action rest inductionHypothesis =>
    rw [List.map_cons, departures, perform_map, departures, List.map_cons]
    exact congrArg _ (inductionHypothesis (window.perform action).2)

theorem departures_append (front : List (Action Value)) (action : Action Value) :
    window.departures (front ++ [action]) = window.departures front ++ [((window.run front).perform action).1] := by
  induction front generalizing window with
  | nil => rfl
  | cons first rest inductionHypothesis =>
    rw [List.cons_append, departures, inductionHypothesis, departures, List.cons_append]
    rfl

theorem length_departures (actions : List (Action Value)) : (window.departures actions).length = actions.length := by
  induction actions generalizing window with
  | nil => rfl
  | cons action rest inductionHypothesis => rw [departures, List.length_cons, inductionHypothesis, List.length_cons]

theorem marked_append (front : List (Action Value)) (action : Action Value) :
    marked (front ++ [action]) = marked front ++ [action.map (front.length, ·)] := by
  simp [marked, List.mapIdx_append]

theorem marked_unmarked (actions : List (Action Value)) : (marked actions).map (Action.map Prod.snd) = actions := by
  induction actions using List.reverseRecOn with
  | nil => rfl
  | append_singleton front action inductionHypothesis =>
    rw [marked_append, List.map_append, inductionHypothesis, List.map_singleton]
    cases action <;> rfl

theorem pushes_append (front : List (Action Value)) (action : Action Value) : pushes (front ++ [action]) =
    pushes front ++ (action.push?.map fun entry => (front.length, entry.2)).toList := by
  rw [pushes, List.zipIdx_append, List.filterMap_append, ← pushes]
  cases action <;> simp [Action.push?]

private theorem pushes_marked (actions : List (Action Value)) :
    (marked actions).flatMap (fun action => (action.push?.map Prod.snd).toList) = pushes actions := by
  induction actions using List.reverseRecOn with
  | nil => rfl
  | append_singleton front action inductionHypothesis =>
    rw [marked_append, List.flatMap_append, inductionHypothesis, pushes_append]
    cases action <;> simp [Action.map, Action.push?]

private theorem pushes_filter (actions : List (Action Value)) (place : Nat) :
    (pushes actions).filter (fun entry => entry.1 == place) =
      ((actions[place]?.bind Action.push?).map fun entry => (place, entry.2)).toList := by
  induction actions using List.reverseRecOn with
  | nil => rfl
  | append_singleton front action inductionHypothesis =>
    rw [pushes_append, List.filter_append, inductionHypothesis]
    rcases Nat.lt_trichotomy place front.length with before | rfl | behind
    · have none : ((action.push?.map fun entry => (front.length, entry.2)).toList.filter fun entry =>
          entry.1 == place) = [] := by
        cases action.push? <;> simp [Nat.ne_of_gt before]
      rw [none, List.append_nil, List.getElem?_append_left before]
    · rw [List.getElem?_eq_none (Nat.le_refl _), List.getElem?_concat_length]
      cases pushed : action.push? <;> simp [pushed]
    · rw [List.getElem?_eq_none (Nat.le_of_lt behind), List.getElem?_eq_none (by rw [List.length_append]; exact behind)]
      cases action.push? <;> simp [Nat.ne_of_lt behind]

end Marks

section History

variable (delay : Nat) (actions : List (Action Value))

def idle (Value : Type) (delay : Nat) : QuietWindow Value := { delay }

theorem run_unmarked : ((idle (Nat × Value) delay).run (marked actions)).map Prod.snd =
    (idle Value delay).run actions := by
  rw [← run_map, marked_unmarked]
  rfl

private theorem lets_marked (action : Action Value) : lets delay actions action =
    (((idle (Nat × Value) delay).run (marked actions)).perform (action.map (actions.length, ·))).1.isSome := by
  have step := perform_map Prod.snd ((idle (Nat × Value) delay).run (marked actions)) (action.map (actions.length, ·))
  have same : (action.map (actions.length, ·)).map Prod.snd = action := by cases action <;> rfl
  rw [run_unmarked, same] at step
  rw [lets, ← idle, step, Prod.map_fst, Option.isSome_map]

/-- A value waits exactly if it came last and nothing has left since. -/
theorem waiting_iff (deadline place : Nat) (value : Value) :
    ((idle (Nat × Value) delay).run (marked actions)).waiting = some (deadline, place, value) ↔
      ∃ time, Since Action.push? (lets delay) actions place (time, value) ∧ deadline = time + delay := by
  induction actions using List.reverseRecOn with
  | nil => simp [marked, run, idle, not_since_nil]
  | append_singleton front action inductionHypothesis =>
    have left := lets_marked delay front action
    have kept := delay_run (idle (Nat × Value) delay) (marked front)
    rw [marked_append, run_append]
    generalize (idle (Nat × Value) delay).run (marked front) = window at inductionHypothesis left kept ⊢
    cases pushed : action.push? with
    | some entry =>
      cases action with
      | push now input =>
        have waits : (window.perform ((Action.push now input).map (front.length, ·))).2.waiting =
            some (now + delay, front.length, input) := by
          change some (now + window.delay, front.length, input) = _
          rw [kept]
          rfl
        rw [waits]
        exact since_started (show (Action.push now input).push? = some (now, input) from rfl) delay deadline place value
      | poll | take | cancel => cases pushed
    | none =>
      have unpushed : (action.map (front.length, ·)).push? = none := by
        cases action with
        | push => cases pushed
        | poll | take | cancel => rfl
      rcases window.perform_cases _ unpushed with still | ⟨_, _, _, leaves⟩
      · rw [still] at left ⊢
        simp only [since_kept pushed left]
        exact inductionHypothesis
      · rw [leaves] at left ⊢
        simp [take, not_since_ended pushed left]

/-- What leaves with an action was waiting before. -/
theorem since_of_departure (leaving place : Nat) (value : Value)
    (left : ((idle (Nat × Value) delay).departures (marked actions))[leaving]? = some (some (place, value))) :
    ∃ time, Since Action.push? (lets delay) (actions.take leaving) place (time, value) := by
  induction actions using List.reverseRecOn with
  | nil => cases left
  | append_singleton front action inductionHypothesis =>
    have length : ((idle (Nat × Value) delay).departures (marked front)).length = front.length := by
      rw [length_departures, marked, List.length_mapIdx]
    rw [marked_append, departures_append] at left
    have inside := (List.getElem?_eq_some_iff.mp left).1
    rw [List.length_append, length, List.length_singleton] at inside
    rcases Nat.lt_or_eq_of_le (Nat.le_of_lt_succ inside) with before | rfl
    · rw [List.getElem?_append_left (length.symm ▸ before)] at left
      rw [List.take_append_of_le_length (Nat.le_of_lt before)]
      exact inductionHypothesis left
    · rw [← length, List.getElem?_concat_length, Option.some.injEq] at left
      obtain ⟨deadline, waits⟩ := waiting_of_departure _ _ _ left
      obtain ⟨time, since, _⟩ := (waiting_iff delay front deadline place value).mp waits
      exact ⟨time, by rwa [List.take_left]⟩

private theorem waiting_run_iff (deadline : Nat) (value : Value) :
    ((idle Value delay).run actions).waiting = some (deadline, value) ↔
      ∃ place time, Since Action.push? (lets delay) actions place (time, value) ∧ deadline = time + delay := by
  rw [← run_unmarked, map, Option.map_eq_some_iff]
  constructor
  · rintro ⟨⟨_, place, _⟩, waits, same⟩
    cases same
    exact ⟨place, (waiting_iff delay actions _ _ _).mp waits⟩
  · rintro ⟨place, waits⟩
    exact ⟨_, (waiting_iff delay actions deadline place value).mpr waits, rfl⟩

end History

/-- Whatever is done to a window, and at whatever times: marks on the values change nothing; all values that were put
in leave or wait at the end, each once and in the order of their places; what leaves with an action is the latest
value before it, from which nothing has left since, and a cancelling tells whether one does; the clock hands out
that value if its time has come, and its deadline is the one of the window. -/
theorem run_conserves (delay : Nat) (actions : List (Action Value)) :
    let window := idle Value delay
    let tracked := idle (Nat × Value) delay
    let accounted := (tracked.departures (marked actions)).flatMap Option.toList ++
      ((tracked.run (marked actions)).waiting.map Prod.snd).toList
    window.departures actions = (tracked.departures (marked actions)).map (Option.map Prod.snd) ∧
      window.run actions = (tracked.run (marked actions)).map Prod.snd ∧
      accounted = pushes actions ∧
      (∀ place time value, actions[place]? = some (.push time value) →
        accounted.filter (fun entry => entry.1 == place) = [(place, value)]) ∧
      (∀ leaving place value, (tracked.departures (marked actions))[leaving]? = some (some (place, value)) →
        ∃ time, Since Action.push? (lets delay) (actions.take leaving) place (time, value)) ∧
      (window.run actions).cancel.1 = lets delay actions .cancel ∧
      (∀ now value, ((window.run actions).poll now).1 = some value ↔
        ∃ place time, Since Action.push? (lets delay) actions place (time, value) ∧ time + delay ≤ now) ∧
      ∀ deadline, (window.run actions).deadline? = some deadline ↔
        ∃ place time value, Since Action.push? (lets delay) actions place (time, value) ∧ deadline = time + delay := by
  intro window tracked accounted
  have all : accounted = pushes actions := by
    rw [← pushes_marked]
    exact (tracked.departures_conserve (marked actions)).symm
  refine ⟨?_, (run_unmarked delay actions).symm, all, ?_, since_of_departure delay actions, rfl, ?_, ?_⟩
  · rw [← departures_map, marked_unmarked]
    rfl
  · intro place time value pushed
    rw [all, pushes_filter, pushed]
    rfl
  · intro now value
    rw [poll_eq_some_iff]
    constructor
    · rintro ⟨deadline, waits, due⟩
      obtain ⟨place, time, since, rfl⟩ := (waiting_run_iff delay actions deadline value).mp waits
      exact ⟨place, time, since, due⟩
    · rintro ⟨place, time, since, due⟩
      exact ⟨time + delay, (waiting_run_iff delay actions _ value).mpr ⟨place, time, since, rfl⟩, due⟩
  · intro deadline
    rw [deadline?, Option.map_eq_some_iff]
    constructor
    · rintro ⟨⟨_, value⟩, waits, rfl⟩
      obtain ⟨place, time, known⟩ := (waiting_run_iff delay actions _ value).mp waits
      exact ⟨place, time, value, known⟩
    · rintro ⟨place, time, value, known⟩
      exact ⟨(deadline, value), (waiting_run_iff delay actions deadline value).mpr ⟨place, time, known⟩, rfl⟩

/-- A value leaves in each of the four ways while the clock also goes back, and a fifth one waits. -/
theorem run_conserves_mixed :
    let actions : List (Action Char) := [.push 5 'a', .push 3 'b', .poll 12, .poll 13, .push 20 'c', .cancel,
      .push 19 'd', .take, .push 40 'e', .poll 8]
    let tracked := idle (Nat × Char) 10
    (idle Char 10).departures actions = [none, some 'a', none, some 'b', none, some 'c', none, some 'd', none, none] ∧
      actions[4]? = some (.push 20 'c') ∧
      ((tracked.departures (marked actions)).flatMap Option.toList ++
        ((tracked.run (marked actions)).waiting.map Prod.snd).toList).filter (fun entry => entry.1 == 4) = [(4, 'c')] ∧
      ((idle Char 10).run actions).deadline? = some 50 ∧ (((idle Char 10).run actions).poll 50).1 = some 'e' ∧
      ∃ place time, Since Action.push? (lets 10) actions place (time, 'e') ∧ time + 10 ≤ 50 := by
  intro actions tracked
  have ⟨_, _, _, once, _, _, released, _⟩ := run_conserves 10 actions
  have ready : (((idle Char 10).run actions).poll 50).1 = some 'e' := by decide
  exact ⟨by decide, rfl, once 4 20 'c' rfl, by decide, ready, (released 50 'e').mp ready⟩

end QuietWindow

end MarkupOutline.Timing
