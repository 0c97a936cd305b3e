import Mathlib.Data.List.Chain
import MarkupOutline.Proofs.Timing.Quiet

/-! A sender, a channel and the loop behind it, each of which moves when it can, on a clock that only goes on
when none of them can. However they take turns, the same values are passed on at the same times, and the loop
always comes to its end. -/
namespace MarkupOutline.Timing

variable {Value : Type}

/-- Values sent in order, none at the very time at which the one before is ready, and the channel closed after
the last one. -/
structure Timetable (delay closing : Nat) (arrivals : List (Timed Value)) : Prop where
  ordered : arrivals.IsChain fun arrival next => arrival.time ≤ next.time
  apart : arrivals.IsChain fun arrival next => next.time ≠ arrival.time + delay
  closes : ∀ last ∈ arrivals.getLast?, last.time ≤ closing

namespace Timetable

variable {delay closing : Nat} {arrival next : Timed Value} {front rest : List (Timed Value)}

theorem of_append (table : Timetable delay closing (front ++ rest)) : Timetable delay closing rest where
  ordered := table.ordered.right_of_append
  apart := table.apart.right_of_append
  closes last known := table.closes last (by rw [List.getLast?_append, known]; rfl)

theorem tail (table : Timetable delay closing (arrival :: rest)) : Timetable delay closing rest :=
  @of_append _ _ _ [arrival] _ table

private theorem head_le_closing (table : Timetable delay closing (arrival :: rest)) : arrival.time ≤ closing := by
  induction rest generalizing arrival with
  | nil => exact table.closes arrival rfl
  | cons next rest inductionHypothesis =>
    exact Nat.le_trans (List.isChain_cons_cons.mp table.ordered).1 (inductionHypothesis table.tail)

end Timetable

/-- What the loop waits for. -/
inductive Relay.Stage where
  /-- For a value or the deadline. -/
  | listening
  /-- For the deadline, since the channel is closed. -/
  | draining
  | returned
deriving DecidableEq

/-- The clock, the sender with what it will still send, the channel, and the loop with its window. -/
structure Relay (Value : Type) where
  now : Nat
  unsent : List (Timed Value)
  closing : Nat
  closed : Bool
  channel : List Value
  window : QuietWindow Value
  stage : Relay.Stage

namespace Relay

def start (delay closing : Nat) (arrivals : List (Timed Value)) : Relay Value :=
  ⟨0, arrivals, closing, false, [], { delay }, .listening⟩

/-- No one has anything to do at this time, and the loop has not returned. -/
structure Calm (relay : Relay Value) : Prop where
  sender : ∀ arrival ∈ relay.unsent.head?, relay.now < arrival.time
  closer : relay.unsent = [] → relay.closed = false → relay.now < relay.closing
  listener : relay.stage = .listening → relay.channel = [] ∧ relay.closed = false
  timer : ∀ deadline ∈ relay.window.deadline?, relay.now < deadline
  running : relay.stage ≠ .returned

/-- One of them moves, and the loop may pass on a value. -/
inductive Moves (relay : Relay Value) : Option (Timed Value) → Relay Value → Prop where
  /-- The sender sends the next value at its time. -/
  | sent {value : Value} {rest : List (Timed Value)} (next : relay.unsent = ⟨relay.now, value⟩ :: rest) :
      Moves relay none { relay with unsent := rest, channel := relay.channel ++ [value] }
  | closed (allSent : relay.unsent = []) (due : relay.closing = relay.now) (isOpen : relay.closed = false) :
      Moves relay none { relay with closed := true }
  | received {value : Value} {rest : List Value} (listens : relay.stage = .listening)
      (next : relay.channel = value :: rest) :
      Moves relay none { relay with channel := rest, window := (relay.window.push relay.now value).2 }
  /-- The deadline comes before another value does. -/
  | released {deadline : Nat} {value : Value} (listens : relay.stage = .listening)
      (waits : relay.window.waiting = some (deadline, value)) (ready : deadline ≤ relay.now) :
      Moves relay ((relay.window.poll relay.now).1.map (⟨relay.now, ·⟩))
        { relay with window := (relay.window.poll relay.now).2 }
  /-- The loop learns that the channel is closed while a value waits. -/
  | hungUp {deadline : Nat} {value : Value} (listens : relay.stage = .listening) (empty : relay.channel = [])
      (shut : relay.closed = true) (waits : relay.window.waiting = some (deadline, value)) :
      Moves relay none { relay with stage := .draining }
  /-- The loop learns it when none waits, and returns. -/
  | left (listens : relay.stage = .listening) (empty : relay.channel = []) (shut : relay.closed = true)
      (idle : relay.window.waiting = none) : Moves relay none { relay with stage := .returned }
  | drained {deadline : Nat} {value : Value} (drains : relay.stage = .draining)
      (waits : relay.window.waiting = some (deadline, value)) (ready : deadline ≤ relay.now) :
      Moves relay (relay.window.take.1.map (⟨relay.now, ·⟩))
        { relay with window := relay.window.take.2, stage := .returned }
  /-- The clock goes on. -/
  | waited (calm : relay.Calm) : Moves relay none { relay with now := relay.now + 1 }

/-- Some moves one after the other, with all that is passed on. -/
inductive Runs : Relay Value → List (Timed Value) → Relay Value → Prop where
  | still {relay : Relay Value} : Runs relay [] relay
  | moved {relay next last : Relay Value} {pass : Option (Timed Value)} {passes : List (Timed Value)}
      (first : Moves relay pass next) (rest : Runs next passes last) : Runs relay (pass.toList ++ passes) last

def following (relay : Relay Value) : List (Timed Value) :=
  relay.channel.map (⟨relay.now, ·⟩) ++ relay.unsent

/-- What the loop has still to pass on, and when it returns. -/
def answer (relay : Relay Value) : List (Timed Value) × Nat :=
  match relay.stage with
  | .returned => ([], relay.now)
  | _ => relay.window.answer relay.closing relay.following

/-- Nothing that has a time is late, and the loop stops listening only to a channel that is closed and empty. -/
structure InTime (relay : Relay Value) : Prop where
  dated : relay.window.Dated
  table : Timetable relay.window.delay relay.closing (relay.window.source ++ relay.following)
  ahead : ∀ arrival ∈ relay.unsent.head?, relay.now ≤ arrival.time
  timely : ∀ deadline ∈ relay.window.deadline?, relay.now ≤ deadline
  listens : relay.stage = .listening → relay.now ≤ relay.closing
  sealed : relay.closed = true → relay.unsent = [] ∧ relay.closing ≤ relay.now
  behind : relay.stage ≠ .listening → relay.channel = [] ∧ relay.closed = true
  drains : relay.stage = .draining → relay.window.isWaiting = true

variable {relay next last : Relay Value} {pass : Option (Timed Value)} {passes : List (Timed Value)}

private theorem inTime_start {delay closing : Nat} {arrivals : List (Timed Value)}
    (table : Timetable delay closing arrivals) : InTime (start delay closing arrivals) where
  dated := nofun
  table := table
  ahead _ _ := Nat.zero_le _
  timely := nofun
  listens _ := Nat.zero_le _
  sealed := nofun
  behind listens := absurd rfl listens
  drains := nofun

theorem following_sent {value : Value} {rest : List (Timed Value)}
    (next : relay.unsent = ⟨relay.now, value⟩ :: rest) :
    following { relay with unsent := rest, channel := relay.channel ++ [value] } = relay.following := by
  simp [following, next]

theorem following_received {value : Value} {rest : List Value} (next : relay.channel = value :: rest) :
    relay.following = ⟨relay.now, value⟩ :: following { relay with channel := rest } := by
  simp [following, next]

theorem InTime.following_head (kept : InTime relay) : ∀ arrival ∈ relay.following.head?, relay.now ≤ arrival.time := by
  intro arrival first
  rw [Relay.following] at first
  cases same : relay.channel with
  | nil =>
    rw [same] at first
    exact kept.ahead arrival first
  | cons value rest =>
    rw [same] at first
    cases first
    exact Nat.le_refl _

theorem InTime.waiting (kept : InTime relay) {deadline : Nat} {value : Value}
    (waits : relay.window.waiting = some (deadline, value)) : relay.now ≤ deadline :=
  kept.timely deadline (by rw [QuietWindow.deadline?, waits]; rfl)

theorem InTime.late (kept : InTime relay) {deadline : Nat} {value : Value}
    (waits : relay.window.waiting = some (deadline, value)) (ready : deadline ≤ relay.now) :
    ∀ next ∈ relay.following.head?, deadline < next.time := by
  intro next first
  have apart := kept.table.apart
  rw [QuietWindow.source_waiting waits] at apart
  cases same : relay.following with
  | nil =>
    rw [same] at first
    cases first
  | cons front rest =>
    rw [same] at first apart
    cases first
    have distinct := (List.isChain_cons_cons.mp apart).1
    rw [kept.dated.waiting waits] at distinct
    have reached := kept.following_head next (by rw [same]; rfl)
    omega

theorem InTime.draining (kept : InTime relay) (drains : relay.stage = .draining) :
    relay.channel = [] ∧ relay.closed = true :=
  kept.behind fun listens => nomatch drains.symm.trans listens

theorem InTime.sent (kept : InTime relay) {value : Value} {rest : List (Timed Value)}
    (front : relay.unsent = ⟨relay.now, value⟩ :: rest) :
    InTime { relay with unsent := rest, channel := relay.channel ++ [value] } := by
  -- The channel is not closed before the last value is sent.
  have isOpen : relay.closed ≠ true := by
    intro shut
    have nothing := (kept.sealed shut).1
    rw [front] at nothing
    cases nothing
  have table := kept.table
  have behind := kept.table.of_append.of_append.ordered
  rw [front] at behind
  rw [← following_sent front] at table
  exact { kept with
    table
    ahead := (List.isChain_cons.mp behind).1
    sealed := fun shut => absurd shut isOpen
    behind := fun gone => absurd (kept.behind gone).2 isOpen }

theorem InTime.channel_calm (kept : InTime relay) (calm : relay.Calm) : relay.channel = [] := by
  by_cases listens : relay.stage = .listening
  · exact (calm.listener listens).1
  · exact (kept.behind listens).1

theorem following_waited (empty : relay.channel = []) :
    following { relay with now := relay.now + 1 } = relay.following := by
  rw [following, following, empty, List.map_nil, List.map_nil]

theorem InTime.now_lt_closing (kept : InTime relay) (calm : relay.Calm) (listens : relay.stage = .listening) :
    relay.now < relay.closing := by
  obtain ⟨empty, isOpen⟩ := calm.listener listens
  have table := kept.table.of_append
  rw [following, empty, List.map_nil, List.nil_append] at table
  cases same : relay.unsent with
  | nil => exact calm.closer same isOpen
  | cons arrival rest =>
    rw [same] at table
    exact Nat.lt_of_lt_of_le (calm.sender arrival (by rw [same]; rfl)) table.head_le_closing

theorem InTime.waited (kept : InTime relay) (calm : relay.Calm) : InTime { relay with now := relay.now + 1 } := by
  have empty := kept.channel_calm calm
  exact { kept with
    table := by rw [following_waited empty]; exact kept.table
    ahead := calm.sender
    timely := calm.timer
    listens := kept.now_lt_closing calm
    sealed := fun shut => ⟨(kept.sealed shut).1, Nat.le_succ_of_le (kept.sealed shut).2⟩ }

theorem InTime.moves (kept : InTime relay) (moved : Moves relay pass next) : InTime next := by
  cases moved with
  | sent front => exact kept.sent front
  | closed nothing due _ =>
    exact { kept with
      sealed := fun _ => ⟨nothing, Nat.le_of_eq due⟩
      behind := fun gone => ⟨(kept.behind gone).1, rfl⟩ }
  | @received value rest listens front =>
    have table := kept.table
    rw [following_received front] at table
    exact { kept with
      dated := QuietWindow.dated_push _ _ _
      table := by rw [QuietWindow.source_push]; exact table.of_append
      timely := by simp
      behind := fun gone => absurd listens gone
      drains := fun drains => absurd (listens.symm.trans drains) (by decide) }
  | released listens waits ready =>
    rw [QuietWindow.poll_due waits ready]
    exact { kept with
      dated := QuietWindow.dated_take _
      table := kept.table.of_append
      timely := by simp
      drains := fun drains => absurd (listens.symm.trans drains) (by decide) }
  | hungUp listens empty shut waits =>
    exact { kept with
      listens := by rintro ⟨⟩
      behind := fun _ => ⟨empty, shut⟩
      drains := fun _ => by rw [QuietWindow.isWaiting, waits]; rfl }
  | left listens empty shut idle =>
    exact { kept with
      listens := by rintro ⟨⟩
      behind := fun _ => ⟨empty, shut⟩
      drains := by rintro ⟨⟩ }
  | drained drains waits ready =>
    have gone := kept.draining drains
    exact { kept with
      dated := QuietWindow.dated_take _
      table := kept.table.of_append
      timely := by simp
      listens := by rintro ⟨⟩
      behind := fun _ => gone
      drains := by rintro ⟨⟩ }
  | waited calm => exact kept.waited calm

theorem answer_running (running : relay.stage ≠ .returned) :
    relay.answer = relay.window.answer relay.closing relay.following := by
  rw [answer]
  split
  · next returned => exact absurd returned running
  · rfl

theorem answer_listening (listens : relay.stage = .listening) :
    relay.answer = relay.window.answer relay.closing relay.following :=
  answer_running fun returned => nomatch listens.symm.trans returned

theorem answer_draining (drains : relay.stage = .draining) :
    relay.answer = relay.window.answer relay.closing relay.following :=
  answer_running fun returned => nomatch drains.symm.trans returned

theorem answer_returned (returned : relay.stage = .returned) : relay.answer = ([], relay.now) := by
  rw [answer, returned]

theorem InTime.following_closed (kept : InTime relay) (empty : relay.channel = []) (shut : relay.closed = true) :
    relay.following = [] := by
  rw [following, empty, (kept.sealed shut).1]
  rfl

/-- No move changes which values are passed on, when they are, and when the loop returns. -/
theorem InTime.answer_moves (kept : InTime relay) (moved : Moves relay pass next) :
    relay.answer = next.answer.map (pass.toList ++ ·) id := by
  cases moved with
  | sent front =>
    rw [answer, answer, following_sent front]
    rfl
  | closed nothing due _ => rfl
  | @received value rest listens front =>
    rw [answer_listening listens, answer_listening (by exact listens), following_received front,
      QuietWindow.answer_push kept.dated _ kept.timely]
    rfl
  | released listens waits ready =>
    -- The clock stops at a deadline, so a value that is ready is ready now.
    obtain rfl := Nat.le_antisymm ready (kept.waiting waits)
    rw [QuietWindow.poll_due waits ready, answer_listening listens,
      answer_listening (by exact listens),
      QuietWindow.answer_take kept.dated waits (kept.late waits ready) fun _ => kept.listens listens]
    rfl
  | hungUp listens empty shut waits =>
    rw [answer_listening listens]
    rfl
  | left listens empty shut idle =>
    -- A loop that listens has heard of the closing at once.
    have due := Nat.le_antisymm (kept.sealed shut).2 (kept.listens listens)
    rw [answer_listening listens, kept.following_closed empty shut, QuietWindow.answer_idle idle, due]
    rfl
  | drained drains waits ready =>
    obtain ⟨empty, shut⟩ := kept.draining drains
    obtain rfl := Nat.le_antisymm ready (kept.waiting waits)
    rw [answer_draining drains, kept.following_closed empty shut,
      QuietWindow.answer_drain kept.dated waits (kept.sealed shut).2, QuietWindow.take, waits]
    rfl
  | waited calm =>
    rw [answer_running calm.running, ← following_waited (kept.channel_calm calm)]
    have running : ({ relay with now := relay.now + 1 } : Relay Value).stage ≠ .returned := calm.running
    exact (answer_running running).symm

/-- What was passed on in a run and what is still to be passed on is the same for all runs. -/
theorem InTime.runs (kept : InTime relay) (run : Runs relay passes last) :
    InTime last ∧ relay.answer = last.answer.map (passes ++ ·) id := by
  induction run with
  | still => exact ⟨kept, rfl⟩
  | moved first _ inductionHypothesis =>
    obtain ⟨keeps, same⟩ := inductionHypothesis (kept.moves first)
    refine ⟨keeps, ?_⟩
    rw [kept.answer_moves first, same]
    simp only [Prod.map, id_eq, List.append_assoc]

theorem InTime.now_lt_answer (kept : InTime relay) (calm : relay.Calm) : relay.now < relay.answer.2 := by
  rw [answer_running calm.running]
  cases known : relay.stage with
  | listening => exact Nat.lt_of_lt_of_le (kept.now_lt_closing calm known) (le_finish _ _ _)
  | draining =>
    obtain ⟨empty, shut⟩ := kept.draining known
    obtain ⟨⟨deadline, value⟩, waits⟩ := Option.isSome_iff_exists.mp (kept.drains known)
    have early := calm.timer deadline (by rw [QuietWindow.deadline?, waits]; rfl)
    rw [kept.following_closed empty shut, QuietWindow.answer_drain kept.dated waits]
    · exact early
    · exact Nat.le_trans (kept.sealed shut).2 (Nat.le_of_lt early)
  | returned => exact absurd known calm.running

/-- Moves that the loop has left to its return. -/
def Stage.left : Stage → Nat
  | .listening => 2
  | .draining => 1
  | .returned => 0

/-- Moves that are left at the same time: each value is sent, received and released once at most, and the channel
is closed once. -/
def load (relay : Relay Value) : Nat :=
  3 * relay.unsent.length + 2 * relay.channel.length + relay.window.source.length
    + (if relay.closed then 0 else 1) + relay.stage.left

def work (relay : Relay Value) : Nat := relay.load + (relay.answer.2 - relay.now)

theorem load_moves (moved : Moves relay pass next) :
    next.load < relay.load ∧ next.now = relay.now ∨
      relay.Calm ∧ next.load = relay.load ∧ next.now = relay.now + 1 := by
  cases moved with
  | sent front =>
    refine .inl ⟨?_, rfl⟩
    simp only [load, front, List.length_cons, List.length_append, List.length_nil]
    omega
  | closed nothing due isOpen =>
    refine .inl ⟨?_, rfl⟩
    simp [load, isOpen]
  | received listens front =>
    refine .inl ⟨?_, rfl⟩
    simp only [load, front, QuietWindow.source_push, List.length_cons, List.length_nil]
    omega
  | released listens waits ready =>
    refine .inl ⟨?_, rfl⟩
    simp [load, QuietWindow.poll_due waits ready, QuietWindow.source_waiting waits]
  | hungUp listens empty shut waits =>
    refine .inl ⟨?_, rfl⟩
    simp [load, listens, Stage.left]
  | left listens empty shut idle =>
    refine .inl ⟨?_, rfl⟩
    simp [load, listens, Stage.left]
  | drained drains waits ready =>
    refine .inl ⟨?_, rfl⟩
    simp only [load, drains, Stage.left, QuietWindow.source_take, List.length_nil]
    omega
  | waited calm => exact .inr ⟨calm, rfl, rfl⟩

theorem InTime.work_moves (kept : InTime relay) (moved : Moves relay pass next) : next.work < relay.work := by
  have same : relay.answer.2 = next.answer.2 := by
    rw [kept.answer_moves moved]
    rfl
  rw [work, work, ← same]
  obtain ⟨less, clock⟩ | ⟨calm, equal, clock⟩ := load_moves moved
  · omega
  · have early := kept.now_lt_answer calm
    omega

/-- When no other one can move, the clock goes on, unless the loop has returned. -/
theorem InTime.exists_moves (kept : InTime relay) (running : relay.stage ≠ .returned) :
    ∃ pass next, Moves relay pass next := by
  -- If nobody could move, all would be calm, and the clock could go on.
  by_contra stuck
  have stays : ∀ pass next, ¬ Moves relay pass next := fun pass next moved => stuck ⟨pass, next, moved⟩
  refine stays _ _ (.waited ⟨?sender, ?closer, ?listener, ?timer, running⟩)
  case sender =>
    intro arrival first
    refine Nat.lt_of_le_of_ne (kept.ahead arrival first) fun due => ?_
    obtain ⟨rest, front⟩ := List.head?_eq_some_iff.mp first
    have front : relay.unsent = ⟨relay.now, arrival.value⟩ :: rest := by rw [front, due]
    exact stays _ _ (.sent front)
  case closer =>
    intro nothing isOpen
    have listens : relay.stage = .listening := by
      by_contra gone
      rw [(kept.behind gone).2] at isOpen
      cases isOpen
    exact Nat.lt_of_le_of_ne (kept.listens listens) fun due => stays _ _ (.closed nothing due.symm isOpen)
  case listener =>
    intro listens
    have empty : relay.channel = [] := by
      cases front : relay.channel with
      | nil => rfl
      | cons value rest => exact absurd (.received listens front) (stays _ _)
    refine ⟨empty, ?_⟩
    rw [← Bool.not_eq_true]
    intro shut
    cases waits : relay.window.waiting with
    | none => exact stays _ _ (.left listens empty shut waits)
    | some entry => exact stays _ _ (.hungUp listens empty shut waits)
  case timer =>
    intro deadline known
    obtain ⟨⟨_, value⟩, waits, rfl⟩ := Option.map_eq_some_iff.mp known
    refine Nat.lt_of_not_le fun ready => ?_
    cases known : relay.stage with
    | listening => exact stays _ _ (.released known waits ready)
    | draining => exact stays _ _ (.drained known waits ready)
    | returned => exact running known

def Leads (next relay : Relay Value) : Prop := ∃ pass, Moves relay pass next

theorem InTime.acc (kept : InTime relay) : Acc Leads relay := by
  induction known : relay.work using Nat.strong_induction_on generalizing relay with
  | _ work inductionHypothesis =>
    subst known
    refine Acc.intro relay fun next leads => ?_
    obtain ⟨pass, moved⟩ := leads
    exact inductionHypothesis next.work (kept.work_moves moved) (kept.moves moved) rfl

/-- Every run can be carried on up to the return. -/
theorem InTime.returns (kept : InTime relay) : ∃ passes last, Runs relay passes last ∧ last.stage = .returned := by
  induction kept.acc with
  | intro relay _ inductionHypothesis =>
    by_cases returned : relay.stage = .returned
    · exact ⟨[], relay, .still, returned⟩
    · obtain ⟨pass, next, moved⟩ := kept.exists_moves returned
      obtain ⟨passes, last, rest, returned⟩ := inductionHypothesis next ⟨pass, moved⟩ (kept.moves moved)
      exact ⟨_, last, .moved moved rest, returned⟩

/-- Whoever moves first, the loop passes on the values that no other one follows before they are ready, the last one
among them and none twice, and returns when the channel is closed and the last value is ready. No run goes on for
ever or gets stuck before that, and the loop over the next thing that happens gives the same. -/
theorem passes_eq_quiet {delay closing : Nat} {arrivals : List (Timed Value)}
    (table : Timetable delay closing arrivals) :
    (∀ passes last, Runs (start delay closing arrivals) passes last →
      passes <+: quiet delay arrivals ∧
      (last.stage = .returned → passes = quiet delay arrivals ∧ last.now = finish delay closing arrivals) ∧
      ∃ rest final, Runs last rest final ∧ final.stage = .returned) ∧
    Acc Leads (start delay closing arrivals) ∧
    (Loop.start delay arrivals closing).run = (quiet delay arrivals, finish delay closing arrivals) ∧
    (quiet delay arrivals).Sublist (arrivals.map fun arrival => ⟨arrival.time + delay, arrival.value⟩) ∧
    (quiet delay arrivals).getLast? = arrivals.getLast?.map fun arrival => ⟨arrival.time + delay, arrival.value⟩ := by
  have begun := inTime_start table
  refine ⟨fun passes last run => ?_, begun.acc, Loop.run_start delay closing arrivals, quiet_sublist delay arrivals,
    getLast?_quiet delay arrivals⟩
  obtain ⟨kept, same⟩ := begun.runs run
  have answered : (start delay closing arrivals).answer = (quiet delay arrivals, finish delay closing arrivals) := rfl
  rw [answered, Prod.map] at same
  obtain ⟨values, clock⟩ := Prod.mk.inj same
  refine ⟨⟨_, values.symm⟩, fun returned => ?_, kept.returns⟩
  rw [answer_returned returned, List.append_nil] at values
  rw [answer_returned returned] at clock
  exact ⟨values.symm, clock.symm⟩

/-- Two values soon after each other, then a last one, and the channel closed before that is ready. -/
theorem passes_eq_quiet_bursts :
    let arrivals : List (Timed Nat) := [⟨0, 1⟩, ⟨100, 2⟩, ⟨600, 3⟩]
    Timetable 300 700 arrivals ∧
      (∀ passes last, Runs (start 300 700 arrivals) passes last → last.stage = .returned →
        passes = [⟨400, 2⟩, ⟨900, 3⟩] ∧ last.now = 900) ∧
      (∃ passes last, Runs (start 300 700 arrivals) passes last ∧ last.stage = .returned) ∧
      (Loop.start 300 arrivals 700).run = ([⟨400, 2⟩, ⟨900, 3⟩], 900) := by
  intro arrivals
  have table : Timetable 300 700 arrivals := ⟨by decide, by decide, by decide⟩
  have values : quiet 300 arrivals = [⟨400, 2⟩, ⟨900, 3⟩] := by decide
  have ends : finish 300 700 arrivals = 900 := by decide
  have ⟨answers, _, runs, _⟩ := passes_eq_quiet table
  rw [values, ends] at answers runs
  exact ⟨table, fun passes last run => (answers passes last run).2.1, (answers _ _ .still).2.2, runs⟩

end Relay

end MarkupOutline.Timing
