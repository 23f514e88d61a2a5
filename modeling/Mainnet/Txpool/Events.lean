import Mainnet.Lib.Run

namespace Mainnet.Txpool

open Lib List

structure Event where
  type : Int32
  txHash : String
deriving DecidableEq

/-- Where `runLoop` is: at the outer `select` or parked in it, about to pop an event, with an event at
the inner `select` or parked in that, or gone. -/
inductive Loop
  | select
  | waiting
  | drain
  | holds (event : Event)
  | offers (event : Event)
  | returned
deriving DecidableEq

/-- An `eventSubscription` with its goroutine. Of `doneCh`, `outputCh` and `notifyCh`, in this order,
the first `closed` have been closed; `notified` says whether the one place of `notifyCh` is taken.
`active` counts the calls of `pushEvent` that have stored their event and not yet notified. -/
structure Subscription where
  eventTypes : List Int32
  closed : ℕ := 0
  notified : Bool := false
  events : List Event := []
  loop : Loop := .select
  active : ℕ := 0
  received : List Event := []
  panicked : Bool := false
deriving DecidableEq

/-- What a `select` does: it takes the case of `doneCh`, or the other one, or parks. -/
inductive Choice
  | done
  | other
  | park

inductive Op
  | push (event : Event)
  | notify
  | runLoop (choice : Choice)
  | receive

namespace Subscription

def eventSupported (s : Subscription) (type : Int32) : Bool := s.eventTypes.any (· == type)

/-- The next step of `runLoop`; a case that is not ready is not taken. -/
def runLoop (s : Subscription) (choice : Choice) : Subscription :=
  match s.loop with
  | .select =>
    match choice with
    | .done => if 0 < s.closed then { s with loop := .returned } else s
    | .other =>
      if s.notified ∨ 2 < s.closed then { s with notified := false, loop := .drain } else s
    | .park => if s.closed = 0 ∧ ¬ s.notified then { s with loop := .waiting } else s
  | .drain =>
    match s.events with
    | [] => { s with loop := .select }
    | event :: events => { s with events := events, loop := .holds event }
  | .holds event =>
    match choice with
    | .done => if 0 < s.closed then { s with loop := .returned } else s
    | .other => if 1 < s.closed then { s with panicked := true } else s
    | .park => if s.closed = 0 then { s with loop := .offers event } else s
  | _ => s

def receive (s : Subscription) : Subscription :=
  if 1 < s.closed then s
  else
    match s.loop with
    | .holds event | .offers event => { s with received := s.received ++ [event], loop := .drain }
    | _ => s

def push (s : Subscription) (event : Event) : Subscription :=
  if s.eventSupported event.type then
    { s with events := s.events ++ [event], active := s.active + 1 }
  else s

/-- The second part: a send that does not block. A parked loop gets the notification at once. -/
def notify (s : Subscription) : Subscription :=
  if s.active = 0 then s
  else if 2 < s.closed then { s with active := s.active - 1, panicked := true }
  else if s.loop = .waiting then { s with active := s.active - 1, loop := .drain }
  else { s with active := s.active - 1, notified := true }

/-- `close` of channel number `n`. The end of `doneCh` wakes a parked loop, which returns. -/
def closeChannel (s : Subscription) (n : ℕ) : Subscription :=
  if n < s.closed then { s with panicked := true }
  else
    match s.loop with
    | .waiting | .offers _ => { s with closed := n + 1, loop := .returned }
    | _ => { s with closed := n + 1 }

def step (s : Subscription) : Op → Subscription
  | .push event => s.push event
  | .notify => s.notify
  | .runLoop choice => s.runLoop choice
  | .receive => s.receive

end Subscription

def Loop.held : Loop → List Event
  | .holds event | .offers event => [event]
  | _ => []

def Op.pushed : Op → List Event
  | .push event => [event]
  | _ => []

namespace Subscription

/-- Until it is closed: what was pushed is received, being sent or stored, and what is stored while
the loop looks for a notification has one coming. -/
structure Delivers (types : List Int32) (pushed : List Event) (s : Subscription) : Prop where
  eventTypes : s.eventTypes = types
  isOpen : s.closed = 0
  contents : s.received ++ s.loop.held ++ s.events =
    pushed.filter fun event ↦ types.any (· == event.type)
  wakes : s.loop = .select ∨ s.loop = .waiting → s.events ≠ [] → s.notified = true ∨ 0 < s.active

variable {types : List Int32} {pushed : List Event} {s : Subscription}

section

variable (h : Delivers types pushed s)
include h

theorem Delivers.push (event : Event) : Delivers types (pushed ++ [event]) (s.push event) := by
  obtain ⟨rfl, hopen, hcontents, hwakes⟩ := h
  rw [Subscription.push, eventSupported]
  split
  · next hsupported =>
    refine ⟨rfl, hopen, ?_, fun _ _ ↦ .inr (Nat.succ_pos _)⟩
    rw [filter_append, ← hcontents]
    simp [hsupported]
  · next hsupported =>
    refine ⟨rfl, hopen, ?_, hwakes⟩
    rw [filter_append, ← hcontents]
    simp [hsupported]

theorem Delivers.notify : Delivers types pushed s.notify := by
  obtain ⟨htypes, hopen, hcontents, hwakes⟩ := h
  rw [Subscription.notify, if_neg (by omega : ¬ 2 < s.closed)]
  split
  · exact ⟨htypes, hopen, hcontents, hwakes⟩
  split
  · next hwaiting =>
    rw [hwaiting] at hcontents
    exact ⟨htypes, hopen, hcontents, by simp⟩
  · exact ⟨htypes, hopen, hcontents, fun _ _ ↦ .inl rfl⟩

theorem Delivers.runLoop (choice : Choice) : Delivers types pushed (s.runLoop choice) := by
  obtain ⟨htypes, hopen, hcontents, hwakes⟩ := id h
  have hnot (n : ℕ) : ¬ n < s.closed := by omega
  unfold Subscription.runLoop
  cases hloop : s.loop with
  | select =>
    rw [hloop] at hcontents
    cases choice with
    | done => exact (if_neg (hnot 0)).symm ▸ h
    | other =>
      dsimp only
      split
      · exact ⟨htypes, hopen, hcontents, by simp⟩
      · exact h
    | park =>
      dsimp only
      split
      · exact ⟨htypes, hopen, hcontents, fun _ ↦ hwakes (.inl hloop)⟩
      · exact h
  | drain =>
    rw [hloop] at hcontents
    dsimp only
    cases hevents : s.events with
    | nil =>
      rw [hevents] at hcontents
      exact ⟨htypes, hopen, hcontents, fun _ hne ↦ absurd rfl hne⟩
    | cons event events =>
      rw [hevents] at hcontents
      exact ⟨htypes, hopen, by simpa [Loop.held] using hcontents, by simp⟩
  | holds event =>
    rw [hloop] at hcontents
    cases choice with
    | done => exact (if_neg (hnot 0)).symm ▸ h
    | other => exact (if_neg (hnot 1)).symm ▸ h
    | park =>
      dsimp only
      rw [if_pos hopen]
      exact ⟨htypes, hopen, hcontents, by simp⟩
  | _ => exact h

theorem Delivers.receive : Delivers types pushed s.receive := by
  obtain ⟨htypes, hopen, hcontents, hwakes⟩ := id h
  rw [Subscription.receive, if_neg (by omega)]
  cases hloop : s.loop with
  | holds event | offers event =>
    rw [hloop] at hcontents
    exact ⟨htypes, hopen, by simpa [Loop.held] using hcontents, by simp⟩
  | _ => exact h

theorem Delivers.exec (ops : List Op) :
    Delivers types (pushed ++ ops.flatMap Op.pushed) (Run.exec step s ops) := by
  induction ops generalizing pushed s with
  | nil => exact (append_nil pushed).symm ▸ h
  | cons op ops ih =>
    rw [flatMap_cons, ← append_assoc]
    refine ih ?_
    cases op with
    | push event => exact h.push event
    | notify => exact (append_nil pushed).symm ▸ h.notify
    | runLoop choice => exact (append_nil pushed).symm ▸ h.runLoop choice
    | receive => exact (append_nil pushed).symm ▸ h.receive

end

/-- Whatever the interleaving of the calls of `pushEvent` with the loop and the receiver, no event of
a subscribed type is lost, repeated or overtaken, and none is stored while the loop waits for a
notification that does not come. -/
theorem delivers_in_order (types : List Int32) (ops : List Op) :
    (Run.exec step { eventTypes := types } ops).received ++
        (Run.exec step { eventTypes := types } ops).loop.held ++
        (Run.exec step { eventTypes := types } ops).events =
      (ops.flatMap Op.pushed).filter (fun event ↦ types.any (· == event.type)) ∧
    ((Run.exec step { eventTypes := types } ops).loop = .waiting →
      (Run.exec step { eventTypes := types } ops).events ≠ [] →
      (Run.exec step { eventTypes := types } ops).notified = true ∨
        0 < (Run.exec step { eventTypes := types } ops).active) := by
  have hnew : Delivers types [] { eventTypes := types } := ⟨rfl, rfl, rfl, by simp⟩
  have h := hnew.exec ops
  exact ⟨h.contents, fun hwaiting ↦ h.wakes (.inr hwaiting)⟩

end Subscription

end Mainnet.Txpool
